import UtilityCss.Text.Bytes

/-!
# Edits of a text

An edit replaces a range of bytes. The places of a list of edits are places of one text, in their
order there, and the edits are made from the last to the first. An edit leaves the text in front of
its own place as it is, so a place is still right when its turn comes if it ends where the next one
begins, or in front of that. One that ends farther on finds a text there that has been edited
before. If that has no character boundary at its end, the edit does not fit: its range cannot be
replaced, and the program stops.
-/

namespace UtilityCss

open Text

/-- Puts `text` in place of the bytes from `start` up to `stop`. -/
structure Edit where
  start : Nat
  stop : Nat
  text : Text
  deriving DecidableEq

namespace Edit

/-- The range of the edit is one of the text. -/
structure Fits (e : Edit) (t : Text) : Prop where
  start_le : e.start ≤ e.stop
  isBoundary_start : IsBoundary e.start t
  isBoundary_stop : IsBoundary e.stop t

instance (e : Edit) (t : Text) : Decidable (e.Fits t) :=
  decidable_of_iff (e.start ≤ e.stop ∧ IsBoundary e.start t ∧ IsBoundary e.stop t)
    ⟨fun h => ⟨h.1, h.2.1, h.2.2⟩, fun h => ⟨h.start_le, h.isBoundary_start, h.isBoundary_stop⟩⟩

/-- Makes the edit; without a result, the program stops. -/
def apply (e : Edit) (t : Text) : Option Text :=
  if e.Fits t then some (replaceRange e.start e.stop e.text t) else none

theorem apply_eq_some_iff {e : Edit} {t t' : Text} :
    e.apply t = some t' ↔ e.Fits t ∧ t' = replaceRange e.start e.stop e.text t := by
  rw [apply, Option.ite_none_right_eq_some, Option.some.injEq, eq_comm]

/-- Makes the edits, the last one first, up to one that does not fit what those behind it leave. -/
def applyAll (edits : List Edit) (t : Text) : Option Text :=
  edits.foldrM apply t

theorem applyAll_cons (e : Edit) (es : List Edit) (t : Text) :
    applyAll (e :: es) t = (applyAll es t).bind e.apply :=
  List.foldrM_cons

end Edit

end UtilityCss
