import Mathlib.Data.List.Nodup
import UtilityCss.Registry.Basic

/-!
# Names and places in the registry

Look-ups, membership and places agree on which names are registered, and the place of a name is its
index among the names.
-/

namespace UtilityCss.Registry

open Text

variable {r : Registry} {name : Text}

theorem position?_eq_none_iff : r.position? name = none ↔ name ∉ r.names := by
  rw [Option.eq_none_iff_forall_ne_some]
  constructor
  · intro h hmem
    obtain ⟨i, hi⟩ := List.getElem?_of_mem hmem
    exact h i (position?_eq_some_iff.mpr hi)
  · intro h i hi
    exact h (List.mem_of_getElem? (position?_eq_some_iff.mp hi))

theorem position?_getElem (r : Registry) {i : Nat} (hi : i < r.names.length) :
    r.position? r.names[i] = some i :=
  position?_eq_some_iff.mpr (List.getElem?_eq_getElem hi)

theorem position?_isSome_iff_mem_names : (r.position? name).isSome = true ↔ name ∈ r.names := by
  rw [← not_iff_not, Bool.not_eq_true, Option.isSome_eq_false_iff, Option.isNone_iff_eq_none,
    position?_eq_none_iff]

theorem contains_iff_mem_names : r.contains name = true ↔ name ∈ r.names :=
  position?_isSome_iff_mem_names

/-- Whatever place the index gives, there is an entry, so that no look-up of a name misses. -/
theorem isSome_position?_eq (r : Registry) (name : Text) :
    (r.position? name).isSome = (r.get? name).isSome := by
  unfold get? stored?
  cases h : r.position? name with
  | none =>
      rw [show r.index.get? name = none from h]
      rfl
  | some i =>
      obtain ⟨d, hd⟩ := exists_entry_of_position? h
      rw [show r.index.get? name = some i from h, Option.bind_some, hd]
      rfl

theorem contains_eq_isSome (r : Registry) (name : Text) :
    r.contains name = (r.get? name).isSome :=
  isSome_position?_eq r name

/-- No two entries have one name, as the index would have two places for it. -/
theorem nodup_names (r : Registry) : r.names.Nodup := by
  rw [List.nodup_iff_getElem?_ne_getElem?]
  intro i j hij hj heq
  rw [List.getElem?_eq_getElem hj] at heq
  have hplace := position?_getElem r hj
  rw [position?_eq_some_iff.mpr heq, Option.some.injEq] at hplace
  omega

end UtilityCss.Registry
