import UtilityCss.Name.Map
import UtilityCss.Proofs.Name.Set

/-!
# Tables by what is found in them

The entries of a table are what its look-ups find. As they ascend by name, look-ups that agree come
from one and the same list of entries.
-/

namespace UtilityCss

open Text

variable {α : Type}

namespace NameMap

theorem lookup_eq_some_iff {entries : List (Text × α)} {name : Text} {value : α}
    (h : entries.Pairwise fun a b => Precedes a.1 b.1) :
    entries.lookup name = some value ↔ (name, value) ∈ entries := by
  induction entries with
  | nil => simp
  | cons head rest ih =>
      obtain ⟨other, old⟩ := head
      have hrest : ∀ e ∈ rest, Precedes other e.1 := fun _ => List.rel_of_pairwise_cons h
      rw [lookup_cons_eq_ite, List.mem_cons, Prod.mk.injEq]
      split
      next heq =>
        subst heq
        have hnot : (name, value) ∉ rest := fun hmem =>
          not_precedes_self name (hrest _ hmem)
        rw [Option.some.injEq]
        simp only [hnot, or_false, true_and, eq_comm]
      next hne => simp only [ih h.of_cons, hne, false_and, false_or]

theorem get?_eq_some_iff {m : NameMap α} {name : Text} {value : α} :
    m.get? name = some value ↔ (name, value) ∈ m.entries :=
  lookup_eq_some_iff m.ascending

theorem eq_of_get?_eq {m m' : NameMap α} (h : ∀ name, m.get? name = m'.get? name) : m = m' := by
  obtain ⟨entries, hm⟩ := m
  obtain ⟨entries', hm'⟩ := m'
  have hentries : entries = entries' := by
    refine eq_of_mem_iff_of_ascending hm hm' fun e => ?_
    rw [← lookup_eq_some_iff hm, ← lookup_eq_some_iff hm']
    exact iff_of_eq (congrArg (· = some e.2) (h e.1))
  subst hentries
  rfl

end NameMap

end UtilityCss
