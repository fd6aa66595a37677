import Mathlib.Data.List.Sort
import UtilityCss.Name.Set

/-!
# Sets of names by their members

Texts in ascending order are determined by which texts they are, and so is a set of names.
-/

namespace UtilityCss

open Text

instance : Std.Irrefl Precedes :=
  ⟨not_precedes_self⟩

instance : Std.Antisymm Precedes :=
  ⟨fun s _ hst hts => absurd (hst.trans hts) (not_precedes_self s)⟩

/-- Ascending by a key, things are listed in one way only. -/
theorem eq_of_mem_iff_of_ascending {α : Type} {key : α → Text} {as bs : List α}
    (has : as.Pairwise fun a b => Precedes (key a) (key b))
    (hbs : bs.Pairwise fun a b => Precedes (key a) (key b)) (h : ∀ a, a ∈ as ↔ a ∈ bs) :
    as = bs := by
  have hirrefl : Std.Irrefl fun a b : α => Precedes (key a) (key b) :=
    ⟨fun a => not_precedes_self (key a)⟩
  have hantisymm : Std.Antisymm fun a b : α => Precedes (key a) (key b) :=
    ⟨fun a _ hab hba => absurd (hab.trans hba) (not_precedes_self (key a))⟩
  exact has.eq_of_mem_iff hbs h

theorem NameSet.eq_of_mem_iff {s t : NameSet} (h : ∀ x, x ∈ s ↔ x ∈ t) : s = t := by
  obtain ⟨names, hs⟩ := s
  obtain ⟨names', ht⟩ := t
  have hnames : names = names' := hs.eq_of_mem_iff ht h
  subst hnames
  rfl

theorem NameSet.nodup (s : NameSet) : s.toList.Nodup := by
  refine s.ascending.imp ?_
  rintro x y hprecedes rfl
  exact not_precedes_self x hprecedes

end UtilityCss
