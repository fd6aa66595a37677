import UtilityCss.Generator.Cascade
import UtilityCss.Proofs.Name.Set
import UtilityCss.Proofs.Text.Order

/-!
# The order of cascade keys

Keys are ordered by base, then by rank, then by name. As the name is a part of the key, different
class names are never level, and to sort them leaves nothing open.
-/

namespace UtilityCss.CascadeKey

open Text

/-- The key stands in front of another: by base, among keys of one base by rank, and then by name. -/
def Before (a b : CascadeKey) : Prop :=
  Precedes a.base b.base ∨
    a.base = b.base ∧ (a.rank < b.rank ∨ a.rank = b.rank ∧ Precedes a.name b.name)

theorem not_before_self (a : CascadeKey) : ¬ a.Before a := by
  rintro (hbase | ⟨-, hrank | ⟨-, hname⟩⟩)
  · exact not_precedes_self _ hbase
  · exact Nat.lt_irrefl _ hrank
  · exact not_precedes_self _ hname

theorem Before.trans {a b c : CascadeKey} (hab : a.Before b) (hbc : b.Before c) : a.Before c := by
  rcases hab with hab | ⟨heq, hab⟩
  · rcases hbc with hbc | ⟨heq', -⟩
    · exact Or.inl (hab.trans hbc)
    · exact Or.inl (heq' ▸ hab)
  · rcases hbc with hbc | ⟨heq', hbc⟩
    · exact Or.inl (heq ▸ hbc)
    · refine Or.inr ⟨heq.trans heq', ?_⟩
      rcases hab with hab | ⟨hrank, hab⟩
      · rcases hbc with hbc | ⟨hrank', -⟩
        · exact Or.inl (Nat.lt_trans hab hbc)
        · exact Or.inl (hrank' ▸ hab)
      · rcases hbc with hbc | ⟨hrank', hbc⟩
        · exact Or.inl (hrank ▸ hbc)
        · exact Or.inr ⟨hrank.trans hrank', hab.trans hbc⟩

theorem not_before_of_before {a b : CascadeKey} (h : a.Before b) : ¬ b.Before a :=
  fun h' => not_before_self a (h.trans h')

theorem notAfter_iff {a b : CascadeKey} : notAfter a b = true ↔ a = b ∨ a.Before b := by
  obtain ⟨base, rank, name⟩ := a
  obtain ⟨base', rank', name'⟩ := b
  unfold notAfter
  cases horder : order base base' with
  | lt =>
      have hbase : Precedes base base' := horder
      simp [Before, hbase]
  | gt =>
      have hne : base ≠ base' := fun heq => by
        rw [order_eq_iff.mpr heq] at horder
        cases horder
      have hbase : ¬ Precedes base base' := fun hlt => by
        rw [hlt] at horder
        cases horder
      simp [Before, hne, hbase]
  | eq =>
      have heq := order_eq_iff.mp horder
      subst heq
      rcases Nat.lt_trichotomy rank rank' with hlt | heq | hgt
      · simp [Before, hlt]
      · subst heq
        simp [Before, not_precedes_self, notAfter_iff_eq_or_precedes]
      · have hne : ¬ rank = rank' := by omega
        have hle : ¬ rank < rank' := by omega
        simp [Before, not_precedes_self, hne, hle, hgt]

theorem notAfter_trans {a b c : CascadeKey} (hab : notAfter a b = true)
    (hbc : notAfter b c = true) : notAfter a c = true := by
  rw [notAfter_iff] at *
  rcases hab with rfl | hab
  · exact hbc
  · rcases hbc with rfl | hbc
    · exact Or.inr hab
    · exact Or.inr (hab.trans hbc)

theorem notAfter_total (a b : CascadeKey) : (notAfter a b || notAfter b a) = true := by
  rw [Bool.or_eq_true, notAfter_iff, notAfter_iff]
  by_cases hbase : a.base = b.base
  · by_cases hrank : a.rank = b.rank
    · by_cases hname : a.name = b.name
      · have heq : a = b := by
          obtain ⟨base, rank, name⟩ := a
          exact congr (congr (congrArg mk hbase) hrank) hname
        exact Or.inl (Or.inl heq)
      · by_cases hlt : Precedes a.name b.name
        · exact Or.inl (Or.inr (Or.inr ⟨hbase, Or.inr ⟨hrank, hlt⟩⟩))
        · have hgt := precedes_of_not_precedes hlt hname
          exact Or.inr (Or.inr (Or.inr ⟨hbase.symm, Or.inr ⟨hrank.symm, hgt⟩⟩))
    · rcases Nat.lt_or_gt_of_ne hrank with hlt | hgt
      · exact Or.inl (Or.inr (Or.inr ⟨hbase, Or.inl hlt⟩))
      · exact Or.inr (Or.inr (Or.inr ⟨hbase.symm, Or.inl hgt⟩))
  · by_cases hlt : Precedes a.base b.base
    · exact Or.inl (Or.inr (Or.inl hlt))
    · exact Or.inr (Or.inr (Or.inl (precedes_of_not_precedes hlt hbase)))

theorem sortNames_perm (names : List Text) : (sortNames names).Perm names :=
  List.mergeSort_perm names _

theorem pairwise_sortNames {names : List Text} (h : names.Nodup) :
    (sortNames names).Pairwise fun a b => (ofName a).Before (ofName b) := by
  have hsorted : (sortNames names).Pairwise fun a b => notAfter (ofName a) (ofName b) = true := by
    apply List.pairwise_mergeSort
    · intro a b c hab hbc
      exact notAfter_trans hab hbc
    · intro a b
      exact notAfter_total (ofName a) (ofName b)
  have hnodup : (sortNames names).Nodup := (sortNames_perm names).nodup_iff.mpr h
  refine (hsorted.and hnodup).imp ?_
  intro a b hab
  refine (notAfter_iff.mp hab.1).resolve_left ?_
  -- The name is a part of the key.
  exact fun hkey => hab.2 (congrArg name hkey)

end UtilityCss.CascadeKey
