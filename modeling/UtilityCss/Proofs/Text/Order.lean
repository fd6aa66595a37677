import UtilityCss.Text.Order

/-!
# Sorted texts

Texts that are sorted and all different ascend strictly.
-/

namespace UtilityCss.Text

variable {s t u : Text}

theorem notAfter_iff_eq_or_precedes : notAfter s t = true ↔ s = t ∨ Precedes s t := by
  unfold notAfter Precedes
  cases horder : order s t with
  | lt => simp
  | eq => simp [order_eq_iff.mp horder]
  | gt =>
      have hne : s ≠ t := fun heq => by
        rw [order_eq_iff.mpr heq] at horder
        cases horder
      simp [hne]

theorem notAfter_trans (hst : notAfter s t = true) (htu : notAfter t u = true) :
    notAfter s u = true := by
  rw [notAfter_iff_eq_or_precedes] at *
  rcases hst with rfl | hst
  · exact htu
  · rcases htu with rfl | htu
    · exact Or.inr hst
    · exact Or.inr (hst.trans htu)

theorem notAfter_total (s t : Text) : (notAfter s t || notAfter t s) = true := by
  rw [Bool.or_eq_true, notAfter_iff_eq_or_precedes, notAfter_iff_eq_or_precedes]
  by_cases heq : s = t
  · exact Or.inl (Or.inl heq)
  · by_cases hlt : Precedes s t
    · exact Or.inl (Or.inr hlt)
    · exact Or.inr (Or.inr (precedes_of_not_precedes hlt heq))

theorem pairwise_mergeSort_precedes {ts : List Text} (h : ts.Nodup) :
    (ts.mergeSort notAfter).Pairwise Precedes := by
  have hsorted : (ts.mergeSort notAfter).Pairwise fun a b => notAfter a b = true := by
    apply List.pairwise_mergeSort
    · intro s t u hst htu
      exact notAfter_trans hst htu
    · intro s t
      exact notAfter_total s t
  have hnodup : (ts.mergeSort notAfter).Nodup := (List.mergeSort_perm ts notAfter).nodup_iff.mpr h
  refine (hsorted.and hnodup).imp ?_
  intro a b hab
  exact (notAfter_iff_eq_or_precedes.mp hab.1).resolve_left hab.2

/-- The ascending list of some different texts is what sorting them gives. -/
theorem mergeSort_eq {ts us : List Text} (hperm : us.Perm ts) (hus : us.Pairwise Precedes) :
    ts.mergeSort notAfter = us := by
  have hus' : us.Nodup := by
    refine hus.imp ?_
    rintro s t hlt rfl
    exact not_precedes_self s hlt
  have hsorted := pairwise_mergeSort_precedes (hperm.nodup_iff.mp hus')
  refine List.Perm.eq_of_pairwise (fun s t _ _ hst hts => ?_) hsorted hus
    ((List.mergeSort_perm ts notAfter).trans hperm.symm)
  exact absurd (hst.trans hts) (not_precedes_self s)

end UtilityCss.Text
