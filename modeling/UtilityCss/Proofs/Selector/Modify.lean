import UtilityCss.Proofs.Text.Trim
import UtilityCss.Selector.Modify

/-!
# Changed selectors

A selector list in which the class occurs has a first member, and its changed form begins with what
this member begins with, or with the dot of the class.
-/

namespace UtilityCss.Selector

open Text Css

theorem beginsSolid_of_mem_members {t m : Text} (h : m ∈ members t) : BeginsSolid m := by
  unfold members at h
  rw [List.mem_filter, List.mem_map] at h
  obtain ⟨⟨part, _, hpart⟩, hne⟩ := h
  rw [← hpart]
  apply beginsSolid_trim
  intro hnil
  rw [← hpart, hnil] at hne
  cases hne

theorem beginsSolid_modify {s : Text} (h : BeginsSolid s) (change : Change) :
    BeginsSolid (modify change s).selector := by
  unfold modify
  cases htoken : findClassToken (escape change.className) s with
  | none => exact h
  | some token =>
      have hnamed : ∀ behind, BeginsSolid (upTo s token ++ '.' :: behind) := by
        intro behind
        obtain ⟨c, rest, heq, hc⟩ := h
        unfold upTo
        rw [heq]
        cases (c :: rest).length - token.length with
        | zero => exact ⟨'.', behind, rfl, by decide⟩
        | succ n => exact ⟨c, rest.take n ++ '.' :: behind, rfl, hc⟩
      simp only
      split
      · simpa using hnamed _
      · simpa using hnamed _

theorem join_cons (sep part : Text) (parts : List Text) :
    ∃ behind, join sep (part :: parts) = part ++ behind := by
  cases parts with
  | nil => exact ⟨[], by rw [join, List.append_nil]⟩
  | cons second parts => exact ⟨sep ++ join sep (second :: parts), List.append_assoc _ _ _⟩

theorem beginsSolid_modifyList {change : Change} {t : Text}
    (h : (modifyList change t).found = true) : BeginsSolid (modifyList change t).selector := by
  have hmembers := fun m => beginsSolid_of_mem_members (t := t) (m := m)
  unfold modifyList at h ⊢
  cases hlist : members t with
  | nil =>
      rw [hlist] at h
      cases h
  | cons m ms =>
      rw [hlist] at hmembers
      obtain ⟨behind, hjoin⟩ := join_cons [',', '\n'] (modify change m).selector
        ((ms.map (modify change)).map (·.selector))
      have hm := beginsSolid_modify (hmembers m List.mem_cons_self) change
      simp only [List.map_cons]
      rw [hjoin]
      exact hm.append behind

end UtilityCss.Selector
