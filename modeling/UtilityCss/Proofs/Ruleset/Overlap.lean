import UtilityCss.Proofs.Ruleset.Modify

/-!
# Rulesets whose edits overlap

Unless edits overlap, a ruleset under modifiers is rewritten section by section. A rule with the
class leaves at least its braces then, so where nothing is left no rule had the class, and nothing
was skipped.
-/

namespace UtilityCss.Ruleset

open Text Css Selector

/-- Of two rules of a style sheet, one behind the other, the first one goes and the other begins with
a blank. -/
def Overlaps (change : Change) (css : Text) : Prop :=
  ∃ sections tail, trim css = sheet sections tail ∧
    Laid 0 sections tail ((parse (trim css)).rules.filter (!·.isKeyframe)) ∧
    ¬ Apart change sections

variable {change : Change} {css : Text}

theorem modifyRules_of_apart {sections : List Section} {tail : Text}
    (hsource : trim css = sheet sections tail)
    (hlaid : Laid 0 sections tail ((parse (trim css)).rules.filter (!·.isKeyframe)))
    (hapart : Apart change sections) :
    modifyRules change css = some ⟨trimEnd (rewritten change tail false sections),
      ((parse (trim css)).rules.filter (!·.isKeyframe)).flatMap fun r =>
        (modifyList change r.selector).skipped⟩ := by
  obtain ⟨heq, hcuts⟩ := edited_of_apart tail hapart
  exact (modifyRules_eq_some_iff hsource hlaid).mpr ⟨hcuts, by rw [heq]⟩

/-- Unless edits overlap, the ruleset has sections to be rewritten. -/
theorem exists_apart (h : ¬ Overlaps change css) : ∃ sections tail, trim css = sheet sections tail ∧
    Laid 0 sections tail ((parse (trim css)).rules.filter (!·.isKeyframe)) ∧
    Apart change sections := by
  obtain ⟨sections, tail, hsource, hlaid, _⟩ := (shown_parse (trim css)).filter (!·.isKeyframe)
  refine ⟨sections, tail, hsource, hlaid, ?_⟩
  by_contra hnot
  exact h ⟨sections, tail, hsource, hlaid, hnot⟩

theorem overlaps_of_modifyRules_eq_none (h : modifyRules change css = none) :
    Overlaps change css := by
  by_contra hnot
  obtain ⟨sections, tail, hsource, hlaid, hapart⟩ := exists_apart hnot
  rw [modifyRules_of_apart hsource hlaid hapart] at h
  cases h

/-- A selector without the class skips nothing. -/
theorem skipped_of_not_found {selectors : Text} (h : (modifyList change selectors).found = false) :
    (modifyList change selectors).skipped = [] := by
  unfold modifyList at h ⊢
  simp only [List.any_map, List.any_eq_false, Function.comp_apply, Bool.not_eq_true] at h
  simp only [List.flatMap_map, List.flatMap_eq_nil_iff]
  intro m hm
  have hfound := h m hm
  unfold Selector.modify at hfound ⊢
  cases htoken : findClassToken (escape change.className) m with
  | none => rfl
  | some token =>
      rw [htoken] at hfound
      simp only at hfound
      split at hfound <;> cases hfound

theorem not_found_of_inked_eq_zero {tail : Text} {sections : List Section} {cut : Bool}
    (h : inked (rewritten change tail cut sections) = 0) :
    ∀ s ∈ sections, (modifyList change s.selector).found = false := by
  induction sections generalizing cut with
  | nil => exact fun s hs => absurd hs List.not_mem_nil
  | cons s ss ih =>
      by_cases hfound : (modifyList change s.selector).found = true
      · have hblock : inked s.block ≠ 0 := by
          have hbrace : inked ['\x7b'] = 1 := by decide
          have hsplit : s.block = s.gap ++ (['\x7b'] ++ (s.body ++ s.close)) := rfl
          rw [hsplit, inked_append, inked_append, hbrace]
          omega
        simp only [rewritten, hfound, if_true, inked_append] at h
        omega
      · simp only [rewritten, hfound, Bool.false_eq_true, if_false, inked_append] at h
        have hrest := ih (show inked (rewritten change tail true ss) = 0 by omega)
        intro s' hs'
        rcases List.mem_cons.mp hs' with heq | hs'
        · rw [heq]
          exact Bool.eq_false_iff.mpr hfound
        · exact hrest s' hs'

theorem Laid.exists_section {start : Nat} {sections : List Section} {tail : Text}
    {rules : List Rule} (h : Laid start sections tail rules) {r : Rule} (hr : r ∈ rules) :
    ∃ s ∈ sections, r.selector = s.selector := by
  induction h with
  | nil => exact absurd hr List.not_mem_nil
  | @cons start s ss tail r' rs hrule _ _ ih =>
      rcases List.mem_cons.mp hr with heq | hr
      · exact ⟨s, List.mem_cons_self, heq ▸ hrule.selector_eq⟩
      · obtain ⟨s', hs', heq⟩ := ih hr
        exact ⟨s', List.mem_cons_of_mem s hs', heq⟩

theorem skipped_eq_nil_of_css_eq_nil {m : ModifiedText} (hm : modifyRules change css = some m)
    (hcss : m.css = []) (h : ¬ Overlaps change css) : m.skipped = [] := by
  obtain ⟨sections, tail, hsource, hlaid, hapart⟩ := exists_apart h
  rw [modifyRules_of_apart hsource hlaid hapart, Option.some.injEq] at hm
  subst hm
  have hinked : inked (rewritten change tail false sections) = 0 := by
    rw [← inked_trimEnd]
    exact congrArg inked hcss
  have hnone := not_found_of_inked_eq_zero hinked
  rw [List.flatMap_eq_nil_iff]
  intro r hr
  obtain ⟨s, hs, heq⟩ := hlaid.exists_section hr
  rw [heq]
  exact skipped_of_not_found (hnone s hs)

theorem blocks_ne_nil {t : Text} (h : t ≠ []) (headers : List Text) : blocks headers t ≠ [] := by
  cases headers with
  | nil => exact h
  | cons header headers =>
      intro hnil
      simp [blocks, block] at hnil

def changeUnder (className newName : Text) (placement : Placement) : Change where
  className := className
  newName := newName
  states := placement.states
  pseudoElement := placement.pseudoElement

variable {className newName : Text} {placement : Placement}

theorem skipped_within (m : ModifiedText) (headers : List Text) :
    (m.within headers).skipped = m.skipped := by
  unfold ModifiedText.within
  split <;> rfl

theorem css_eq_nil_of_within {m : ModifiedText} {headers : List Text}
    (h : (m.within headers).css = []) : m.css = [] := by
  by_contra hne
  rw [ModifiedText.within, if_neg fun hempty => hne (List.isEmpty_iff.mp hempty)] at h
  exact blocks_ne_nil hne headers h

theorem modify_eq_map : modify className newName placement css =
    (modifyRules (changeUnder className newName placement) css).map (·.within placement.headers) :=
  rfl

/-- Without edits that overlap, a ruleset of which nothing is left skips nothing. -/
theorem modify_skipped_eq_nil {m : ModifiedText}
    (hm : modify className newName placement css = some m) (hcss : m.css = [])
    (h : ¬ Overlaps (changeUnder className newName placement) css) : m.skipped = [] := by
  rw [modify_eq_map, Option.map_eq_some_iff] at hm
  obtain ⟨rules, hrules, rfl⟩ := hm
  rw [skipped_within]
  exact skipped_eq_nil_of_css_eq_nil hrules (css_eq_nil_of_within hcss) h

theorem overlaps_of_modify_eq_none (h : modify className newName placement css = none) :
    Overlaps (changeUnder className newName placement) css :=
  overlaps_of_modifyRules_eq_none (Option.map_eq_none_iff.mp h)

end UtilityCss.Ruleset
