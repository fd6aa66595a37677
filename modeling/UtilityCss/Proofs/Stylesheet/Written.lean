import UtilityCss.Proofs.Ruleset.Entries
import UtilityCss.Proofs.Stylesheet.Tree
import UtilityCss.Proofs.Text.Trim

/-!
# Style sheets with escapes

A tree can be shown by more texts than `Printed` knows: `Written` lets preludes and declarations
hold escapes, and preludes hold strings and comments. Selectors for which class names have been
escaped are of this kind. What is written stays so when the blanks at its ends are trimmed.
-/

namespace UtilityCss.Stylesheet

open Text Css Ruleset

structure IsPrelude (t : Text) : Prop where
  starts : ∃ c rest, t = c :: rest ∧ isBare c = true ∧ (c = '/' → rest.head? ≠ some '*')
  trimmed : trim t = t
  whole : Whole t
  balanced : preludeDepth? 0 (lexemes t) = some 0

inductive Written : List Item → Text → Prop where
  | nil {blanks : Text} (hblanks : IsBlanks blanks) : Written [] blanks
  | style {lead selector gap open' declarations close t : Text} {rest : List Item}
      (hlead : IsBlanks lead) (hselector : IsPrelude selector) (hat : selector.head? ≠ some '@')
      (hgap : IsBlanks gap) (hopen : IsBlanks open') (hdeclarations : Whole declarations)
      (hclose : IsBlanks close) (hrest : Written rest t) :
      Written (.style selector declarations :: rest)
        (lead ++ selector ++ gap ++ '\x7b' :: (open' ++ declarations ++ close ++ '\x7d' :: t))
  | comment {lead body t : Text} {rest : List Item} (hlead : IsBlanks lead)
      (hbody : ¬ ['*', '/'] <:+: body) (hrest : Written rest t) :
      Written (.comment body :: rest) (lead ++ commentOf body ++ t)
  | statement {lead prelude gap t : Text} {rest : List Item} (hlead : IsBlanks lead)
      (hprelude : IsPrelude prelude) (hgap : IsBlanks gap) (hrest : Written rest t) :
      Written (.statement prelude :: rest) (lead ++ prelude ++ gap ++ ';' :: t)
  | group {lead prelude gap body t : Text} {items rest : List Item} (hlead : IsBlanks lead)
      (hprelude : IsPrelude prelude) (hgrouping : IsGroupingPrelude prelude) (hgap : IsBlanks gap)
      (hitems : Written items body) (hrest : Written rest t) :
      Written (.group prelude items :: rest)
        (lead ++ prelude ++ gap ++ '\x7b' :: (body ++ '\x7d' :: t))

namespace IsBlanks

variable {ws : Text}

theorem nil : IsBlanks [] := fun _ hc => absurd hc List.not_mem_nil

theorem isBlank (h : IsBlanks ws) : ∀ c ∈ ws, isBlank c = true :=
  fun c hc => isBlank_of_isAsciiBlank (h c hc)

theorem isBare (h : IsBlanks ws) : ∀ c ∈ ws, isBare c = true :=
  fun c hc => isBare_of_isAsciiBlank (h c hc)

theorem ne {c : Char} (h : IsBlanks ws) (hc : c ∈ ws) {x : Char} (hx : isAsciiBlank x = false) :
    c ≠ x := by
  intro heq
  rw [← heq, h c hc] at hx
  cases hx

theorem head?_ne (h : IsBlanks ws) : ws.head? ≠ some '*' := by
  intro hhead
  exact h.ne (List.mem_of_mem_head? hhead) (by decide) rfl

theorem whole_append (h : IsBlanks ws) {t : Text} (ht : Whole t) : Whole (ws ++ t) :=
  ht.bare_append fun c hc => ⟨h.isBare c hc, h.ne hc (by decide)⟩

theorem whole (h : IsBlanks ws) : Whole ws := by
  simpa using h.whole_append .nil

theorem bracketDepth?_eq (h : IsBlanks ws) (depth : Nat) : bracketDepth? depth ws = some depth := by
  induction ws with
  | nil => rfl
  | cons c ws ih =>
      have hc := fun x => h.ne (x := x) List.mem_cons_self
      have hopen : ¬ (c = '(' ∨ c = '[') := not_or.mpr ⟨hc _ (by decide), hc _ (by decide)⟩
      have hclose : ¬ (c = ')' ∨ c = ']') := not_or.mpr ⟨hc _ (by decide), hc _ (by decide)⟩
      rw [bracketDepth?, if_neg hopen, if_neg hclose]
      exact ih fun x hx => h x (List.mem_cons_of_mem c hx)

theorem lexemes_eq (h : IsBlanks ws) : lexemes ws = ws.map .symbol := by
  have hlex := lexemes_blanks_append h []
  rwa [List.append_nil, lexemes, List.append_nil] at hlex

theorem preludeDepth?_eq (h : IsBlanks ws) (depth : Nat) :
    preludeDepth? depth (lexemes ws) = some depth := by
  rw [h.lexemes_eq, preludeDepth?_symbols fun c hc => ⟨h.isBare c hc, h.ne hc (by decide)⟩,
    h.bracketDepth?_eq]

end IsBlanks

theorem IsHeader.isPrelude {s : Text} (h : IsHeader s) : IsPrelude s := by
  have hbare : ∀ c ∈ s, isBare c = true := fun c hc => (h.bare c hc).1
  have hwhole := Whole.of_bare hbare h.uncommented
  refine ⟨?_, h.trimmed, hwhole, ?_⟩
  · obtain ⟨c, rest, heq, -⟩ := beginsSolid_of_trim h.trimmed h.nonempty
    refine ⟨c, rest, heq, hbare c (heq ▸ List.mem_cons_self), ?_⟩
    rintro rfl hhead
    obtain ⟨t, ht⟩ := List.head?_eq_some_iff.mp hhead
    exact h.uncommented ⟨[], t, by rw [heq, ht]; rfl⟩
  · have hlex := lexemes_bare_append (t := []) hbare h.uncommented (by simp)
    rw [List.append_nil, lexemes, List.append_nil] at hlex
    rw [hlex, preludeDepth?_symbols h.bare]
    exact h.balanced

theorem IsDeclarations.whole {s : Text} (h : IsDeclarations s) : Whole s := by
  induction h with
  | nil => exact .nil
  | char hbare hopen _ ih => exact .char hbare hopen ih
  | string hquote hbody _ ih => exact .string hquote hbody ih
  | comment hbody _ ih => exact .comment hbody ih

theorem Printed.written {items : List Item} {t : Text} (h : Printed items t) : Written items t := by
  induction h with
  | nil hblanks => exact .nil hblanks
  | style hlead hselector hat hgap hopen hdeclarations hclose _ ih =>
      exact .style hlead hselector.isPrelude hat hgap hopen hdeclarations.whole hclose ih
  | comment hlead hbody _ ih => exact .comment hlead hbody ih
  | statement hlead hprelude hgap _ ih => exact .statement hlead hprelude.isPrelude hgap ih
  | group hlead hprelude hgrouping hgap _ _ ihitems ih =>
      exact .group hlead hprelude.isPrelude hgrouping hgap ihitems ih

namespace IsPrelude

variable {s gap : Text}

theorem beginsSolid (h : IsPrelude s) : BeginsSolid s := by
  obtain ⟨c, rest, heq, -⟩ := h.starts
  exact beginsSolid_of_trim h.trimmed (by rw [heq]; exact List.cons_ne_nil c rest)

theorem trimEnd_append (h : IsPrelude s) (hgap : IsBlanks gap) : trimEnd (s ++ gap) = s := by
  rw [trimEnd_append_blanks hgap.isBlank, trimEnd_of_trim h.trimmed]

theorem whole_append (h : IsPrelude s) (hgap : IsBlanks gap) : Whole (s ++ gap) :=
  h.whole.append hgap.whole hgap.head?_ne

theorem lexemes_append (h : IsPrelude s) (hgap : IsBlanks gap) :
    lexemes (s ++ gap) = lexemes s ++ lexemes gap :=
  h.whole.lexemes_append hgap.head?_ne

theorem balanced_append (h : IsPrelude s) (hgap : IsBlanks gap) :
    preludeDepth? 0 (lexemes (s ++ gap)) = some 0 := by
  rw [h.lexemes_append hgap, preludeDepth?_append, h.balanced]
  exact hgap.preludeDepth?_eq 0

theorem exists_symbol (h : IsPrelude s) :
    ∃ c ls, lexemes s = .symbol c :: ls ∧ s.head? = some c ∧ startsPrelude c = true := by
  obtain ⟨c, rest, heq, hbare, hopen⟩ := h.starts
  refine ⟨c, lexemes rest, ?_, by rw [heq]; rfl, ?_⟩
  · rw [heq, lexemes_bare_cons hbare hopen]
  · have hblank : isAsciiBlank c = false := by
      cases hc : isAsciiBlank c with
      | false => rfl
      | true =>
          have hsolid := h.trimmed
          rw [heq] at hsolid
          have hhead := isBlank_head_of_trim hsolid
          rw [isBlank_of_isAsciiBlank hc] at hhead
          cases hhead
    have hclose : c ≠ '\x7d' := by
      rintro rfl
      exact absurd hbare (by decide)
    simp [startsPrelude, hblank, hclose]

end IsPrelude

/-- The blanks in front of an item, set apart from it. -/
theorem lead_append (lead s gap t : Text) : lead ++ s ++ gap ++ t = lead ++ (s ++ gap ++ t) := by
  rw [List.append_assoc lead s gap, List.append_assoc lead]

/-- What is written begins with blanks, and behind these with another character or not at all; any
other blanks would do. -/
theorem Written.exists_lead {items : List Item} {t : Text} (h : Written items t) :
    ∃ lead rest, t = lead ++ rest ∧ IsBlanks lead ∧ (rest = [] ∨ BeginsSolid rest) ∧
      ∀ ws, IsBlanks ws → Written items (ws ++ rest) := by
  cases h with
  | nil hblanks =>
      refine ⟨t, [], (List.append_nil t).symm, hblanks, Or.inl rfl, fun ws hws => ?_⟩
      rw [List.append_nil]
      exact .nil hws
  | @style lead selector gap open' declarations close t rest hlead hselector hat hgap hopen
      hdeclarations hclose hrest =>
      refine ⟨lead, _, lead_append lead selector gap _, hlead,
        Or.inr ((hselector.beginsSolid.append gap).append _), fun ws hws => ?_⟩
      rw [← lead_append]
      exact .style hws hselector hat hgap hopen hdeclarations hclose hrest
  | @comment lead body t rest hlead hbody hrest =>
      refine ⟨lead, _, List.append_assoc lead (commentOf body) t, hlead,
        Or.inr ⟨'/', _, rfl, by decide⟩, fun ws hws => ?_⟩
      rw [← List.append_assoc]
      exact .comment hws hbody hrest
  | @statement lead prelude gap t rest hlead hprelude hgap hrest =>
      refine ⟨lead, _, lead_append lead prelude gap _, hlead,
        Or.inr ((hprelude.beginsSolid.append gap).append _), fun ws hws => ?_⟩
      rw [← lead_append]
      exact .statement hws hprelude hgap hrest
  | @group lead prelude gap body t items rest hlead hprelude hgrouping hgap hitems hrest =>
      refine ⟨lead, _, lead_append lead prelude gap _, hlead,
        Or.inr ((hprelude.beginsSolid.append gap).append _), fun ws hws => ?_⟩
      rw [← lead_append]
      exact .group hws hprelude hgrouping hgap hitems hrest

theorem Written.trimStart {items : List Item} {t : Text} (h : Written items t) :
    Written items (trimStart t) := by
  obtain ⟨lead, rest, heq, hlead, hrest, hother⟩ := h.exists_lead
  have htrim : Text.trimStart t = rest := by
    rw [heq, trimStart_blanks_append hlead.isBlank]
    rcases hrest with hnil | hsolid
    · rw [hnil]
      rfl
    · exact hsolid.trimStart_eq
  rw [htrim]
  exact hother [] .nil

theorem Written.lead {items : List Item} {ws t : Text} (hws : IsBlanks ws) (h : Written items t) :
    Written items (ws ++ t) := by
  obtain ⟨lead, rest, heq, hlead, -, hother⟩ := h.exists_lead
  rw [heq, ← List.append_assoc]
  refine hother (ws ++ lead) ?_
  exact List.forall_mem_append.mpr ⟨hws, hlead⟩

theorem Written.trimEnd {items : List Item} {t : Text} (h : Written items t) :
    Written items (trimEnd t) := by
  have hbrace : Text.isBlank '\x7d' = false := by decide
  induction h with
  | nil hblanks =>
      have htrim := trimEnd_append_blanks hblanks.isBlank []
      rw [List.nil_append] at htrim
      rw [htrim]
      exact .nil .nil
  | @style lead selector gap open' declarations close t rest hlead hselector hat hgap hopen
      hdeclarations hclose _ ih =>
      have hsplit : lead ++ selector ++ gap ++
          '\x7b' :: (open' ++ declarations ++ close ++ '\x7d' :: t) =
          (lead ++ selector ++ gap ++ '\x7b' :: (open' ++ declarations ++ close)) ++
            '\x7d' :: t := by
        simp
      rw [hsplit, trimEnd_append_cons _ hbrace]
      simpa using Written.style hlead hselector hat hgap hopen hdeclarations hclose ih
  | @comment lead body t rest hlead hbody _ ih =>
      have hsplit : lead ++ commentOf body ++ t =
          (lead ++ '/' :: '*' :: body ++ ['*']) ++ '/' :: t := by
        simp [commentOf]
      rw [hsplit, trimEnd_append_cons _ (by decide)]
      simpa [commentOf] using Written.comment hlead hbody ih
  | @statement lead prelude gap t rest hlead hprelude hgap _ ih =>
      rw [trimEnd_append_cons _ (by decide)]
      exact .statement hlead hprelude hgap ih
  | @group lead prelude gap body t items rest hlead hprelude hgrouping hgap hitems _ _ ih =>
      have hsplit : lead ++ prelude ++ gap ++ '\x7b' :: (body ++ '\x7d' :: t) =
          (lead ++ prelude ++ gap ++ '\x7b' :: body) ++ '\x7d' :: t := by
        simp
      rw [hsplit, trimEnd_append_cons _ hbrace]
      simpa using Written.group hlead hprelude hgrouping hgap hitems ih

end UtilityCss.Stylesheet
