import UtilityCss.Proofs.Ruleset.Scan

/-!
# Rules as the source shows them

Whatever the source is, its reading by positions comes to an end and asks for nothing that is not
there. The rules it finds are those of the sections of the source, so that each one stands between
its positions as the source shows it, and behind the one before it.
-/

namespace UtilityCss.Ruleset

open Text Css

variable {css tail : Text} {start stop : Nat} {ss : List Section} {r : Rule} {rs : List Rule}

structure ShownIn (css : Text) (r : Rule) : Prop where
  selector : slice? css r.selectorSpan.start r.selectorSpan.stop = some r.selector
  declarations : ∃ body, slice? css r.bodySpan.start r.bodySpan.stop = some body ∧
    r.declarations = trim body
  brace : ∃ n, r.selectorSpan.stop ≤ n ∧ byteAt? css n = some '\x7b' ∧ r.bodySpan.start = n + 1

theorem Section.Shows.shownIn {s : Section} {behind : Text} (h : s.Shows start r)
    (hs : Holds css start (s.text ++ behind) stop) : ShownIn css r := by
  have hselector : Holds css (start + size s.lead) s.selector
      (start + size s.lead + size s.selector) := by
    rw [Section.text, List.append_assoc, List.append_assoc] at hs
    exact hs.behind.front
  have hassoc : s.text ++ behind =
      (s.lead ++ s.selector ++ s.gap) ++ '\x7b' :: (s.body ++ (s.close ++ behind)) := by
    simp [Section.text, Section.block]
  rw [hassoc] at hs
  have hbrace := hs.behind
  refine ⟨?_, ⟨s.body, ?_, h.declarations_eq⟩, _, ?_, hbrace.byteAt?_ascii (by decide), ?_⟩
  · rw [h.selectorSpan_eq, h.selector_eq]
    exact hselector.slice?_eq
  · rw [h.bodySpan_eq]
    exact (hbrace.tail_ascii (by decide)).front.slice?_eq
  · rw [h.selectorSpan_eq, size_append, size_append]
    simp only
    omega
  · rw [h.bodySpan_eq]

theorem Laid.shownIn (h : Laid start ss tail rs) (hs : Holds css start (sheet ss tail) stop) :
    ∀ r ∈ rs, ShownIn css r := by
  induction h with
  | nil => exact fun r hr => absurd hr List.not_mem_nil
  | cons hrule _ _ ih =>
      rw [sheet_cons] at hs
      exact List.forall_mem_cons.mpr ⟨hrule.shownIn hs, ih hs.behind⟩

theorem Section.Shows.within {s : Section} (h : s.Shows start r) :
    start ≤ r.selectorSpan.start ∧ r.bodySpan.stop ≤ start + size s.text := by
  rw [h.selectorSpan_eq, h.bodySpan_eq]
  have hbrace : size (s.lead ++ s.selector ++ s.gap) + 1 + size s.body ≤ size s.text := by
    simp only [Section.text, Section.block, size_append, size_cons]
    have hone : '\x7b'.utf8Size = 1 := by decide
    omega
  exact ⟨Nat.le_add_right _ _, by simp only; omega⟩

theorem Laid.ordered (h : Laid start ss tail rs) :
    (∀ r ∈ rs, start ≤ r.selectorSpan.start) ∧
      rs.Pairwise fun r r' => r.bodySpan.stop ≤ r'.selectorSpan.start := by
  induction h with
  | nil => exact ⟨fun r hr => absurd hr List.not_mem_nil, .nil⟩
  | cons hrule _ _ ih =>
      obtain ⟨hstart, hstop⟩ := hrule.within
      refine ⟨List.forall_mem_cons.mpr ⟨hstart, fun r hr => ?_⟩, .cons (fun r hr => ?_) ih.2⟩
      · exact Nat.le_trans (Nat.le_add_right _ _) (ih.1 r hr)
      · exact Nat.le_trans hstop (ih.1 r hr)

/-- Every ruleset can be read by positions, the source shows the rules that are found, and each rule
begins behind the body of any rule before it. -/
theorem parse_faithful (css : Text) :
    scan? css = some (parse css) ∧ (∀ r ∈ (parse css).rules, ShownIn css r) ∧
      (parse css).rules.Pairwise fun r r' => r.bodySpan.stop ≤ r'.selectorSpan.start := by
  obtain ⟨sections, tail, heq, hlaid, -⟩ := shown_parse css
  have hsheet : Holds css 0 (sheet sections tail) (size css) := by
    rw [← heq]
    exact holds_self css
  exact ⟨scan?_eq_parse css, hlaid.shownIn hsheet, hlaid.ordered.2⟩

end UtilityCss.Ruleset
