import UtilityCss.Proofs.Ruleset.Sections

/-!
# Rules at other places

Where the text of a ruleset starts moves its rules, and nothing else. And a rule stands behind the
preludes of all the at-rules around it.
-/

namespace UtilityCss

open Text Css

def Span.shift (n : Nat) (s : Span) : Span :=
  ⟨n + s.start, n + s.stop⟩

def Rule.shift (n : Nat) (r : Rule) : Rule :=
  { r with selectorSpan := r.selectorSpan.shift n, bodySpan := r.bodySpan.shift n }

namespace Ruleset

def Entry.shift (n : Nat) : Entry → Entry
  | .comment t => .comment t
  | .rule r => .rule (r.shift n)

theorem ruleAt_shift (n start : Nat) (atRules : List Text) (prelude body : Text) :
    ruleAt atRules (n + start) prelude body = (ruleAt atRules start prelude body).shift n := by
  simp only [ruleAt, Rule.shift, Span.shift, Nat.add_assoc]

theorem entries_shift (n start : Nat) (atRules : List Text) (ls : List Lexeme) :
    entries atRules (n + start) ls = (entries atRules start ls).map (Entry.shift n) := by
  fun_induction entries atRules start ls with
  | case1 => exact entries_nil
  | case2 atRules start t rest here ih =>
      have hhere : here.map (Entry.shift n) = here := by
        simp only [here]
        split <;> rfl
      rw [entries_comment, List.map_append, hhere, Nat.add_assoc, ih]
      rfl
  | case3 atRules start l rest hl hfiller ih =>
      rw [entries_filler hfiller, Nat.add_assoc, ih]
  | case4 atRules start l rest hl hfiller head hsplit =>
      exact entries_unfinished hl (by simpa using hfiller) hsplit
  | case5 atRules start l rest hl hfiller head left prelude bodyStart body ending hbody here
      hsplit ihbody ih =>
      have hstart : n + start + size (textOf head) + 1 = n + bodyStart := by
        simp only [bodyStart, prelude]
        omega
      rw [entries_cons hl (by simpa using hfiller) hsplit]
      simp only [if_true, hbody, hstart, List.map_append]
      congr 1
      · simp only [here]
        by_cases hat : prelude.head? = some '@'
        · rw [if_pos hat, dif_pos hat]
          by_cases hgrouping : Rule.isGrouping (trimEnd prelude) = true
          · rw [if_pos hgrouping, dif_pos hgrouping]
            exact ihbody
          · rw [if_neg hgrouping, dif_neg hgrouping, List.map_nil]
        · rw [if_neg hat, dif_neg hat, ruleAt_shift]
          rfl
      · rw [← ih]
        congr 1
        omega
  | case6 atRules start l rest hl hfiller head stop left hsplit prelude bodyStart hstop ih =>
      have hstart : n + start + size (textOf head) + 1 = n + bodyStart := by
        simp only [bodyStart, prelude]
        omega
      rw [entries_cons hl (by simpa using hfiller) hsplit]
      simp only [if_neg hstop, hstart, ih]

theorem size_trimEnd_le (t : Text) : size (trimEnd t) ≤ size t := by
  obtain ⟨blanks, heq, -⟩ := exists_trimEnd_append t
  have hsize := congrArg size heq
  rw [size_append] at hsize
  omega

/-- A rule that is read from some place on stands behind it and behind the preludes that are read
around it. -/
theorem exists_atRules_of_mem {start : Nat} {atRules : List Text} {ls : List Lexeme} {r : Rule}
    (h : .rule r ∈ entries atRules start ls) :
    ∃ inner, r.atRules = atRules ++ inner ∧ start + size inner.flatten ≤ r.selectorSpan.start := by
  fun_induction entries atRules start ls with
  | case1 => exact absurd h List.not_mem_nil
  | case2 atRules start t rest here ih =>
      have hhere : .rule r ∉ here := by
        simp only [here]
        split <;> simp
      obtain ⟨inner, hrules, hstart⟩ := ih ((List.mem_append.mp h).resolve_left hhere)
      exact ⟨inner, hrules, by omega⟩
  | case3 atRules start l rest hl hfiller ih =>
      obtain ⟨inner, hrules, hstart⟩ := ih h
      exact ⟨inner, hrules, by omega⟩
  | case4 => exact absurd h List.not_mem_nil
  | case5 atRules start l rest hl hfiller head left prelude bodyStart body ending hbody here
      hsplit ihbody ih =>
      rcases List.mem_append.mp h with hmem | hmem
      · simp only [here] at hmem
        split at hmem
        next hat =>
          split at hmem
          next hgrouping =>
            obtain ⟨inner, hrules, hstart⟩ := ihbody hmem
            refine ⟨trimEnd prelude :: inner, by rw [hrules, List.append_assoc]; rfl, ?_⟩
            have hle := size_trimEnd_le prelude
            rw [List.flatten_cons, size_append]
            omega
          next => exact absurd hmem List.not_mem_nil
        next hat =>
          obtain rfl := Entry.rule.inj (List.mem_singleton.mp hmem)
          exact ⟨[], (List.append_nil _).symm, Nat.le_refl _⟩
      · obtain ⟨inner, hrules, hstart⟩ := ih hmem
        exact ⟨inner, hrules, by omega⟩
  | case6 atRules start l rest hl hfiller head stop left hsplit prelude bodyStart hstop ih =>
      obtain ⟨inner, hrules, hstart⟩ := ih h
      exact ⟨inner, hrules, by omega⟩

end Ruleset

end UtilityCss
