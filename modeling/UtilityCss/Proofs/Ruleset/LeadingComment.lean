import UtilityCss.Css.Layout
import UtilityCss.Proofs.Ruleset.Contained

/-!
# Comments in front of a style sheet

A written comment ends where its text ends, whatever the text is: every terminator in the text is
taken apart, and the blanks at the two ends keep its edges from the delimiters.
-/

namespace UtilityCss

open Text

namespace Css

theorem head?_disarm (t : Text) : (disarm t).head? = t.head? := by
  fun_cases disarm t <;> rfl

theorem not_terminator_infix_disarm (t : Text) : ¬ ['*', '/'] <:+: disarm t := by
  fun_induction disarm t with
  | case1 t ih => simpa [List.infix_cons_iff] using ih
  | case2 c t hterminator ih =>
      rw [List.infix_cons_iff, not_or]
      refine ⟨fun hhere => ?_, ih⟩
      obtain ⟨rfl, hslash⟩ := List.cons_prefix_cons.mp hhere
      obtain ⟨rest, hrest⟩ := hslash
      have hhead : t.head? = some '/' := by
        rw [← head?_disarm, ← hrest]
        rfl
      obtain ⟨rest', rfl⟩ := List.head?_eq_some_iff.mp hhead
      exact hterminator rest' rfl rfl
  | case3 => simp

theorem terminator_infix_of_append {t : Text} {x : Char} (hx : x ≠ '/')
    (h : ['*', '/'] <:+: t ++ [x]) : ['*', '/'] <:+: t := by
  refine (List.infix_concat_iff.mp h).resolve_left ?_
  rintro ⟨front, hfront⟩
  have hlast := congrArg List.getLast? hfront
  rw [List.getLast?_append, List.getLast?_concat] at hlast
  exact hx (Option.some.inj hlast).symm

/-- A text without terminator gets none by blanks around it. -/
theorem not_terminator_infix_padded {t : Text} (h : ¬ ['*', '/'] <:+: t) :
    ¬ ['*', '/'] <:+: ' ' :: t ++ [' '] := by
  intro hin
  have hfront := terminator_infix_of_append (by decide) hin
  rw [List.infix_cons_iff] at hfront
  exact h (hfront.resolve_left (by simp))

theorem comment_eq_commentOf (c : Text) : comment c = commentOf (' ' :: disarm (trim c) ++ [' ']) := by
  simp [comment, commentOf]

theorem not_terminator_infix_body (c : Text) :
    ¬ ['*', '/'] <:+: ' ' :: disarm (trim c) ++ [' '] :=
  not_terminator_infix_padded (not_terminator_infix_disarm (trim c))

/-- The first terminator of a comment is its last two characters. -/
theorem eq_nil_of_comment_eq {c front behind : Text}
    (h : comment c = front ++ ['*', '/'] ++ behind) : behind = [] := by
  rcases List.eq_nil_or_concat behind with hnil | ⟨behind, x, rfl⟩
  · exact hnil
  have hsplit : '/' :: '*' :: (' ' :: disarm (trim c) ++ [' ']) ++ ['*'] ++ ['/'] =
      front ++ ['*', '/'] ++ behind ++ [x] := by
    simpa [comment] using h
  obtain ⟨hinner, -⟩ := List.append_inj' hsplit rfl
  have hin : ['*', '/'] <:+: '/' :: '*' :: (' ' :: disarm (trim c) ++ [' ']) :=
    terminator_infix_of_append (by decide) ⟨front, behind, hinner.symm⟩
  refine absurd hin ?_
  simpa [List.infix_cons_iff] using not_terminator_infix_body c

end Css

namespace Ruleset

open Css

theorem entries_commentLine (c t : Text) :
    entries [] 0 (lexemes (comment c ++ '\n' :: t)) =
      .comment (comment c) ::
        (entries [] 0 (lexemes t)).map (Entry.shift (size (comment c) + 1)) := by
  have hblank : ∀ x ∈ ['\n'], isAsciiBlank x = true := List.all_eq_true.mp rfl
  have hbreak : lexemes ('\n' :: t) = ['\n'].map .symbol ++ lexemes t :=
    lexemes_blanks_append hblank t
  have hstart : 0 + size (comment c) + size ['\n'] = size (comment c) + 1 + 0 := by
    rw [show size ['\n'] = 1 from rfl]
    omega
  rw [comment_eq_commentOf, lexemes_comment (not_terminator_infix_body c), ← comment_eq_commentOf,
    entries_comment, hbreak, entries_blanks hblank, hstart, entries_shift]
  rfl

theorem comments_shift (n : Nat) (es : List Entry) :
    ((es.map (Entry.shift n)).takeWhile (·.rule?.isNone)).filterMap Entry.comment? =
      (es.takeWhile (·.rule?.isNone)).filterMap Entry.comment? := by
  induction es with
  | nil => rfl
  | cons e es ih =>
      cases e with
      | rule r => rfl
      | comment t => exact congrArg (t :: ·) ih

/-- A comment line in front of a style sheet is read as a comment in front of it, and changes nothing
but the places of the rules, whatever the two texts are. It has one terminator, at its end. -/
theorem parse_commentLine (c t : Text) :
    (parse (comment c ++ '\n' :: t)).rules =
        (parse t).rules.map (Rule.shift (size (comment c) + 1)) ∧
      (parse (comment c ++ '\n' :: t)).leadingComments = comment c :: (parse t).leadingComments ∧
      (∃ front, comment c = front ++ ['*', '/']) ∧
      ∀ front behind, comment c = front ++ ['*', '/'] ++ behind → behind = [] := by
  have hrules : (entries [] 0 (lexemes (comment c ++ '\n' :: t))).filterMap Entry.rule? =
      (parse t).rules.map (Rule.shift (size (comment c) + 1)) := by
    rw [entries_commentLine]
    exact (congrArg (List.filterMap Entry.rule?) (entries_shift _ 0 [] _).symm).trans
      (rulesFrom_shift _)
  have hcomments :
      ((entries [] 0 (lexemes (comment c ++ '\n' :: t))).takeWhile (·.rule?.isNone)).filterMap
        Entry.comment? = comment c :: (parse t).leadingComments := by
    rw [entries_commentLine]
    exact congrArg (comment c :: ·) (comments_shift _ _)
  exact ⟨hrules, hcomments, ⟨['/', '*', ' '] ++ disarm (trim c) ++ [' '], by simp [comment]⟩,
    fun _ _ h => eq_nil_of_comment_eq h⟩

end Ruleset

end UtilityCss
