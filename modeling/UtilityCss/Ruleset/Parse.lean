import UtilityCss.Css.Lexeme
import UtilityCss.Ruleset.Rule

/-!
# Reading a ruleset

A ruleset is read in one pass over its lexemes. What stands in front of an opening brace is a
prelude, what stands up to the matching brace a body. The body of a grouping at-rule is read in
turn; that of any other at-rule is skipped, and so are statements that end in a semicolon, braces
that close nothing, and a prelude without a body. Text that ends early closes all that is open.
-/

namespace UtilityCss.Ruleset

open Text Css

/-- Cuts the lexemes in front of the first brace or semicolon outside brackets, `depth` of which
are open. -/
def splitPrelude (depth : Nat) : List Lexeme → List Lexeme × List Lexeme
  | [] => ([], [])
  | .symbol c :: rest =>
      if depth = 0 ∧ (c = '\x7b' ∨ c = ';' ∨ c = '\x7d') then ([], .symbol c :: rest)
      else
        let deeper :=
          if c = '(' ∨ c = '[' then depth + 1 else if c = ')' ∨ c = ']' then depth - 1 else depth
        let (prelude, left) := splitPrelude deeper rest
        (.symbol c :: prelude, left)
  | l :: rest =>
      let (prelude, left) := splitPrelude depth rest
      (l :: prelude, left)

/-- Cuts the lexemes in front of the brace that closes a body in which `depth` braces are open. -/
def splitBody (depth : Nat) : List Lexeme → List Lexeme × List Lexeme
  | [] => ([], [])
  | .symbol c :: rest =>
      if depth = 0 ∧ c = '\x7d' then ([], .symbol c :: rest)
      else
        let deeper := if c = '\x7b' then depth + 1 else if c = '\x7d' then depth - 1 else depth
        let (body, left) := splitBody deeper rest
        (.symbol c :: body, left)
  | l :: rest =>
      let (body, left) := splitBody depth rest
      (l :: body, left)

theorem splitPrelude_append (depth : Nat) (ls : List Lexeme) :
    (splitPrelude depth ls).1 ++ (splitPrelude depth ls).2 = ls := by
  fun_induction splitPrelude depth ls with
  | case1 => rfl
  | case2 => rfl
  | case3 depth c rest _ deeper prelude left hsplit ih => simpa [hsplit] using ih
  | case4 depth l rest _ prelude left hsplit ih => simpa [hsplit] using ih

theorem splitBody_append (depth : Nat) (ls : List Lexeme) :
    (splitBody depth ls).1 ++ (splitBody depth ls).2 = ls := by
  fun_induction splitBody depth ls with
  | case1 => rfl
  | case2 => rfl
  | case3 depth c rest _ deeper body left hsplit ih => simpa [hsplit] using ih
  | case4 depth l rest _ body left hsplit ih => simpa [hsplit] using ih

/-- What a ruleset is read for: a comment outside all at-rules, or a style rule. -/
inductive Entry where
  | comment (text : Text)
  | rule (rule : Rule)
  deriving DecidableEq

def Entry.rule? : Entry → Option Rule
  | .rule r => some r
  | .comment _ => none

def Entry.comment? : Entry → Option Text
  | .comment t => some t
  | .rule _ => none

/-- The rule with the given prelude and body, its prelude starting at byte `start`. -/
def ruleAt (atRules : List Text) (start : Nat) (prelude body : Text) : Rule :=
  let selector := trimEnd prelude
  let bodyStart := start + size prelude + 1
  { selector, declarations := trim body, selectorSpan := ⟨start, start + size selector⟩,
    bodySpan := ⟨bodyStart, bodyStart + size body⟩, atRules }

/-- A blank, or a brace that closes nothing. -/
def isFiller : Lexeme → Bool
  | .symbol c => isAsciiBlank c || c == '\x7d'
  | _ => false

/-- The entries of lexemes that start at byte `start` inside the given at-rules. -/
def entries (atRules : List Text) (start : Nat) (ls : List Lexeme) : List Entry :=
  match ls with
  | [] => []
  | .comment t :: rest =>
      let here := if atRules.isEmpty then [.comment t] else []
      here ++ entries atRules (start + size t) rest
  | l :: rest =>
      if isFiller l then entries atRules (start + size l.text) rest
      else
        match _h : splitPrelude 0 (l :: rest) with
        | (_, []) => []
        | (head, stop :: left) =>
            let prelude := textOf head
            let bodyStart := start + size prelude + 1
            if stop = .symbol '\x7b' then
              match _hb : splitBody 0 left with
              | (body, ending) =>
                  let here :=
                    if prelude.head? = some '@' then
                      let atRule := trimEnd prelude
                      if Rule.isGrouping atRule then entries (atRules ++ [atRule]) bodyStart body
                      else []
                    else [.rule (ruleAt atRules start prelude (textOf body))]
                  here ++ entries atRules (bodyStart + size (textOf body) + 1) (ending.drop 1)
            else entries atRules bodyStart left
termination_by ls.length
decreasing_by
  · simp
  · simp
  all_goals
    have hhead := congrArg List.length (splitPrelude_append 0 (l :: rest))
    simp only [_h, List.length_append, List.length_cons] at hhead
    simp only [List.length_cons, List.length_drop]
  · have hbody := congrArg List.length (splitBody_append 0 left)
    simp only [_hb, List.length_append] at hbody
    omega
  · have hbody := congrArg List.length (splitBody_append 0 left)
    simp only [_hb, List.length_append] at hbody
    omega
  · omega

def parse (css : Text) : Ruleset :=
  let found := entries [] 0 (lexemes css)
  { rules := found.filterMap Entry.rule?,
    leadingComments := (found.takeWhile (·.rule?.isNone)).filterMap Entry.comment? }

end UtilityCss.Ruleset
