import UtilityCss.Text.Bytes

/-!
# Style rules of a ruleset

A ruleset is hand-written style sheet text. What it is read for are its style rules, each with
its place in the text and the at-rules around it.
-/

namespace UtilityCss

open Text

structure Span where
  start : Nat
  stop : Nat
  deriving DecidableEq

/-- A selector with the declarations in its braces. -/
structure Rule where
  selector : Text
  declarations : Text
  /-- The place of the selector, trimmed. -/
  selectorSpan : Span
  /-- The place of all that stands between the braces. -/
  bodySpan : Span
  /-- The preludes of the at-rules around the rule, the outermost first. -/
  atRules : List Text
  deriving DecidableEq

namespace Rule

/-- The name of an at-rule in lower case, without the `@`. -/
def atRuleName (prelude : Text) : Text :=
  toLowerAscii ((prelude.dropWhile (· == '@')).takeWhile fun c =>
    !(isBlank c || c == '(' || c == '\x7b'))

def groupingAtRules : List Text :=
  ["media", "supports", "layer", "container", "scope", "keyframes", "-webkit-keyframes"].map
    String.toList

def isGrouping (prelude : Text) : Bool :=
  atRuleName prelude ∈ groupingAtRules

def isKeyframe (r : Rule) : Bool :=
  r.atRules.any fun prelude => (before? "keyframes".toList (atRuleName prelude)).isSome

end Rule

/-- The rules of a ruleset in source order, and the comments in front of the first one. -/
structure Ruleset where
  rules : List Rule
  leadingComments : List Text
  deriving DecidableEq

end UtilityCss
