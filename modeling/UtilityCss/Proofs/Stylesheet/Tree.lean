import UtilityCss.Proofs.Css.Lexeme
import UtilityCss.Ruleset.Rule

/-!
# Style sheets as trees

A style sheet is a list of items, some of which hold items themselves. `Printed items t` says that
`t` shows the items with any blanks between their parts; `styleRules` and `leadingComments` say what
there is to read in them.
-/

namespace UtilityCss.Stylesheet

open Text Css

inductive Item where
  | style (selector declarations : Text)
  /-- The text between the delimiters of a comment. -/
  | comment (body : Text)
  /-- An at-rule that ends in a semicolon. -/
  | statement (prelude : Text)
  | group (prelude : Text) (items : List Item)

/-- A style rule with the preludes of the at-rules around it, the outermost first. -/
structure StyleRule where
  selector : Text
  declarations : Text
  atRules : List Text
  deriving DecidableEq

mutual

def Item.styleRules (atRules : List Text) : Item → List StyleRule
  | .style selector declarations => [⟨selector, trim declarations, atRules⟩]
  | .comment _ => []
  | .statement _ => []
  | .group prelude items => styleRules (atRules ++ [prelude]) items

def styleRules (atRules : List Text) : List Item → List StyleRule
  | [] => []
  | item :: rest => item.styleRules atRules ++ styleRules atRules rest

end

def Item.comment? : Item → Option Text
  | .comment body => some (commentOf body)
  | _ => none

/-- The comments among the items themselves, up to the item that holds the first style rule. -/
def leadingComments (items : List Item) : List Text :=
  (items.takeWhile fun item => (item.styleRules []).isEmpty).filterMap Item.comment?

/-- A selector or a prelude: trimmed, its brackets balanced, without braces, semicolons, quotes,
backslashes and comments. -/
structure IsHeader (t : Text) : Prop where
  nonempty : t ≠ []
  trimmed : trim t = t
  bare : ∀ c ∈ t, isBare c = true ∧ c ≠ ';'
  uncommented : ¬ ['/', '*'] <:+: t
  balanced : bracketDepth? 0 t = some 0

inductive IsGroupingPrelude : Text → Prop where
  | intro {name rest : Text} (hname : toLowerAscii name ∈ Rule.groupingAtRules)
      (hrest : rest.head?.all (fun c => isBlank c || c == '(') = true) :
      IsGroupingPrelude ('@' :: (name ++ rest))

inductive IsDeclarations : Text → Prop where
  | nil : IsDeclarations []
  | char {c : Char} {t : Text} (hbare : isBare c = true) (hopen : c = '/' → t.head? ≠ some '*')
      (ht : IsDeclarations t) : IsDeclarations (c :: t)
  | string {quote : Char} {body t : Text} (hquote : isQuote quote = true)
      (hbody : StringBody quote body) (ht : IsDeclarations t) :
      IsDeclarations (quote :: (body ++ quote :: t))
  | comment {body t : Text} (hbody : ¬ ['*', '/'] <:+: body) (ht : IsDeclarations t) :
      IsDeclarations (commentOf body ++ t)

def IsBlanks (t : Text) : Prop :=
  ∀ c ∈ t, isAsciiBlank c = true

/-- The text shows the items one behind the other, with any blanks between their parts. -/
inductive Printed : List Item → Text → Prop where
  | nil {blanks : Text} (hblanks : IsBlanks blanks) : Printed [] blanks
  | style {lead selector gap open' declarations close t : Text} {rest : List Item}
      (hlead : IsBlanks lead) (hselector : IsHeader selector) (hat : selector.head? ≠ some '@')
      (hgap : IsBlanks gap) (hopen : IsBlanks open') (hdeclarations : IsDeclarations declarations)
      (hclose : IsBlanks close) (hrest : Printed rest t) :
      Printed (.style selector declarations :: rest)
        (lead ++ selector ++ gap ++ '\x7b' :: (open' ++ declarations ++ close ++ '\x7d' :: t))
  | comment {lead body t : Text} {rest : List Item} (hlead : IsBlanks lead)
      (hbody : ¬ ['*', '/'] <:+: body) (hrest : Printed rest t) :
      Printed (.comment body :: rest) (lead ++ commentOf body ++ t)
  | statement {lead prelude gap t : Text} {rest : List Item} (hlead : IsBlanks lead)
      (hprelude : IsHeader prelude) (hgap : IsBlanks gap) (hrest : Printed rest t) :
      Printed (.statement prelude :: rest) (lead ++ prelude ++ gap ++ ';' :: t)
  | group {lead prelude gap body t : Text} {items rest : List Item} (hlead : IsBlanks lead)
      (hprelude : IsHeader prelude) (hgrouping : IsGroupingPrelude prelude) (hgap : IsBlanks gap)
      (hitems : Printed items body) (hrest : Printed rest t) :
      Printed (.group prelude items :: rest)
        (lead ++ prelude ++ gap ++ '\x7b' :: (body ++ '\x7d' :: t))

end UtilityCss.Stylesheet
