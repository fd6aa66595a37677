import UtilityCss.Diagnostic
import UtilityCss.Ruleset.Parse
import UtilityCss.Selector.Compound
import UtilityCss.Css.Escape

/-!
# Checks on rulesets

A ruleset registered for a class must not be blank and must select the class somewhere. One that
does nothing else than select it could be a plain declaration.
-/

namespace UtilityCss.Ruleset

open Text Css Selector

def mentions (ruleset : Ruleset) (className : Text) : Bool :=
  ruleset.rules.any fun r => hasClassToken (escape className) r.selector

/-- The one rule of a ruleset that has no other, if it selects the class and nothing else. -/
def onlyRule? (ruleset : Ruleset) (className : Text) : Option Rule :=
  match ruleset.rules with
  | [r] => if r.atRules.isEmpty ∧ r.selector = classSelector className then some r else none
  | _ => none

inductive Problem where
  | blank (className : Text)
  | unmentioned (className : Text)
  deriving DecidableEq

namespace Problem

def message : Problem → Text
  | blank className => "Ruleset for ".toList ++ quoted className ++ " is empty".toList
  | unmentioned className =>
      "Ruleset does not contain a ".toList ++ quoted (classSelector className) ++
        " selector".toList

def suggestion : Problem → Option Text
  | blank _ => none
  | unmentioned className =>
      some ("Add a rule whose selector includes ".toList ++ quoted (classSelector className))

end Problem

/-- Reads the ruleset of a class, unless it is of no use for the class. -/
def check (className css : Text) : Except Problem Ruleset :=
  let source := trim css
  if source.isEmpty then .error (.blank className)
  else
    let ruleset := parse source
    if ruleset.mentions className then .ok ruleset else .error (.unmentioned className)

/-- The declarations of a rule with the comments in front of it. -/
def asDeclaration (ruleset : Ruleset) (r : Rule) : Text :=
  let comments := join ['\n'] ruleset.leadingComments
  (if comments.isEmpty then [] else comments ++ ['\n']) ++ r.declarations

def simplification? (ruleset : Ruleset) (className : Text) : Option Diagnostic :=
  (ruleset.onlyRule? className).map fun r =>
    .warning className
      ("Ruleset only styles ".toList ++ quoted (classSelector className) ++
        "; use a declaration instead".toList)
      (some ("declaration: \"".toList ++ ruleset.asDeclaration r ++ ['\x22']))

end UtilityCss.Ruleset
