import UtilityCss.ClassName.Literal
import UtilityCss.Generator.Interpreter
import UtilityCss.Registry.Composition
import UtilityCss.Ruleset.Check
import UtilityCss.Ruleset.Modify

/-!
# The interpreter of modified classes

A registered class may be used under modifiers: `hover:card` styles the class `card` while the
pointer is over it. A class of declarations gets a rule of its own, a ruleset is changed
throughout, and an answer is missing where the edits of a ruleset do not fit.
-/

namespace UtilityCss.Interpreter

open Text Css ClassName

/-- A name without blanks whose colons have other characters around them. -/
def hasModifiedForm (name : Text) : Bool :=
  let parts := splitAtChar ':' name
  name.all (!isBlank ·) && parts.length ≥ 2 && parts.all (!·.isEmpty)

/-- The modifiers that prefixes name. -/
def readPrefixes : List Text → Except LiteralError (List Modifier)
  | [] => .ok []
  | name :: rest =>
      match Modifier.ofName? name with
      | none => .error (Modifier.unknown name)
      | some m =>
          match readPrefixes rest with
          | .error e => .error e
          | .ok ms => .ok (m :: ms)

/-- What the prefixes of a name put around and behind the selector. -/
def readPlacement (names : List Text) : Except LiteralError Placement :=
  match readPrefixes names with
  | .error e => .error e
  | .ok ms =>
      match ModifierSet.ofList ms with
      | .error e => .error (.sequence e)
      | .ok s => .ok s.placement

def skippedKind : Selector.SkipReason → Text
  | .stateConflict => "state".toList
  | .pseudoElementConflict => "pseudo-element".toList

def skippedWarning (name : Text) (s : Selector.Skipped) : Diagnostic :=
  .warning name
    ("Skipped ".toList ++ skippedKind s.reason ++ ' ' :: quoted s.modifier ++
      " for selector ".toList ++ quoted s.selector ++ " because it is already present (".toList ++
      s.reason.label ++ [')'])
    none

def modifiedRuleset (name base : Text) (placement : Placement) (css : Text) :
    Option Interpretation :=
  match Ruleset.check base css with
  | .error problem => some (.failed (.error name problem.message problem.suggestion))
  | .ok _ =>
      (Ruleset.modify base (escape name) placement css).map fun modified =>
        { css := some modified.css, diagnostics := modified.skipped.map (skippedWarning name) }

def modifiedDeclarations (context : Context) (name base : Text) (placement : Placement) :
    Interpretation :=
  match context.registry.flatten base with
  | .error e => .failed (context.diagnostic name .structural e.message e.suggestion)
  | .ok css =>
      if css.isEmpty then { css := some [] } else { css := some (styleRule name placement css) }

def interpretModified (context : Context) (name : Text) : Option Interpretation :=
  match segments? name with
  | none => some .pass
  | some segments =>
      let names := segments.dropLast
      let base := segments.getLast?.getD []
      if names.isEmpty then some .pass
      else
        match context.registry.get? base with
        | none => some .pass
        | some d =>
            match readPlacement names with
            | .error e => some (.failed (context.diagnostic name e.category e.message e.suggestion))
            | .ok placement =>
                match d.body with
                | .ruleset css => modifiedRuleset name base placement css
                | _ => some (modifiedDeclarations context name base placement)

def modifiedClass : Interpreter where
  name := "modified-class".toList
  accepts := hasModifiedForm
  interpret := interpretModified

end UtilityCss.Interpreter
