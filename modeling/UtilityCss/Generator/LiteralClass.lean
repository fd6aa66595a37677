import UtilityCss.ClassName.Literal
import UtilityCss.Generator.Interpreter

/-!
# The interpreter of literal classes

A name that ends in a registered class is left alone, and so is one whose property is the name of
a modifier: both may be registered classes under modifiers.
-/

namespace UtilityCss.Interpreter

open Text ClassName

/-- A name without blanks that has a colon between two other characters. -/
def hasLiteralForm (name : Text) : Bool :=
  name.all (!isBlank ·) && (name.drop 1).dropLast.contains ':'

/-- Whether the last segment of a name is a registered class. -/
def endsInRegistered (registry : Registry) (name : Text) : Bool :=
  ((segments? name).bind List.getLast?).any registry.contains

/-- Whether an error may come from a modifier in front of something that is no value. -/
def isModifierAsProperty : LiteralError → Bool
  | .unknownProperty property _ => (Modifier.ofName? property).isSome
  | _ => false

def interpretLiteral (context : Context) (name : Text) : Interpretation :=
  if !Literal.isPossible name || endsInRegistered context.registry name then .pass
  else
    match Literal.parse context.known name with
    | .error e =>
        if isModifierAsProperty e then .pass
        else .failed (context.diagnostic name e.category e.message e.suggestion)
    | .ok l =>
        { css := styleRule name l.modifiers.placement l.declaration,
          diagnostics := l.warnings.map fun w => .warning name w none }

def literalClass : Interpreter where
  name := "css-literal".toList
  accepts := hasLiteralForm
  interpret context name := some (interpretLiteral context name)

end UtilityCss.Interpreter
