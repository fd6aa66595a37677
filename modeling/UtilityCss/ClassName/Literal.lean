import UtilityCss.ClassName.Calc
import UtilityCss.ClassName.Segment
import UtilityCss.ClassName.Value
import UtilityCss.Diagnostic
import UtilityCss.Modifier.Sequence
import UtilityCss.Modifier.Table
import UtilityCss.Property.Known

/-!
# Literal classes

A literal class spells out a declaration: `md:hover:color:red` sets `color` to `red` under two
modifiers. The segments in front that name modifiers are the modifiers, the first other segment
is the property, and the rest is the value, whose own colons stay. An `!important` at the very end
belongs to the declaration.
-/

namespace UtilityCss

open Text ClassName

/-- Why a class name is not a literal class, or not a correct one. -/
inductive LiteralError where
  | notALiteral (name : Text)
  | unbalanced (name : Text)
  | missingValue (property : Text)
  | sequence (cause : SequenceError)
  | unknownModifier (name : Text) (closest : Option Text)
  | unknownProperty (property : Text) (closest : Option Text)
  deriving DecidableEq

namespace LiteralError

def message : LiteralError → Text
  | notALiteral name => quoted name ++ " is not a property:value literal".toList
  | unbalanced name => "Unbalanced parentheses, brackets or quotes in ".toList ++ quoted name
  | missingValue property => "Missing value for property ".toList ++ quoted property
  | sequence cause => cause.message
  | unknownModifier name _ => "Unknown modifier ".toList ++ quoted name
  | unknownProperty property _ => "Unknown CSS property ".toList ++ quoted property

def suggestion : LiteralError → Option Text
  | sequence cause => cause.suggestion
  | unknownModifier _ closest => closest.map didYouMean
  | unknownProperty _ closest => closest.map didYouMean
  | _ => none

def category : LiteralError → Category
  | unknownModifier .. => .validation
  | unknownProperty .. => .validation
  | _ => .parse

end LiteralError

/-- The error for a prefix that names no modifier. -/
def Modifier.unknown (name : Text) : LiteralError :=
  .unknownModifier name (closest name Modifier.knownNames)

structure Literal where
  modifiers : ModifierSet
  property : Text
  value : Text
  warnings : List Text
  deriving DecidableEq

namespace Literal

def declaration (l : Literal) : Text :=
  l.property ++ ": ".toList ++ l.value ++ [';']

/-- A class name without an `!important` at its end, and whether there was one. -/
def splitImportant (name : Text) : Text × Bool :=
  match before? important name with
  | some body => (body, true)
  | none => (name, false)

def isWordChar (c : Char) : Bool :=
  c.isLower || c.isDigit

/-- The shape of a token class such as `p_md`: words joined by underscores, the first of them
starting with a letter. -/
def isTokenShaped (segment : Text) : Bool :=
  match splitAtChar '_' segment with
  | [] => false
  | first :: rest =>
      first.head?.any Char.isLower && first.all isWordChar && !rest.isEmpty &&
        rest.all fun word => !word.isEmpty && word.all isWordChar

/-- Whether a class name is worth reading as a literal class. -/
def isPossible (name : Text) : Bool :=
  let body := (splitImportant name).1
  match segments? body with
  | some segments => segments.length ≥ 2 && !(segments.getLast?.any isTokenShaped)
  | none => body.contains ':'

/-- The modifiers at the front, and the other segments. A property and a value must remain, so
the last two segments are never modifiers. -/
def readModifiers : List Text → List Modifier × List Text
  | name :: property :: value :: rest =>
      match Modifier.ofName? name with
      | some m =>
          let (ms, left) := readModifiers (property :: value :: rest)
          (m :: ms, left)
      | none => ([], name :: property :: value :: rest)
  | segments => ([], segments)

def ambiguousCalcWarning (name : Text) : Text :=
  "Ambiguous calc() in ".toList ++ quoted name ++
    ": '+' and '-' need surrounding spaces (write '~' for a space)".toList

/-- A property that is not known; with more than a value behind it, it was meant as a modifier. -/
def unknownHead (known : KnownProperties) (property : Text) (values : List Text) : LiteralError :=
  if values.length ≥ 2 then Modifier.unknown property
  else .unknownProperty property (known.suggest property)

def parse (known : KnownProperties) (name : Text) : Except LiteralError Literal :=
  let (body, isImportant) := splitImportant name
  match segments? body with
  | none => .error (.unbalanced body)
  | some segments =>
      match readModifiers segments with
      | (ms, property :: value :: values) =>
          if !known.knows property then .error (unknownHead known property (value :: values))
          else
            match ModifierSet.ofList ms with
            | .error cause => .error (.sequence cause)
            | .ok modifiers =>
                let text := formatValue (joinSegments (value :: values)) isImportant
                if text.isEmpty || text = important then .error (.missingValue property)
                else
                  let warnings := if hasAmbiguousCalc text then [ambiguousCalcWarning name] else []
                  .ok { modifiers, property, value := text, warnings }
      | _ => .error (.notALiteral name)

end Literal

end UtilityCss
