import UtilityCss.Css.Escape
import UtilityCss.Css.Layout
import UtilityCss.Diagnostic
import UtilityCss.Generator.Config
import UtilityCss.Modifier.Sequence
import UtilityCss.Property.Known
import UtilityCss.Registry.Basic

/-!
# Interpreters

A class name without a definition goes to the interpreters, one after the other, until one of them
decides it. An interpreter may fail to come back with an answer, and then the program stops.
-/

namespace UtilityCss

open Text Css

structure Context where
  registry : Registry
  known : KnownProperties
  config : Config
  /-- Whether the class was declared on purpose and not merely found somewhere. -/
  isExplicit : Bool

namespace Context

/-- How severe a failure is. An unknown name may belong to another style system, so for a class
that nobody declared it is a warning, unless the settings say otherwise. -/
def level (context : Context) (category : Category) : Diagnostic.Level :=
  if category = .validation ∧ !context.isExplicit ∧
      context.config.unknownPolicy = .warnUnlessExplicit then .warning
  else .error

def diagnostic (context : Context) (className : Text) (category : Category) (message : Text)
    (suggestion : Option Text) : Diagnostic :=
  { level := context.level category, className, message, suggestion }

end Context

structure Interpretation where
  /-- The style sheet text of the class; an empty one decides the name without output, and none
  leaves it to the next interpreter. -/
  css : Option Text := none
  diagnostics : List Diagnostic := []

namespace Interpretation

def pass : Interpretation :=
  {}

def failed (d : Diagnostic) : Interpretation :=
  { diagnostics := [d] }

end Interpretation

/-- A way to give style sheet text to class names that have no definition. -/
structure Interpreter where
  name : Text
  /-- Whether a name has the form that this interpreter looks at. -/
  accepts : Text → Bool
  /-- What the interpreter says of a name; without an answer, the program stops. -/
  interpret : Context → Text → Option Interpretation

/-- The rule of a class under modifiers, in its media and ancestor blocks. -/
def styleRule (className : Text) (placement : Placement) (declarations : Text) : Text :=
  blocks placement.headers (block (classSelector className ++ placement.suffix) declarations)

end UtilityCss
