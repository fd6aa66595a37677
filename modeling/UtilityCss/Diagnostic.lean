import UtilityCss.Text.Basic

/-!
# Diagnostics

What the generator tells its user about one class name.
-/

namespace UtilityCss

open Text

/-- Broad kinds of failure, which decide how severe a diagnostic is. -/
inductive Category where
  | parse
  | validation
  /-- A broken reference, a cycle, an empty or mismatched ruleset. -/
  | structural
  deriving DecidableEq, Repr

structure Location where
  file : Text
  line : Nat
  column : Nat
  deriving DecidableEq

namespace Location

def render (l : Location) : Text :=
  l.file ++ ':' :: Nat.toDigits 10 l.line ++ ':' :: Nat.toDigits 10 l.column

end Location

namespace Diagnostic

inductive Level where
  | error
  | warning
  deriving DecidableEq, Repr

inductive Phase where
  | extraction
  | generation
  deriving DecidableEq, Repr

def Level.label : Level → Text
  | .error => "error".toList
  | .warning => "warning".toList

def Phase.label : Phase → Text
  | .extraction => "extraction".toList
  | .generation => "generation".toList

end Diagnostic

/-- One finding about a class name, with the places of that name where they are known. -/
structure Diagnostic where
  level : Diagnostic.Level
  phase : Diagnostic.Phase := .generation
  message : Text
  suggestion : Option Text := none
  className : Text
  locations : Option (List Location) := none
  deriving DecidableEq

namespace Diagnostic

def error (className message : Text) (suggestion : Option Text) : Diagnostic :=
  { level := .error, className, message, suggestion }

def warning (className message : Text) (suggestion : Option Text) : Diagnostic :=
  { level := .warning, className, message, suggestion }

def isError (d : Diagnostic) : Bool :=
  d.level == .error

/-- Level, class name and message on one line, then a line for each location. -/
def render (d : Diagnostic) : Text :=
  d.level.label ++ ": [".toList ++ d.className ++ "] ".toList ++ d.message ++
    (match d.suggestion with
      | some s => " (".toList ++ s ++ [')']
      | none => []) ++
    ((d.locations.getD []).flatMap fun l => "\n  at ".toList ++ l.render)

end Diagnostic

end UtilityCss
