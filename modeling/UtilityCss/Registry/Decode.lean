import UtilityCss.Json.Decode
import UtilityCss.Registry.Basic

/-!
# Reading a registry

A registry is a JSON object from class names to definitions, in the order of the text. The whole
text is decoded first; then the classes are checked one by one.
-/

namespace UtilityCss

open Text Json

namespace Definition

/-- A definition as a file writes it. -/
structure Source where
  declaration : Option Text
  composes : Option (List Text)
  ruleset : Option Text
  comment : Option Text

def format : RecordFormat where
  names := ["declaration", "composes", "ruleset", "comment"].map String.toList
  required := 4
  isOpen := false

def Source.ofJson? (j : Json) : Option Source := do
  let record ← record? format j
  let declaration ← record.optional? "declaration".toList text?
  let composes ← record.optional? "composes".toList (list? text?)
  let ruleset ← record.optional? "ruleset".toList text?
  let comment ← record.optional? "comment".toList text?
  return { declaration, composes, ruleset, comment }

end Definition

namespace Registry

inductive ReadError where
  | malformed
  | duplicate (name : Text)
  | emptyDefinition (name : Text)
  | rulesetCombined (name : Text)
  deriving DecidableEq

def ReadError.message : ReadError → Text
  | malformed => "Invalid class registry".toList
  | duplicate name => "Class ".toList ++ quoted name ++ " is defined more than once".toList
  | emptyDefinition name =>
      "Class ".toList ++ quoted name ++
        " must define 'declaration', 'composes' or 'ruleset'".toList
  | rulesetCombined name =>
      "Class ".toList ++ quoted name ++
        " combines 'ruleset' with 'composes' or 'declaration'".toList

/-- The definition that a source writes for a class; a ruleset stands alone. -/
def definitionOf (name : Text) (s : Definition.Source) : Except ReadError Definition :=
  match s.ruleset, s.composes, s.declaration with
  | some css, none, none => .ok ⟨.ruleset css, s.comment⟩
  | some _, _, _ => .error (.rulesetCombined name)
  | none, some references, some css => .ok ⟨.composesAndDeclaration references css, s.comment⟩
  | none, some references, none => .ok ⟨.composes references, s.comment⟩
  | none, none, some css => .ok ⟨.declaration css, s.comment⟩
  | none, none, none => .error (.emptyDefinition name)

def sources? : Json → Option (List (Text × Definition.Source))
  | object fields => fields.mapM fun (name, j) => do return (← name, ← Definition.Source.ofJson? j)
  | _ => none

/-- Registers classes one by one; a name must be new. -/
def addSources (r : Registry) :
    List (Text × Definition.Source) → Except ReadError Registry
  | [] => .ok r
  | (name, source) :: rest =>
      if r.contains name then .error (.duplicate name)
      else
        match definitionOf name source with
        | .error e => .error e
        | .ok d => (r.insert name d).addSources rest

def read (t : Text) : Except ReadError Registry :=
  match (Json.parse? t).bind sources? with
  | none => .error .malformed
  | some sources => addSources .empty sources

end Registry

end UtilityCss
