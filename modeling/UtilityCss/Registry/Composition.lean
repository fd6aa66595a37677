import UtilityCss.Diagnostic
import UtilityCss.Name.Path
import UtilityCss.Registry.Basic
import UtilityCss.Text.Closest

/-!
# Composed classes

A class composes others by name. To flatten it means to write down the declarations of all classes
that it reaches, each class once, behind those that it composes itself.
-/

namespace UtilityCss

open Text

namespace Definition

/-- The classes that a definition composes. -/
def references (d : Definition) : List Text :=
  match d.body with
  | .composes references => references
  | .composesAndDeclaration references _ => references
  | _ => []

/-- The declarations that a definition adds itself. -/
def ownDeclaration (d : Definition) : Option Text :=
  match d.body with
  | .declaration css => some css
  | .composesAndDeclaration _ css => some css
  | _ => none

end Definition

inductive CompositionError where
  | unknownReference (name referencedBy : Text) (closest : Option Text)
  | unknownClass (name : Text)
  /-- A cycle, the same name at both ends. -/
  | circular (path : List Text)
  | rulesetReference (name referencedBy : Text)
  | notComposable (name : Text)
  deriving DecidableEq

namespace CompositionError

def message : CompositionError → Text
  | unknownReference name referencedBy _ =>
      "Unknown class ".toList ++ quoted name ++ " in composes array of ".toList ++
        quoted referencedBy
  | unknownClass name => "Unknown class ".toList ++ quoted name
  | circular path => "Circular reference: ".toList ++ Path.render path
  | rulesetReference name referencedBy =>
      quoted referencedBy ++ " composes ruleset class ".toList ++ quoted name ++
        "; rulesets own their selectors and cannot be composed".toList
  | notComposable name =>
      "Ruleset class ".toList ++ quoted name ++ " cannot be flattened into declarations".toList

def suggestion : CompositionError → Option Text
  | unknownReference _ _ closest => closest.map didYouMean
  | rulesetReference name _ =>
      some ("Apply ".toList ++ quoted name ++
        " as its own class instead of composing it".toList)
  | _ => none

end CompositionError

namespace Registry

/-- What a walk along `composes` has written down. -/
structure Flattened where
  /-- The classes that are done. -/
  finished : List Text := []
  declarations : List Text := []

def Flattened.finish (f : Flattened) (name : Text) (d : Definition) : Flattened :=
  { finished := name :: f.finished, declarations := f.declarations ++ d.ownDeclaration.toList }

/-- A class without a definition, on a path that ends at the class composing it. -/
def undefinedError (r : Registry) (path : List Text) (name : Text) : CompositionError :=
  match path.getLast? with
  | some parent => .unknownReference name parent (closest name r.names)
  | none => .unknownClass name

/-- A ruleset, on a path that ends at the class composing it. -/
def rulesetError (path : List Text) (name : Text) : CompositionError :=
  match path.getLast? with
  | some parent => .rulesetReference name parent
  | none => .notComposable name

/-- Flattens classes one after the other, coming along `path`. -/
def flattenAll (r : Registry) (path names : List Text) (f : Flattened) :
    Except CompositionError Flattened :=
  match names with
  | [] => .ok f
  | name :: rest =>
      if _hpath : name ∈ path then .error (.circular (Path.cycleAt path name))
      else if name ∈ f.finished then flattenAll r path rest f
      else
        match _h : r.get? name with
        | none => .error (undefinedError r path name)
        | some d =>
            if d.isRuleset then .error (rulesetError path name)
            else
              match flattenAll r (path ++ [name]) d.references f with
              | .error e => .error e
              | .ok inner => flattenAll r path rest (inner.finish name d)
termination_by ((Path.remaining r.names path).length, names.length)
decreasing_by
  · exact Prod.Lex.right _ (Nat.lt_succ_self _)
  · exact Prod.Lex.left _ _ (Path.length_remaining_lt (mem_names_of_get? _h) _hpath)
  · exact Prod.Lex.right _ (Nat.lt_succ_self _)

/-- The declarations of a class and of all that it composes, one below the other. -/
def flatten (r : Registry) (name : Text) : Except CompositionError Text :=
  match flattenAll r [] [name] {} with
  | .error e => .error e
  | .ok f => .ok (join ['\n'] ((f.declarations.map trim).filter (!·.isEmpty)))

end Registry

end UtilityCss
