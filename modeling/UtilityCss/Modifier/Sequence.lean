import UtilityCss.Modifier.Basic
import UtilityCss.Text.Order

/-!
# Sequences of modifiers

The modifiers of a class name stand in one fixed order: a media condition, an ancestor, states by
ascending name, a pseudo-element. A sequence that is written otherwise is refused and never put
in order. `ModifierSet.toList` gives the accepted sequence back.
-/

namespace UtilityCss

open Text

inductive SequenceError where
  /-- `modifier` is of a kind that belongs in front of `previous`. -/
  | misplaced (modifier previous : Text)
  | twoMedia (first second : Text)
  | twoPseudoElements (first second : Text)
  | twoAncestors (first second : Text)
  | duplicate (name : Text)
  /-- The states read so far are not in order; `expected` lists them as they should be. -/
  | unorderedStates (found expected : List Text)
  deriving DecidableEq

namespace SequenceError

def message : SequenceError → Text
  | misplaced modifier previous =>
      "Modifier ".toList ++ quoted modifier ++ " must come before ".toList ++ quoted previous ++
        " (order: media → ancestor → state → pseudo-element)".toList
  | twoMedia first second =>
      "Only one media modifier is allowed, found ".toList ++ quoted first ++ " and ".toList ++
        quoted second
  | twoPseudoElements first second =>
      "Only one pseudo-element modifier is allowed, found ".toList ++ quoted first ++
        " and ".toList ++ quoted second
  | twoAncestors first second =>
      "Modifiers ".toList ++ quoted first ++ " and ".toList ++ quoted second ++
        " are mutually exclusive".toList
  | duplicate name => "Duplicate modifier ".toList ++ quoted name
  | unorderedStates found expected =>
      "State modifiers must be in alphabetical order: ".toList ++ quoted (join [':'] found) ++
        " should be written ".toList ++ quoted (join [':'] expected)

def suggestion : SequenceError → Option Text
  | unorderedStates _ expected => some ("Use ".toList ++ quoted (join [':'] expected))
  | _ => none

end SequenceError

structure ModifierSet where
  media : Option Modifier := none
  ancestor : Option Modifier := none
  /-- Ascending by name. -/
  states : List Modifier := []
  pseudoElement : Option Modifier := none
  deriving DecidableEq

/-- What the modifiers of a class name put around and behind its selector. -/
structure Placement where
  media : Option Text := none
  ancestor : Option Text := none
  /-- The pseudo-classes, one behind the other. -/
  states : Text := []
  pseudoElement : Text := []
  deriving DecidableEq

namespace Placement

def suffix (p : Placement) : Text :=
  p.states ++ p.pseudoElement

/-- The headers of the blocks around a rule, the outermost first. -/
def headers (p : Placement) : List Text :=
  p.media.toList ++ p.ancestor.toList

end Placement

namespace ModifierSet

/-- The modifiers in the order in which a class name writes them. -/
def toList (s : ModifierSet) : List Modifier :=
  s.media.toList ++ s.ancestor.toList ++ s.states ++ s.pseudoElement.toList

def isEmpty (s : ModifierSet) : Bool :=
  s.toList.isEmpty

def stateNames (s : ModifierSet) : List Text :=
  s.states.map (·.name)

/-- Adds a modifier behind those of its kind. -/
def pushOwnKind (s : ModifierSet) (m : Modifier) : Except SequenceError ModifierSet :=
  match m.kind with
  | .media =>
      match s.media with
      | some first => .error (.twoMedia first.name m.name)
      | none => .ok { s with media := some m }
  | .ancestor =>
      match s.ancestor with
      | some first =>
          if first.name = m.name then .error (.duplicate m.name)
          else .error (.twoAncestors first.name m.name)
      | none => .ok { s with ancestor := some m }
  | .state =>
      if s.states.any (·.css = m.css) then .error (.duplicate m.name)
      else
        match s.states.getLast? with
        | some last =>
            if last.name = m.name then .error (.duplicate m.name)
            else if Precedes m.name last.name then
              let found := s.stateNames ++ [m.name]
              .error (.unorderedStates found (found.mergeSort notAfter))
            else .ok { s with states := s.states ++ [m] }
        | none => .ok { s with states := [m] }
  | .pseudoElement =>
      match s.pseudoElement with
      | some first => .error (.twoPseudoElements first.name m.name)
      | none => .ok { s with pseudoElement := some m }

/-- Adds a modifier, which must not belong in front of the last one. -/
def push (s : ModifierSet) (m : Modifier) : Except SequenceError ModifierSet :=
  match s.toList.getLast? with
  | some previous =>
      if m.kind.rank < previous.kind.rank then .error (.misplaced m.name previous.name)
      else s.pushOwnKind m
  | none => s.pushOwnKind m

def pushAll (s : ModifierSet) : List Modifier → Except SequenceError ModifierSet
  | [] => .ok s
  | m :: ms =>
      match s.push m with
      | .ok next => next.pushAll ms
      | .error e => .error e

def ofList (ms : List Modifier) : Except SequenceError ModifierSet :=
  pushAll {} ms

def placement (s : ModifierSet) : Placement where
  media := s.media.map (·.css)
  ancestor := s.ancestor.map (·.css)
  states := s.states.flatMap (·.css)
  pseudoElement := (s.pseudoElement.map (·.css)).getD []

end ModifierSet

end UtilityCss
