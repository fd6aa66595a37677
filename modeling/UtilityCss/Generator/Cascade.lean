import UtilityCss.ClassName.Segment
import UtilityCss.Modifier.Table
import UtilityCss.Text.Order

/-!
# Order of interpreted classes

Of two rules that apply, the later wins. So the variants of one class stand together, the plain
one first, and the states in the order in which a user comes through them: a link is visited
before it has the focus, is hovered over and is pressed.
-/

namespace UtilityCss

open Text ClassName

structure CascadeKey where
  /-- The name without its state modifiers. -/
  base : Text
  /-- The rank of the highest state; zero without states. -/
  rank : Nat
  name : Text
  deriving DecidableEq

namespace CascadeKey

/-- The states whose order matters, the weakest first. -/
def rankedStates : List Text :=
  ["visited", "focus", "hover", "active"].map String.toList

/-- The rank of a state, from one on; states that are not ranked come last. -/
def stateRank (state : Text) : Nat :=
  rankedStates.idxOf state + 1

/-- The state that a prefix of a class name is. -/
def stateOf? (segment : Text) : Option Modifier :=
  (Modifier.ofName? segment).filter (·.kind = .state)

def ofName (name : Text) : CascadeKey :=
  let segments := (segments? name).getD [name]
  let prefixes := segments.dropLast
  let last := segments.getLast?.getD name
  { base := joinSegments (prefixes.filter (fun p => (stateOf? p).isNone) ++ [last]),
    rank := (prefixes.filterMap stateOf?).foldl (fun rank m => max rank (stateRank m.name)) 0,
    name }

/-- Whether a key may stand in front of another: by base, then rank, then name. -/
def notAfter (a b : CascadeKey) : Bool :=
  match order a.base b.base with
  | .lt => true
  | .gt => false
  | .eq =>
      if a.rank < b.rank then true
      else if b.rank < a.rank then false
      else Text.notAfter a.name b.name

/-- Sorts class names, equal ones staying in their order. -/
def sortNames (names : List Text) : List Text :=
  names.mergeSort fun a b => notAfter (ofName a) (ofName b)

end CascadeKey

end UtilityCss
