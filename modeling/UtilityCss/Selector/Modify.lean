import UtilityCss.Css.Escape
import UtilityCss.Selector.Members
import UtilityCss.Selector.Pseudo

/-!
# Selectors under modifiers

To apply modifiers to a class, its token in a selector takes another name, and the states and the
pseudo-element go to the end of its compound selector. What the selector already has is not
added again; it is reported as skipped.
-/

namespace UtilityCss.Selector

open Text Css

structure Change where
  /-- The class as registered, not escaped. -/
  className : Text
  /-- The new name as a selector writes it. -/
  newName : Text
  /-- A chain of pseudo-classes. -/
  states : Text
  pseudoElement : Text

inductive SkipReason where
  | stateConflict
  | pseudoElementConflict
  deriving DecidableEq, Repr

def SkipReason.label : SkipReason → Text
  | stateConflict => "state_conflict".toList
  | pseudoElementConflict => "pseudo_element_conflict".toList

/-- A state or pseudo-element that a selector already had. -/
structure Skipped where
  reason : SkipReason
  selector : Text
  modifier : Text
  deriving DecidableEq

structure Modified where
  selector : Text
  found : Bool
  skipped : List Skipped
  deriving DecidableEq

/-- The states that a compound selector has already, and those it has not. -/
def splitStates (compound states : Text) : List Text × List Text :=
  (links states).partition fun state => hasLink state compound

/-- Whether the selector has the pseudo-element behind the token, also with a single colon at the
end of the compound. -/
def hasPseudoElement (token rest pseudoElement : Text) : Bool :=
  hasLink pseudoElement token || startsWithSingleColon pseudoElement rest

/-- Changes one selector; one without the class stays as it is. -/
def modify (change : Change) (selector : Text) : Modified :=
  match findClassToken (escape change.className) selector with
  | none => ⟨selector, false, []⟩
  | some token =>
      let rest := afterCompound token
      let compound := upTo token rest
      let (present, added) := splitStates compound change.states
      let conflicts := present.map fun state => ⟨.stateConflict, selector, state⟩
      let behindName := compound.drop ((escape change.className).length + 1)
      let unchanged := upTo selector token
      let named := unchanged ++ '.' :: change.newName ++ behindName ++ added.flatten
      if hasPseudoElement token rest change.pseudoElement then
        let conflict := ⟨.pseudoElementConflict, selector, change.pseudoElement⟩
        ⟨named ++ rest, true, conflicts ++ [conflict]⟩
      else ⟨named ++ change.pseudoElement ++ rest, true, conflicts⟩

def modifyList (change : Change) (selectors : Text) : Modified :=
  let changed := (members selectors).map (modify change)
  ⟨join [',', '\n'] (changed.map (·.selector)), changed.any (·.found), changed.flatMap (·.skipped)⟩

end UtilityCss.Selector
