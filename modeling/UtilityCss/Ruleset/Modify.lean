import UtilityCss.Css.Layout
import UtilityCss.Modifier.Sequence
import UtilityCss.Ruleset.Edit
import UtilityCss.Ruleset.Parse
import UtilityCss.Selector.Modify

/-!
# Rulesets under modifiers

To apply modifiers to a ruleset, the selectors that have its class are changed and the rules
without it are removed; animation steps stay. All else stays as written. The media and ancestor
blocks go around the whole. Where one of the edits does not fit, there is no result.
-/

namespace UtilityCss.Ruleset

open Text Css Selector

/-- The end of a rule: behind its closing brace and the blanks that follow it. -/
def ruleStop (source : Text) (r : Rule) : Nat :=
  let rest := dropBytes r.bodySpan.stop source
  let behind := (after? ['\x7d'] rest).getD rest
  size source - size (trimStart behind)

/-- The edit that a rule needs, its selector after the change being `changed`. -/
def ruleEdit (source : Text) (r : Rule) (changed : Modified) : Edit :=
  if changed.found then ⟨r.selectorSpan.start, r.selectorSpan.stop, changed.selector⟩
  else ⟨r.selectorSpan.start, ruleStop source r, []⟩

structure ModifiedText where
  css : Text := []
  skipped : List Skipped := []
  deriving DecidableEq

/-- Changes the class in all selectors of a style sheet, without the blocks around it. -/
def modifyRules (change : Change) (css : Text) : Option ModifiedText :=
  let source := trim css
  let rules := (parse source).rules.filter (!·.isKeyframe)
  let changed := rules.map fun r => (r, modifyList change r.selector)
  let edits := changed.map fun (r, m) => ruleEdit source r m
  (Edit.applyAll edits source).map fun edited =>
    ⟨trimEnd edited, changed.flatMap fun (_, m) => m.skipped⟩

/-- Puts the blocks around what is left; where nothing is, there is none. -/
def ModifiedText.within (m : ModifiedText) (headers : List Text) : ModifiedText :=
  if m.css.isEmpty then m else { m with css := blocks headers m.css }

/-- Applies modifiers to a class of a style sheet and gives it a new name, written as in a
selector. -/
def modify (className newName : Text) (placement : Placement) (css : Text) :
    Option ModifiedText :=
  let change : Change :=
    { className, newName, states := placement.states, pseudoElement := placement.pseudoElement }
  (modifyRules change css).map (·.within placement.headers)

end UtilityCss.Ruleset
