import UtilityCss.Proofs.Ruleset.Stretch
import UtilityCss.Proofs.Selector.Changed
import UtilityCss.Proofs.Stylesheet.Reading

/-!
# Style sheets under a change

To change the text of a style sheet is to change its tree: every style rule gets its selector
changed, member by member, or goes where it has not the class, and all else stays. The text that
the change makes shows the changed tree, and so to read it gives the changed rules.
-/

namespace UtilityCss.Stylesheet

open Text Css Selector Ruleset

def isKeyframePath (atRules : List Text) : Bool :=
  atRules.any fun prelude => (before? "keyframes".toList (Rule.atRuleName prelude)).isSome

section Trees

variable (change : Change) (membersOf : Text → List Text)

/-- What the change makes of the selector of a rule inside the at-rules: nothing where no member has
the class. Those of animation steps stay. -/
def changedSelector? (atRules : List Text) (selector : Text) : Option Text :=
  if isKeyframePath atRules then some selector
  else if (membersOf selector).any (hasClassToken (escape change.className)) then
    some (join [',', '\n'] ((membersOf selector).map fun m => (modify change m).selector))
  else none

def StyleRule.changed? (r : StyleRule) : Option StyleRule :=
  (changedSelector? change membersOf r.atRules r.selector).map fun s => { r with selector := s }

mutual

/-- What becomes of an item inside the at-rules; a group stays also where all its rules go. -/
def Item.changed (atRules : List Text) : Item → List Item
  | .style selector declarations =>
      ((changedSelector? change membersOf atRules selector).map fun s =>
        .style s declarations).toList
  | .comment body => [.comment body]
  | .statement prelude => [.statement prelude]
  | .group prelude items => [.group prelude (changedItems (atRules ++ [prelude]) items)]

def changedItems (atRules : List Text) : List Item → List Item
  | [] => []
  | item :: rest => item.changed atRules ++ changedItems atRules rest

end

end Trees

/-- Outside of animations a rule is changed as its selector list is. -/
theorem changedSelector?_eq {change : Change} {membersOf : Text → List Text} {atRules : List Text}
    {selector : Text} (hkeyframe : isKeyframePath atRules = false)
    (hlist : IsSelectorList (membersOf selector) selector) :
    changedSelector? change membersOf atRules selector =
      if (modifyList change selector).found then some (modifyList change selector).selector
      else none := by
  obtain ⟨hselector, hfound⟩ := modifyList_eq hlist change
  rw [changedSelector?, hkeyframe, hfound, hselector]
  exact if_neg Bool.false_ne_true

theorem styleRules_append (atRules : List Text) (items items' : List Item) :
    styleRules atRules (items ++ items') =
      styleRules atRules items ++ styleRules atRules items' := by
  induction items with
  | nil => rfl
  | cons item items ih => rw [List.cons_append, styleRules, styleRules, ih, List.append_assoc]

theorem styleRules_singleton (atRules : List Text) (item : Item) :
    styleRules atRules [item] = item.styleRules atRules := by
  rw [styleRules, styleRules, List.append_nil]

section Rules

variable (change : Change) (membersOf : Text → List Text)

mutual

theorem styleRules_changed (atRules : List Text) (item : Item) :
    styleRules atRules (item.changed change membersOf atRules) =
      (item.styleRules atRules).filterMap (StyleRule.changed? change membersOf) := by
  cases item with
  | style selector declarations =>
      rw [Item.changed, Item.styleRules, List.filterMap_cons, StyleRule.changed?]
      cases changedSelector? change membersOf atRules selector with
      | none => rfl
      | some s => exact styleRules_singleton atRules (.style s declarations)
  | comment body => rfl
  | statement prelude => rfl
  | group prelude items =>
      rw [Item.changed, styleRules_singleton]
      exact styleRules_changedItems (atRules ++ [prelude]) items

theorem styleRules_changedItems (atRules : List Text) (items : List Item) :
    styleRules atRules (changedItems change membersOf atRules items) =
      (styleRules atRules items).filterMap (StyleRule.changed? change membersOf) := by
  cases items with
  | nil => rfl
  | cons item rest =>
      rw [changedItems, styleRules, styleRules_append, List.filterMap_append,
        styleRules_changed atRules item, styleRules_changedItems atRules rest]

end

end Rules

def rulesIn (atRules : List Text) (start : Nat) (t : Text) : List Rule :=
  ((entries atRules start (lexemes t)).filterMap Entry.rule?).filter (!·.isKeyframe)

section Stretches

variable {atRules : List Text} {start : Nat} {s gap body : Text}

theorem rulesIn_blanks (h : IsBlanks gap) (t : Text) :
    rulesIn atRules start (gap ++ t) = rulesIn atRules (start + size gap) t := by
  rw [rulesIn, h.entries_append, rulesIn]

theorem rulesIn_comment (hbody : ¬ ['*', '/'] <:+: body) (t : Text) :
    rulesIn atRules start (commentOf body ++ t) =
      rulesIn atRules (start + size (commentOf body)) t := by
  have hhere : (if atRules.isEmpty then [Entry.comment (commentOf body)] else []).filterMap
      Entry.rule? = [] := by
    split <;> rfl
  rw [rulesIn, lexemes_comment hbody, entries_comment, List.filterMap_append, hhere,
    List.nil_append, rulesIn]

theorem rulesIn_statement (hs : IsPrelude s) (hgap : IsBlanks gap) (t : Text) :
    rulesIn atRules start (s ++ gap ++ ';' :: t) =
      rulesIn atRules (start + size (s ++ gap) + 1) t := by
  rw [rulesIn, entries_statement hs hgap, rulesIn]

theorem rulesIn_style (hs : IsPrelude s) (hat : s.head? ≠ some '@') (hgap : IsBlanks gap)
    (hbody : Whole body) (t : Text) :
    rulesIn atRules start (s ++ gap ++ '\x7b' :: (body ++ '\x7d' :: t)) =
      (if isKeyframePath atRules then [] else [ruleAt atRules start (s ++ gap) body]) ++
        rulesIn atRules (start + size (s ++ gap) + 1 + size body + 1) t := by
  have hkeyframe : (ruleAt atRules start (s ++ gap) body).isKeyframe = isKeyframePath atRules := rfl
  rw [rulesIn, entries_style hs hat hgap hbody, rulesIn, List.filterMap_cons, Entry.rule?,
    List.filter_cons, hkeyframe]
  cases isKeyframePath atRules <;> rfl

theorem rulesIn_group (hs : IsPrelude s) (hgrouping : IsGroupingPrelude s) (hgap : IsBlanks gap)
    {items : List Item} (hbody : Reads items body) (t : Text) :
    rulesIn atRules start (s ++ gap ++ '\x7b' :: (body ++ '\x7d' :: t)) =
      rulesIn (atRules ++ [s]) (start + size (s ++ gap) + 1) body ++
        rulesIn atRules (start + size (s ++ gap) + 1 + size body + 1) t := by
  rw [rulesIn, entries_group hs hgrouping hgap hbody.separate.endsAtBrace hbody.closed,
    List.filterMap_append, List.filter_append, rulesIn, rulesIn]

end Stretches

/-! ## One item in front of others -/

def Becomes (change : Change) (atRules : List Text) (t : Text) (items : List Item) : Prop :=
  ∀ start, ∃ t', Rewrites change start (rulesIn atRules start t) t t' ∧ Written items t'

namespace Becomes

variable {change : Change} {membersOf : Text → List Text} {atRules : List Text} {t : Text}
  {items : List Item}

theorem blanks {ws : Text} (h : IsBlanks ws) : Becomes change atRules ws [] := by
  intro start
  have hnone : rulesIn atRules start ws = [] := by
    rw [← List.append_nil ws, rulesIn_blanks h, rulesIn, lexemes, entries_nil]
    rfl
  rw [hnone]
  exact ⟨ws, .nil ws, .nil h⟩

theorem lead {ws : Text} (hws : IsBlanks ws) (h : Becomes change atRules t items) :
    Becomes change atRules (ws ++ t) items := by
  intro start
  obtain ⟨t', hrewrites, hwritten⟩ := h (start + size ws)
  rw [rulesIn_blanks hws]
  exact ⟨ws ++ t', hrewrites.behind ws, hwritten.lead hws⟩

theorem comment {body : Text} (hbody : ¬ ['*', '/'] <:+: body)
    (h : Becomes change atRules t items) :
    Becomes change atRules (commentOf body ++ t) (.comment body :: items) := by
  intro start
  obtain ⟨t', hrewrites, hwritten⟩ := h (start + size (commentOf body))
  rw [rulesIn_comment hbody]
  exact ⟨commentOf body ++ t', hrewrites.behind _, .comment .nil hbody hwritten⟩

theorem statement {prelude gap : Text} (hprelude : IsPrelude prelude) (hgap : IsBlanks gap)
    (h : Becomes change atRules t items) :
    Becomes change atRules (prelude ++ gap ++ ';' :: t) (.statement prelude :: items) := by
  intro start
  obtain ⟨t', hrewrites, hwritten⟩ := h (start + size (prelude ++ gap) + 1)
  rw [rulesIn_statement hprelude hgap]
  exact ⟨prelude ++ gap ++ ';' :: t', hrewrites.behind_stop _ rfl,
    .statement .nil hprelude hgap hwritten⟩

theorem group {prelude gap body : Text} {inner inner' : List Item} (hprelude : IsPrelude prelude)
    (hgrouping : IsGroupingPrelude prelude) (hgap : IsBlanks gap) (hreads : Reads inner body)
    (hbody : Becomes change (atRules ++ [prelude]) body inner')
    (h : Becomes change atRules t items) :
    Becomes change atRules (prelude ++ gap ++ '\x7b' :: (body ++ '\x7d' :: t))
      (.group prelude inner' :: items) := by
  intro start
  obtain ⟨body', hrewritesBody, hwrittenBody⟩ := hbody (start + size (prelude ++ gap) + 1)
  obtain ⟨t', hrewrites, hwritten⟩ := h (start + size (prelude ++ gap) + 1 + size body + 1)
  rw [rulesIn_group hprelude hgrouping hgap hreads]
  exact ⟨prelude ++ gap ++ '\x7b' :: (body' ++ '\x7d' :: t'), hrewritesBody.block _ hrewrites,
    .group .nil hprelude hgrouping hgap hwrittenBody hwritten⟩

theorem style (hchange : change.Fits) {selector gap open' declarations close : Text}
    (hselector : IsPrelude selector) (hat : selector.head? ≠ some '@') (hgap : IsBlanks gap)
    (hopen : IsBlanks open') (hdeclarations : Whole declarations) (hclose : IsBlanks close)
    (hlist : IsSelectorList (membersOf selector) selector)
    (h : Becomes change atRules t items) :
    Becomes change atRules
      (selector ++ gap ++ '\x7b' :: (open' ++ declarations ++ close ++ '\x7d' :: t))
      ((Item.style selector declarations).changed change membersOf atRules ++ items) := by
  intro start
  have hbody := whole_body hopen hdeclarations hclose
  obtain ⟨t', hrewrites, hwritten⟩ := h
    (start + size (selector ++ gap) + 1 + size (open' ++ declarations ++ close) + 1)
  have hwith : ∀ {s : Text}, IsPrelude s → s.head? ≠ some '@' →
      Written (.style s declarations :: items)
        (s ++ gap ++ '\x7b' :: (open' ++ declarations ++ close ++ '\x7d' :: t')) := fun hs hs' =>
    .style .nil hs hs' hgap hopen hdeclarations hclose hwritten
  rw [rulesIn_style hselector hat hgap hbody, Item.changed]
  cases hkeyframe : isKeyframePath atRules with
  | true =>
      -- No change touches the rule, so that it stands in front of the others as any text does.
      have hsame : changedSelector? change membersOf atRules selector = some selector := by
        rw [changedSelector?, if_pos hkeyframe]
      rw [hsame]
      exact ⟨_, (Rewrites.nil _).block _ hrewrites, hwith hselector hat⟩
  | false =>
      have hrule := hrewrites.rule atRules hselector.beginsSolid (hselector.trimEnd_append hgap)
        hgap.isBlank
      refine ⟨_, hrule, ?_⟩
      rw [changedSelector?_eq hkeyframe hlist]
      cases (modifyList change selector).found with
      | true =>
          have hpiece := isPiece_modifyList hchange hlist
          exact hwith hpiece.isPrelude hpiece.head?_ne
      | false =>
          -- The blanks behind the rule go, and what is behind them is written without them.
          exact hwritten.trimStart

end Becomes

/-- The changed text shows the changed tree. -/
theorem becomes_of_written {change : Change} (hchange : change.Fits)
    {membersOf : Text → List Text} {items : List Item} {t : Text} (h : Written items t)
    {atRules : List Text}
    (hlists : ∀ r ∈ styleRules atRules items, IsSelectorList (membersOf r.selector) r.selector) :
    Becomes change atRules t (changedItems change membersOf atRules items) := by
  -- Along the text, for any at-rules around it; an item is changed in front of its followers.
  induction h generalizing atRules with
  | nil hblanks => exact .blanks hblanks
  | style hlead hselector hat hgap hopen hdeclarations hclose _ ih =>
      rw [lead_append]
      obtain ⟨hlist, hrest⟩ := List.forall_mem_cons.mp hlists
      exact (Becomes.style hchange hselector hat hgap hopen hdeclarations hclose hlist
        (ih hrest)).lead hlead
  | comment hlead hbody _ ih =>
      rw [List.append_assoc]
      exact (Becomes.comment hbody (ih hlists)).lead hlead
  | statement hlead hprelude hgap _ ih =>
      rw [lead_append]
      exact (Becomes.statement hprelude hgap (ih hlists)).lead hlead
  | group hlead hprelude hgrouping hgap hitems _ ihitems ih =>
      rw [lead_append]
      obtain ⟨hinner, hrest⟩ := List.forall_mem_append.mp hlists
      exact (Becomes.group hprelude hgrouping hgap (reads_of_written hitems) (ihitems hinner)
        (ih hrest)).lead hlead

/-! ## Changed style sheets -/

theorem parse_written {items : List Item} {t : Text} (h : Written items t) :
    (parse t).rules.map (fun r => StyleRule.mk r.selector r.declarations r.atRules) =
      styleRules [] items := by
  rw [parse, filterMap_rule_content, (reads_of_written h).contents_eq, styleRules_eq_contents]

theorem fits_of_table (className : Text) {newName : Text}
    (hname : trimEnd (escape newName) = escape newName) {states : List Modifier}
    (hstates : ∀ m ∈ states, m ∈ Modifier.states) {element : Option Modifier}
    (helement : ∀ m ∈ element, m ∈ Modifier.pseudoElements) :
    let placement : Placement :=
      { states := states.flatMap (·.css), pseudoElement := (element.map (·.css)).getD [] }
    (changeUnder className (escape newName) placement).Fits := by
  intro placement
  have hsolid := trimEnd_eq_nil_or (escape newName)
  rw [hname] at hsolid
  exact ⟨steady_escape newName, hsolid, isSuffix_of_states hstates, isSuffix_of_element helement⟩

/-- Under states and a pseudo-element of the table, and a name whose escapes end in no blank, the
text of a style sheet becomes a text of the changed tree, and to read this gives the style rules
each changed, without those that go. -/
theorem parse_modify {items : List Item} {t : Text} (h : Written items t)
    (membersOf : Text → List Text)
    (hlists : ∀ r ∈ styleRules [] items, IsSelectorList (membersOf r.selector) r.selector)
    (className newName : Text) (hname : trimEnd (escape newName) = escape newName)
    {states : List Modifier} (hstates : ∀ m ∈ states, m ∈ Modifier.states)
    {element : Option Modifier} (helement : ∀ m ∈ element, m ∈ Modifier.pseudoElements) :
    let placement : Placement :=
      { states := states.flatMap (·.css), pseudoElement := (element.map (·.css)).getD [] }
    let change := changeUnder className (escape newName) placement
    ∃ result, Ruleset.modify className (escape newName) placement t = some result ∧
      Written (changedItems change membersOf [] items) result.css ∧
      (parse result.css).rules.map (fun r => StyleRule.mk r.selector r.declarations r.atRules) =
        (styleRules [] items).filterMap (StyleRule.changed? change membersOf) := by
  intro placement change
  -- The change is made to the text as it is without the blanks at its ends.
  have hfits : change.Fits := fits_of_table className hname hstates helement
  have hsource : Written items (trim t) := h.trimStart.trimEnd
  obtain ⟨t', hrewrites, hwritten⟩ := becomes_of_written hfits hsource hlists 0
  obtain ⟨result, hresult, hcss⟩ := modifyRules_of_rewrites hrewrites
  have hchanged : Written (changedItems change membersOf [] items) result.css := by
    rw [hcss]
    exact hwritten.trimEnd
  exact ⟨result, (modify_eq_modifyRules _ _ _ _ _).trans hresult, hchanged,
    by rw [parse_written hchanged, styleRules_changedItems]⟩

def memberWithComma : Text := ['.', 'a', ':', 'i', 's', '(', 'p', ',', 'q', ')']

/-- A rule without the class in front of one with it, two at-rules deep, an animation, and a rule
without the class at the end. -/
def animatedSheet : List Item :=
  [.group ['@', 's', 'c', 'o', 'p', 'e']
      [.group ['@', 'l', 'a', 'y', 'e', 'r']
        [.style ['q'] ['x'],
          .style ('p' :: ',' :: ' ' :: memberWithComma) ['\x22', '\x7d', '\x22']]],
    .group ['@', 'k', 'e', 'y', 'f', 'r', 'a', 'm', 'e', 's'] [.style ['t', 'o'] ['z']],
    .style ['q'] []]

def animatedSheetText : Text :=
  ['@', 's', 'c', 'o', 'p', 'e', '\x7b', ' ', '@', 'l', 'a', 'y', 'e', 'r', '\x7b', 'q', '\x7b',
    'x', '\x7d', '\n', 'p', ',', ' '] ++ memberWithComma ++
  ['\x7b', '\x22', '\x7d', '\x22', '\x7d', '\x7d', '\x7d', '@', 'k', 'e', 'y', 'f', 'r', 'a',
    'm', 'e', 's', '\x7b', 't', 'o', '\x7b', 'z', '\x7d', '\x7d', 'q', '\x7b', '\x7d']

theorem printed_animatedSheet : Printed animatedSheet animatedSheetText := by
  have hnone : IsBlanks [] := .nil
  have hspace : IsBlanks [' '] := by simp [IsBlanks, isAsciiBlank]
  have hline : IsBlanks ['\n'] := by simp [IsBlanks, isAsciiBlank]
  have hchar : ∀ c, isBare c = true → c ≠ '/' → IsDeclarations [c] := fun c hc hslash =>
    .char hc (fun heq => absurd heq hslash) .nil
  have hstring : IsDeclarations ['\x22', '\x7d', '\x22'] :=
    IsDeclarations.string (by decide) (.char (by decide) (by decide) .nil) .nil
  have hq : IsHeader ['q'] :=
    ⟨by decide, by decide, by simp [isBare, isQuote], by decide, by decide⟩
  have hto : IsHeader ['t', 'o'] :=
    ⟨by decide, by decide, by simp [isBare, isQuote], by decide, by decide⟩
  have hboth : IsHeader ('p' :: ',' :: ' ' :: memberWithComma) :=
    ⟨by decide, by decide, by simp [memberWithComma, isBare, isQuote], by decide, by decide⟩
  have hscope : IsHeader ['@', 's', 'c', 'o', 'p', 'e'] :=
    ⟨by decide, by decide, by simp [isBare, isQuote], by decide, by decide⟩
  have hlayer : IsHeader ['@', 'l', 'a', 'y', 'e', 'r'] :=
    ⟨by decide, by decide, by simp [isBare, isQuote], by decide, by decide⟩
  have hframes : IsHeader ['@', 'k', 'e', 'y', 'f', 'r', 'a', 'm', 'e', 's'] :=
    ⟨by decide, by decide, by simp [isBare, isQuote], by decide, by decide⟩
  have hscope' : IsGroupingPrelude ['@', 's', 'c', 'o', 'p', 'e'] :=
    @IsGroupingPrelude.intro ['s', 'c', 'o', 'p', 'e'] [] (by decide) (by decide)
  have hlayer' : IsGroupingPrelude ['@', 'l', 'a', 'y', 'e', 'r'] :=
    @IsGroupingPrelude.intro ['l', 'a', 'y', 'e', 'r'] [] (by decide) (by decide)
  have hframes' : IsGroupingPrelude ['@', 'k', 'e', 'y', 'f', 'r', 'a', 'm', 'e', 's'] :=
    @IsGroupingPrelude.intro ['k', 'e', 'y', 'f', 'r', 'a', 'm', 'e', 's'] [] (by decide)
      (by decide)
  have hrule := Printed.style hline hboth (by decide) hnone hnone hstring hnone (.nil hnone)
  have hrules := Printed.style hnone hq (by decide) hnone hnone
    (hchar 'x' (by decide) (by decide)) hnone hrule
  have hinner := Printed.group hspace hlayer hlayer' hnone hrules (.nil hnone)
  have hstep := Printed.style hnone hto (by decide) hnone hnone
    (hchar 'z' (by decide) (by decide)) hnone (.nil hnone)
  have hlast := Printed.style hnone hq (by decide) hnone hnone .nil hnone (.nil hnone)
  have hframesRule := Printed.group hnone hframes hframes' hnone hstep hlast
  exact Printed.group hnone hscope hscope' hnone hinner hframesRule

def animatedSheetMembers (selector : Text) : List Text :=
  if selector = 'p' :: ',' :: ' ' :: memberWithComma then [['p'], memberWithComma] else [selector]

theorem isSelectorList_animatedSheet : ∀ r ∈ styleRules [] animatedSheet,
    IsSelectorList (animatedSheetMembers r.selector) r.selector := by
  have hplain : ∀ s : Text, (∀ c ∈ s, isOrdinary c = true ∧ c ≠ ',') → s ≠ [] → trim s = s →
      ¬ ['/', '*'] <:+: s → s.head? ≠ some '@' → IsMember s := fun s hs hne htrim hopen hat =>
    ⟨hne, htrim, .of_ordinary hs, hopen, hat⟩
  have hp : IsMember ['p'] :=
    hplain _ (by simp [isOrdinary, isBracket, isBare, isQuote]) (by decide) (by decide) (by decide)
      (by decide)
  have hq : IsMember ['q'] :=
    hplain _ (by simp [isOrdinary, isBracket, isBare, isQuote]) (by decide) (by decide) (by decide)
      (by decide)
  have hto : IsMember ['t', 'o'] :=
    hplain _ (by simp [isOrdinary, isBracket, isBare, isQuote]) (by decide) (by decide) (by decide)
      (by decide)
  have harguments : Nested true ['p', ',', 'q'] :=
    .char (by decide) (fun _ => rfl) (.char (by decide) (fun _ => rfl)
      (.char (by decide) (fun _ => rfl) .nil))
  have hnested : Nested false memberWithComma :=
    Nested.append (s := ['.', 'a', ':', 'i', 's'])
      (.of_ordinary (by simp [isOrdinary, isBracket, isBare, isQuote])) (.round harguments .nil)
  have hwithComma : IsMember memberWithComma :=
    ⟨by decide, by decide, hnested, by decide, by decide⟩
  have hboth := IsSelectorList.cons hp .nil (show IsBlanks [' '] by simp [IsBlanks, isAsciiBlank])
    (.single hwithComma)
  have hrules : (styleRules [] animatedSheet).map (·.selector) =
      [['q'], 'p' :: ',' :: ' ' :: memberWithComma, ['t', 'o'], ['q']] := by
    decide
  intro r hr
  have hselector := List.mem_map_of_mem (f := (·.selector)) hr
  rw [hrules] at hselector
  simp only [List.mem_cons, List.not_mem_nil, or_false] at hselector
  rcases hselector with heq | heq | heq | heq
  all_goals rw [heq]
  · exact .single hq
  · exact hboth
  · exact .single hto
  · exact .single hq

/-- The new name begins with a digit and holds a brace. -/
theorem parse_modify_animatedSheet :
    let hover : Modifier := ⟨.state, "hover".toList, ":hover".toList⟩
    let after : Modifier := ⟨.pseudoElement, "after".toList, "::after".toList⟩
    let newName : Text := ['0', '\x7b']
    let placement : Placement :=
      { states := [hover].flatMap (·.css), pseudoElement := ((some after).map (·.css)).getD [] }
    Written animatedSheet animatedSheetText ∧
      (∀ r ∈ styleRules [] animatedSheet,
        IsSelectorList (animatedSheetMembers r.selector) r.selector) ∧
      trimEnd (escape newName) = escape newName ∧ (∀ m ∈ [hover], m ∈ Modifier.states) ∧
      (∀ m ∈ some after, m ∈ Modifier.pseudoElements) ∧
      ∃ result, Ruleset.modify ['a'] (escape newName) placement animatedSheetText = some result ∧
        (parse result.css).rules.map (fun r => StyleRule.mk r.selector r.declarations r.atRules) =
          [⟨"p,\n.\\30 \\\x7b:is(p,q):hover::after".toList, ['\x22', '\x7d', '\x22'],
              [['@', 's', 'c', 'o', 'p', 'e'], ['@', 'l', 'a', 'y', 'e', 'r']]⟩,
            ⟨['t', 'o'], ['z'], [['@', 'k', 'e', 'y', 'f', 'r', 'a', 'm', 'e', 's']]⟩] := by
  intro hover after newName placement
  have hname : trimEnd (escape newName) = escape newName := by decide
  have hstates : ∀ m ∈ [hover], m ∈ Modifier.states := by decide +kernel
  have helement : ∀ m ∈ some after, m ∈ Modifier.pseudoElements := by decide +kernel
  obtain ⟨result, hresult, -, hrules⟩ := parse_modify printed_animatedSheet.written
    animatedSheetMembers isSelectorList_animatedSheet ['a'] newName hname hstates helement
  refine ⟨printed_animatedSheet.written, isSelectorList_animatedSheet, hname, hstates, helement,
    result, hresult, ?_⟩
  rw [hrules]
  decide +kernel

end UtilityCss.Stylesheet
