import Mathlib.Data.List.Chain
import UtilityCss.Proofs.Ruleset.Sections
import UtilityCss.Proofs.Selector.Modify
import UtilityCss.Proofs.Text.Bytes
import UtilityCss.Ruleset.Modify

/-!
# Rulesets under modifiers

What modifiers make of a text is told from its sections: a rule with the class gets another
selector, any other rule goes, and the blanks behind it with it. The edits make just that where a
rule never begins with a blank right behind the blanks that go; where one does, edits overlap.
-/

namespace UtilityCss.Ruleset

open Text Css Selector

section Outcome

variable (change : Change) (tail : Text)

/-- The sections and the tail with every selector changed that has the class, and without the other
rules. After a rule that goes, `cut` is set and the blanks in front go too. -/
def rewritten : Bool → List Section → Text
  | cut, [] => if cut then trimStart tail else tail
  | cut, s :: ss =>
      let lead := if cut then trimStart s.lead else s.lead
      let changed := modifyList change s.selector
      if changed.found then lead ++ changed.selector ++ s.block ++ rewritten false ss
      else lead ++ rewritten true ss

/-- The blanks in front of the rule are those of the lead. -/
def Section.StandsOut (s : Section) : Prop :=
  trimStart s.text = trimStart s.lead ++ s.selector ++ s.block

/-- No rule behind one that goes begins with a blank right behind other blanks. -/
def Apart (sections : List Section) : Prop :=
  sections.IsChain fun s s' => (modifyList change s.selector).found = false → s'.StandsOut

def indentSize (t : Text) : Nat :=
  size t - size (trimStart t)

/-- What the edits make of the sections and the tail: the blanks to go are counted in the text as it
was, and go from the text as it is. -/
def edited : List Section → Text
  | [] => tail
  | s :: ss =>
      let changed := modifyList change s.selector
      if changed.found then s.lead ++ changed.selector ++ s.block ++ edited ss
      else s.lead ++ dropBytes (indentSize (sheet ss tail)) (edited ss)

/-- The blanks that go are whole characters of the text as it is. -/
def CutsFit : List Section → Prop
  | [] => True
  | s :: ss => CutsFit ss ∧ ((modifyList change s.selector).found = false →
      IsBoundary (indentSize (sheet ss tail)) (edited change tail ss))

end Outcome

/-! ## The edits, section by section -/

theorem size_trimStart_le (t : Text) : size (trimStart t) ≤ size t := by
  obtain ⟨blanks, heq, -⟩ := exists_append_trimStart t
  have hsize := congrArg size heq
  rw [size_append] at hsize
  omega

theorem Section.text_eq (s : Section) :
    s.text = s.lead ++ s.selector ++ s.gap ++ '\x7b' :: (s.body ++ s.close) := by
  simp [Section.text, Section.block]

section Edits

variable {change : Change} {before tail : Text} {s : Section} {ss : List Section} {r : Rule}

/-- A rule goes up to the end of its section and the blanks behind it. -/
theorem ruleStop_eq (hrule : s.Shows (size before) r)
    (hclose : s.close = ['\x7d'] ∨ s.close = [] ∧ sheet ss tail = []) :
    ruleStop (before ++ (s.text ++ sheet ss tail)) r =
      size (before ++ s.text) + indentSize (sheet ss tail) := by
  have hfront : size (before ++ s.lead ++ s.selector ++ s.gap ++ '\x7b' :: s.body) =
      r.bodySpan.stop := by
    have hbrace : Char.utf8Size '\x7b' = 1 := rfl
    rw [hrule.bodySpan_eq]
    simp [hbrace]
    omega
  have hsource : before ++ (s.text ++ sheet ss tail) =
      (before ++ s.lead ++ s.selector ++ s.gap ++ '\x7b' :: s.body) ++
        (s.close ++ sheet ss tail) := by
    rw [Section.text_eq]
    simp
  have hbehind : (after? ['\x7d'] (s.close ++ sheet ss tail)).getD (s.close ++ sheet ss tail) =
      sheet ss tail := by
    rcases hclose with hclose | hclose
    · rw [hclose]
      rfl
    · rw [hclose.1, hclose.2]
      rfl
  have hle := size_trimStart_le (sheet ss tail)
  have hdrop : dropBytes r.bodySpan.stop (before ++ (s.text ++ sheet ss tail)) =
      s.close ++ sheet ss tail := by
    rw [hsource, ← hfront, dropBytes_size]
  unfold ruleStop indentSize
  simp only [hdrop, hbehind, size_append]
  omega

theorem fits_ruleEdit_iff (hrule : s.Shows (size before) r)
    (hclose : s.close = ['\x7d'] ∨ s.close = [] ∧ sheet ss tail = []) :
    (ruleEdit (before ++ (s.text ++ sheet ss tail)) r (modifyList change r.selector)).Fits
        (before ++ (s.text ++ edited change tail ss)) ↔
      ((modifyList change s.selector).found = false →
        IsBoundary (indentSize (sheet ss tail)) (edited change tail ss)) := by
  have hsplit : before ++ (s.text ++ edited change tail ss) =
      (before ++ s.lead) ++ (s.selector ++ (s.block ++ edited change tail ss)) := by
    simp [Section.text]
  have hstart : IsBoundary (size before + size s.lead)
      (before ++ (s.text ++ edited change tail ss)) := by
    rw [hsplit, ← size_append]
    exact isBoundary_size _ _
  rw [hrule.selector_eq]
  by_cases hfound : (modifyList change s.selector).found = true
  · rw [ruleEdit, if_pos hfound, hrule.selectorSpan_eq]
    have hend : IsBoundary (size before + size s.lead + size s.selector)
        (before ++ (s.text ++ edited change tail ss)) := by
      rw [hsplit, ← size_append, isBoundary_size_add]
      exact isBoundary_size _ _
    refine iff_of_true ⟨Nat.le_add_right _ _, hstart, hend⟩ ?_
    intro hnot
    rw [hfound] at hnot
    cases hnot
  · have hlast : IsBoundary (size (before ++ s.text) + indentSize (sheet ss tail))
        (before ++ (s.text ++ edited change tail ss)) ↔
        IsBoundary (indentSize (sheet ss tail)) (edited change tail ss) := by
      rw [← List.append_assoc, isBoundary_size_add]
    have hle : size before + size s.lead ≤
        size (before ++ s.text) + indentSize (sheet ss tail) := by
      simp [Section.text]
      omega
    rw [ruleEdit, if_neg hfound, ruleStop_eq hrule hclose, hrule.selectorSpan_eq]
    constructor
    · exact fun h _ => hlast.mp h.isBoundary_stop
    · exact fun h => ⟨hle, hstart, hlast.mpr (h (Bool.eq_false_iff.mpr hfound))⟩

/-- The edit of a rule, made when all edits behind its section are. -/
theorem apply_ruleEdit_eq_some_iff (hrule : s.Shows (size before) r)
    (hclose : s.close = ['\x7d'] ∨ s.close = [] ∧ sheet ss tail = []) {t : Text} :
    (ruleEdit (before ++ (s.text ++ sheet ss tail)) r (modifyList change r.selector)).apply
        (before ++ (s.text ++ edited change tail ss)) = some t ↔
      ((modifyList change s.selector).found = false →
        IsBoundary (indentSize (sheet ss tail)) (edited change tail ss)) ∧
      t = before ++ edited change tail (s :: ss) := by
  rw [Edit.apply_eq_some_iff, fits_ruleEdit_iff hrule hclose]
  refine and_congr_right fun _ => ?_
  rw [hrule.selector_eq]
  by_cases hfound : (modifyList change s.selector).found = true
  · have hsplit : before ++ (s.text ++ edited change tail ss) =
        (before ++ s.lead) ++ s.selector ++ (s.block ++ edited change tail ss) := by
      simp [Section.text]
    rw [ruleEdit, if_pos hfound, hrule.selectorSpan_eq, hsplit, ← size_append, replaceRange_append]
    simp [edited, hfound]
  · have htake : takeBytes (size (before ++ s.lead)) (before ++ (s.text ++ edited change tail ss)) =
        before ++ s.lead := by
      have hsplit : before ++ (s.text ++ edited change tail ss) =
          (before ++ s.lead) ++ (s.selector ++ s.block ++ edited change tail ss) := by
        simp [Section.text]
      rw [hsplit, takeBytes_size]
    rw [ruleEdit, if_neg hfound, ruleStop_eq hrule hclose, hrule.selectorSpan_eq, replaceRange,
      ← size_append, htake, ← List.append_assoc before, dropBytes_size_add]
    simp [edited, hfound]

end Edits

theorem indentSize_append {blanks : Text} (h : ∀ c ∈ blanks, isBlank c = true) (t : Text) :
    indentSize (blanks ++ t) = size blanks + indentSize t := by
  have hle := size_trimStart_le t
  unfold indentSize
  rw [trimStart_blanks_append h, size_append]
  omega

theorem indentSize_eq_zero_iff (t : Text) : indentSize t = 0 ↔ trimStart t = t := by
  obtain ⟨blanks, heq, hblank⟩ := exists_append_trimStart t
  have hsize := congrArg size heq
  rw [size_append] at hsize
  unfold indentSize
  constructor
  · intro h
    cases blanks with
    | nil => exact heq.symm
    | cons c blanks =>
        have hpos := c.utf8Size_pos
        rw [size_cons] at hsize
        omega
  · intro h
    rw [h, Nat.sub_self]

theorem applyAll_ruleEdits (change : Change) {start : Nat} {sections : List Section} {tail : Text}
    {rules : List Rule} (h : Laid start sections tail rules) {before : Text}
    (hbefore : size before = start) {t : Text} :
    let source := before ++ sheet sections tail
    let edits := rules.map fun r => ruleEdit source r (modifyList change r.selector)
    Edit.applyAll edits source = some t ↔
      CutsFit change tail sections ∧ t = before ++ edited change tail sections := by
  -- The edits behind a section leave its text and all in front of it, so that it can be counted to
  -- `before` for them.
  induction h generalizing before t with
  | @nil start tail =>
      intro source edits
      have hnothing : Edit.applyAll edits source = some (before ++ sheet [] tail) := rfl
      rw [hnothing, Option.some.injEq, eq_comm]
      exact (and_iff_right trivial).symm
  | @cons start s ss tail r rs hrule hclose hrest ih =>
      have hsize : size (before ++ s.text) = start + size s.text := by rw [size_append, hbefore]
      have hbehind := fun t' => ih hsize (t := t')
      simp only [List.append_assoc] at hbehind
      rw [← hbefore] at hrule
      intro source edits
      have hsource : source = before ++ (s.text ++ sheet ss tail) := by
        simp only [source]
        rw [sheet_cons]
      have hedits : edits = ruleEdit source r (modifyList change r.selector) ::
          rs.map fun r => ruleEdit source r (modifyList change r.selector) := rfl
      rw [hedits, hsource, Edit.applyAll_cons, Option.bind_eq_some_iff, CutsFit]
      simp only [hbehind]
      constructor
      · rintro ⟨_, ⟨hcuts, rfl⟩, happly⟩
        obtain ⟨hcut, ht⟩ := (apply_ruleEdit_eq_some_iff hrule hclose).mp happly
        exact ⟨⟨hcuts, hcut⟩, ht⟩
      · rintro ⟨⟨hcuts, hcut⟩, ht⟩
        exact ⟨_, ⟨hcuts, rfl⟩, (apply_ruleEdit_eq_some_iff hrule hclose).mpr ⟨hcut, ht⟩⟩

/-! ## Edits that do not overlap -/

section Outcome

variable {change : Change} {ss : List Section}

def cutSheet (tail : Text) : List Section → Text
  | [] => trimStart tail
  | s :: ss => trimStart s.lead ++ s.selector ++ s.block ++ sheet ss tail

/-- What is to become of a text is the same with and without the blanks in front, but for them. -/
theorem exists_cut (change : Change) (tail : Text) (ss : List Section) :
    ∃ blanks, (∀ c ∈ blanks, isBlank c = true) ∧ sheet ss tail = blanks ++ cutSheet tail ss ∧
      rewritten change tail false ss = blanks ++ rewritten change tail true ss := by
  cases ss with
  | nil =>
      obtain ⟨blanks, heq, hblank⟩ := exists_append_trimStart tail
      exact ⟨blanks, hblank, heq, heq⟩
  | cons s ss =>
      obtain ⟨blanks, heq, hblank⟩ := exists_append_trimStart s.lead
      refine ⟨blanks, hblank, ?_, ?_⟩
      · rw [sheet_cons, cutSheet]
        simp only [← List.append_assoc, ← heq, Section.text]
      · simp only [rewritten, Bool.false_eq_true, if_false, if_true]
        split <;> simp only [← List.append_assoc, ← heq]

/-- The text that is to be left after a rule that goes begins with no blank. -/
theorem trimStart_rewritten (change : Change) (tail : Text) (ss : List Section) :
    trimStart (rewritten change tail true ss) = rewritten change tail true ss := by
  induction ss with
  | nil => exact trimStart_trimStart tail
  | cons s ss ih =>
      have hcut : ∀ t, trimStart t = t →
          trimStart (trimStart s.lead ++ t) = trimStart s.lead ++ t := by
        intro t ht
        by_cases hnil : trimStart s.lead = []
        · rw [hnil]
          exact ht
        · rw [← trimStart_trimStart s.lead] at hnil
          rw [trimStart_append hnil, trimStart_trimStart]
      simp only [rewritten, if_true]
      split
      next hfound =>
        have hsolid := (beginsSolid_modifyList hfound).append
          (s.block ++ rewritten change tail false ss)
        simpa using hcut _ hsolid.trimStart_eq
      next => exact hcut _ ih

theorem standsOut_iff (s : Section) (ss : List Section) (tail : Text) :
    s.StandsOut ↔ trimStart (cutSheet tail (s :: ss)) = cutSheet tail (s :: ss) := by
  obtain ⟨blanks, heq, hblank⟩ := exists_append_trimStart s.lead
  have htext : s.text = blanks ++ (trimStart s.lead ++ s.selector ++ s.block) := by
    rw [Section.text, ← List.append_assoc, ← List.append_assoc, ← heq]
  have hne : trimStart (trimStart s.lead ++ s.selector ++ s.block) ≠ [] := by
    intro hnil
    have hbrace := isBlank_of_trimStart_eq_nil hnil '\x7b' (by simp [Section.block])
    revert hbrace
    decide
  rw [Section.StandsOut, htext, trimStart_blanks_append hblank, cutSheet, trimStart_append hne,
    List.append_cancel_right_eq]

theorem head_standsOut_iff (tail : Text) (ss : List Section) :
    (∀ s ∈ ss.head?, s.StandsOut) ↔ indentSize (cutSheet tail ss) = 0 := by
  rw [indentSize_eq_zero_iff]
  cases ss with
  | nil => exact iff_of_true (by simp) (trimStart_trimStart tail)
  | cons s ss =>
      rw [← standsOut_iff]
      simp

theorem apart_cons_iff {s : Section} {ss : List Section} :
    Apart change (s :: ss) ↔
      ((modifyList change s.selector).found = false → ∀ s' ∈ ss.head?, s'.StandsOut) ∧
        Apart change ss := by
  unfold Apart
  rw [List.isChain_cons]
  constructor
  · exact fun h => ⟨fun hfound s' hs' => h.1 s' hs' hfound, h.2⟩
  · exact fun h => ⟨fun s' hs' hfound => h.1 hfound s' hs', h.2⟩

theorem edited_of_apart (tail : Text) (h : Apart change ss) :
    edited change tail ss = rewritten change tail false ss ∧ CutsFit change tail ss := by
  induction ss with
  | nil => exact ⟨rfl, trivial⟩
  | cons s ss ih =>
      obtain ⟨hhead, hrest⟩ := apart_cons_iff.mp h
      obtain ⟨heq, hfit⟩ := ih hrest
      by_cases hfound : (modifyList change s.selector).found = true
      · refine ⟨?_, hfit, fun hnot => absurd (hfound.symm.trans hnot) (by decide)⟩
        simp [edited, rewritten, hfound, heq]
      · obtain ⟨blanks, hblank, hsheet, hrewritten⟩ := exists_cut change tail ss
        have hzero := (head_standsOut_iff tail ss).mp (hhead (Bool.eq_false_iff.mpr hfound))
        have hindent : indentSize (sheet ss tail) = size blanks := by
          rw [hsheet, indentSize_append hblank, hzero, Nat.add_zero]
        refine ⟨?_, hfit, fun _ => ?_⟩
        · simp only [edited, rewritten, hfound, Bool.false_eq_true, if_false]
          rw [hindent, heq, hrewritten, dropBytes_size]
        · rw [hindent, heq, hrewritten]
          exact isBoundary_size _ _

/-- Where the edits fit, no more is left than there should be, and less if any of them overlap. -/
theorem inked_edited {tail : Text} (hfit : CutsFit change tail ss) :
    inked (edited change tail ss) ≤ inked (rewritten change tail false ss) ∧
      (inked (edited change tail ss) = inked (rewritten change tail false ss) →
        Apart change ss) := by
  induction ss with
  | nil => exact ⟨Nat.le_refl _, fun _ => .nil⟩
  | cons s ss ih =>
      obtain ⟨hle, hapart⟩ := ih hfit.1
      rw [apart_cons_iff]
      by_cases hfound : (modifyList change s.selector).found = true
      · simp only [edited, rewritten, hfound, if_true, inked_append, Bool.false_eq_true, if_false]
        refine ⟨by omega, fun heq => ⟨fun hnot => ?_, hapart (by omega)⟩⟩
        cases hnot
      · obtain ⟨blanks, hblank, hsheet, hrewritten⟩ := exists_cut change tail ss
        have hcut := hfit.2 (Bool.eq_false_iff.mpr hfound)
        have hdrop := inked_dropBytes_le (indentSize (sheet ss tail)) (edited change tail ss)
        have hkeep : inked (rewritten change tail false ss) =
            inked (rewritten change tail true ss) := by
          rw [hrewritten, inked_append, inked_blanks hblank, Nat.zero_add]
        simp only [edited, rewritten, hfound, inked_append, Bool.false_eq_true, if_false]
        refine ⟨by omega, fun heq => ?_⟩
        have hall : Apart change ss := hapart (by omega)
        refine ⟨fun _ => (head_standsOut_iff tail ss).mpr ?_, hall⟩
        have hindent : indentSize (sheet ss tail) =
            size blanks + indentSize (cutSheet tail ss) := by
          rw [hsheet, indentSize_append hblank]
        rw [(edited_of_apart tail hall).1, hindent, hrewritten] at hcut hdrop heq
        rw [dropBytes_size_add] at heq
        -- Beyond the blanks of the lead, the cut would begin at a character that is none.
        by_contra hne
        have hlt := inked_dropBytes_lt (trimStart_rewritten change tail ss) hne
          (isBoundary_size_add.mp hcut)
        omega

end Outcome

/-! ## Rulesets under modifiers -/

theorem modifyRules_eq_some_iff {change : Change} {css : Text} {sections : List Section}
    {tail : Text} (hsource : trim css = sheet sections tail)
    (hlaid : Laid 0 sections tail ((parse (trim css)).rules.filter (!·.isKeyframe)))
    {m : ModifiedText} :
    modifyRules change css = some m ↔ CutsFit change tail sections ∧
      m = ⟨trimEnd (edited change tail sections),
        ((parse (trim css)).rules.filter (!·.isKeyframe)).flatMap fun r =>
          (modifyList change r.selector).skipped⟩ := by
  have hedits := fun t => applyAll_ruleEdits change hlaid size_nil (t := t)
  simp only [List.nil_append, ← hsource] at hedits
  simp only [modifyRules, List.map_map, List.flatMap_map, Option.map_eq_some_iff]
  constructor
  · rintro ⟨t, happly, rfl⟩
    obtain ⟨hcuts, rfl⟩ := (hedits t).mp happly
    exact ⟨hcuts, rfl⟩
  · rintro ⟨hcuts, rfl⟩
    exact ⟨_, (hedits _).mpr ⟨hcuts, rfl⟩, rfl⟩

theorem modify_eq_modifyRules (className newName states pseudoElement css : Text) :
    modify className newName { states, pseudoElement } css =
      modifyRules { className, newName, states, pseudoElement } css := by
  have hwithin : ∀ m : ModifiedText,
      m.within (Placement.headers { states, pseudoElement }) = m := fun m => ite_self m
  simp only [modify, hwithin, Option.map_id_fun']
  rfl

/-- Without blocks around it, the text is edited as it should be exactly when no rule that goes is
followed, but for blanks, by a rule that begins with a blank. -/
theorem modify_eq_rewritten_iff (className newName states pseudoElement css : Text) :
    let change : Change := { className, newName, states, pseudoElement }
    let source := trim css
    let rules := (parse source).rules.filter (!·.isKeyframe)
    let skipped := rules.flatMap fun r => (modifyList change r.selector).skipped
    let modified := modify className newName { states, pseudoElement } css
    (∀ result, modified = some result → result.skipped = skipped) ∧
      ∃ sections tail, source = sheet sections tail ∧ Laid 0 sections tail rules ∧
        (modified = some ⟨trimEnd (rewritten change tail false sections), skipped⟩ ↔
          Apart change sections) := by
  intro change source rules skipped modified
  have hmodified : modified = modifyRules change css := modify_eq_modifyRules _ _ _ _ _
  obtain ⟨sections, tail, hsource, hlaid, _⟩ := (shown_parse source).filter (!·.isKeyframe)
  rw [hmodified]
  refine ⟨fun result hresult => ?_, sections, tail, hsource, hlaid, ?_⟩
  · obtain ⟨-, rfl⟩ := (modifyRules_eq_some_iff hsource hlaid).mp hresult
    rfl
  rw [modifyRules_eq_some_iff hsource hlaid]
  constructor
  · rintro ⟨hcuts, hresult⟩
    -- Trimming takes blanks only, so the two texts have as many other characters.
    have hinked := congrArg (fun m => inked m.css) hresult
    simp only [inked_trimEnd] at hinked
    exact (inked_edited hcuts).2 hinked.symm
  · intro h
    obtain ⟨heq, hcuts⟩ := edited_of_apart tail h
    exact ⟨hcuts, by rw [heq]⟩

/-- A rule that goes, and one with the class that begins with a no-break space. -/
def overlapping : List Section :=
  [⟨[], ['.', 'b'], [], [], ['\x7d']⟩, ⟨[], ['\u00a0', '.', 'a'], [], ['c', ':', 'd'], ['\x7d']⟩]

/-- The first two characters of the changed selector are lost. -/
theorem modify_overlapping :
    let change : Change := {
      className := ['a'], newName := ['h', 'o', 'v', 'e', 'r', '\x5c', ':', 'a'],
      states := [':', 'h', 'o', 'v', 'e', 'r'], pseudoElement := [] }
    let source := sheet overlapping []
    trim source = source ∧
      Laid 0 overlapping [] ((parse source).rules.filter (!·.isKeyframe)) ∧
      trimEnd (rewritten change [] false overlapping) =
        ['.', 'h', 'o', 'v', 'e', 'r', '\x5c', ':', 'a', ':', 'h', 'o', 'v', 'e', 'r',
          '\x7b', 'c', ':', 'd', '\x7d'] ∧
      modify change.className change.newName { states := change.states } source =
        some { css := ['o', 'v', 'e', 'r', '\x5c', ':', 'a', ':', 'h', 'o', 'v', 'e', 'r',
          '\x7b', 'c', ':', 'd', '\x7d'] } := by
  intro change source
  have hrules : (parse source).rules.filter (!·.isKeyframe) =
      [⟨['.', 'b'], [], ⟨0, 2⟩, ⟨3, 3⟩, []⟩,
        ⟨['\u00a0', '.', 'a'], ['c', ':', 'd'], ⟨4, 8⟩, ⟨9, 12⟩, []⟩] := by
    decide +kernel
  have hlaid : Laid 0 overlapping [] ((parse source).rules.filter (!·.isKeyframe)) := by
    rw [hrules]
    have hgap : ∀ c ∈ [], isBlank c = true := fun c hc => absurd hc List.not_mem_nil
    exact .cons ⟨rfl, by decide, by decide, by decide, hgap⟩ (Or.inl rfl)
      (.cons ⟨rfl, by decide, by decide, by decide, hgap⟩ (Or.inl rfl) .nil)
  refine ⟨by decide, hlaid, ?_, ?_⟩
  · decide +kernel
  · decide +kernel

end UtilityCss.Ruleset
