import UtilityCss.Proofs.Ruleset.Entries
import UtilityCss.Proofs.Text.Trim

/-!
# Rules in their places

The rules of a text stand in it one behind the other, so that the text falls into sections, one for
each rule, and a tail. What is not read as a rule is part of a lead or of the tail.
-/

namespace UtilityCss.Ruleset

open Text Css

/-- A rule as the text shows it, and what stands between it and the rule before it. -/
structure Section where
  lead : Text
  selector : Text
  /-- The blanks behind the selector. -/
  gap : Text
  body : Text
  /-- The closing brace, or nothing where the text ends without one. -/
  close : Text

namespace Section

def block (s : Section) : Text :=
  s.gap ++ '\x7b' :: (s.body ++ s.close)

def text (s : Section) : Text :=
  s.lead ++ s.selector ++ s.block

structure Shows (s : Section) (start : Nat) (r : Rule) : Prop where
  selector_eq : r.selector = s.selector
  declarations_eq : r.declarations = trim s.body
  selectorSpan_eq : r.selectorSpan =
    ⟨start + size s.lead, start + size s.lead + size s.selector⟩
  bodySpan_eq : r.bodySpan =
    ⟨start + size (s.lead ++ s.selector ++ s.gap) + 1,
      start + size (s.lead ++ s.selector ++ s.gap) + 1 + size s.body⟩
  blank_gap : ∀ c ∈ s.gap, isBlank c = true

end Section

def sheet (sections : List Section) (tail : Text) : Text :=
  sections.flatMap Section.text ++ tail

/-- The sections show the rules, the first one starting at byte `start`, and all of them are closed
but perhaps the last, with nothing behind it. -/
inductive Laid : Nat → List Section → Text → List Rule → Prop where
  | nil {start : Nat} {tail : Text} : Laid start [] tail []
  | cons {start : Nat} {s : Section} {ss : List Section} {tail : Text} {r : Rule} {rs : List Rule}
      (hrule : s.Shows start r) (hclose : s.close = ['\x7d'] ∨ s.close = [] ∧ sheet ss tail = [])
      (hrest : Laid (start + size s.text) ss tail rs) : Laid start (s :: ss) tail (r :: rs)

theorem sheet_cons (s : Section) (ss : List Section) (tail : Text) :
    sheet (s :: ss) tail = s.text ++ sheet ss tail := by
  simp [sheet]

theorem sheet_append (ss ss' : List Section) (tail : Text) :
    sheet (ss ++ ss') tail = sheet ss [] ++ sheet ss' tail := by
  simp [sheet]

def BlocksClose (ls : List Lexeme) : Prop :=
  ∀ before behind, ls = before ++ .symbol '\x7b' :: behind → (splitBody 0 behind).2 ≠ []

theorem BlocksClose.of_append {ls' : List Lexeme} (ls : List Lexeme)
    (h : BlocksClose (ls ++ ls')) : BlocksClose ls' := by
  intro before behind heq
  exact h (ls ++ before) behind (by rw [heq, List.append_assoc])

theorem depthBehind_add {depth : Nat} {l : Lexeme} (h : ¬ (depth = 0 ∧ l = .symbol '\x7d'))
    (extra : Nat) : depthBehind (depth + extra) l = depthBehind depth l + extra := by
  unfold depthBehind
  by_cases hopen : l = .symbol '\x7b'
  · rw [if_pos hopen, if_pos hopen]
    omega
  · by_cases hclose : l = .symbol '\x7d'
    · have hdepth : depth ≠ 0 := fun hzero => h ⟨hzero, hclose⟩
      rw [if_neg hopen, if_pos hclose, if_neg hopen, if_pos hclose]
      omega
    · rw [if_neg hopen, if_neg hclose, if_neg hopen, if_neg hclose]

theorem splitBody_stop {depth : Nat} {ls body left : List Lexeme} {stop : Lexeme}
    (h : splitBody depth ls = (body, stop :: left)) : stop = .symbol '\x7d' := by
  induction ls generalizing depth body with
  | nil => cases h
  | cons l ls ih =>
      by_cases hstop : depth = 0 ∧ l = .symbol '\x7d'
      · rw [hstop.1, hstop.2, splitBody_close] at h
        cases h
        rfl
      · rw [splitBody_cons hstop, Prod.mk.injEq] at h
        exact ih (Prod.ext rfl h.2)

/-- A body that begins with a stretch is read on behind it, at some depth, as any other is. -/
theorem splitBody_behind {depth : Nat} {before ls body left : List Lexeme}
    (h : splitBody depth (before ++ ls) = (before ++ body, left)) :
    ∃ deeper, splitBody deeper ls = (body, left) ∧
      ∀ rest, splitBody depth (before ++ rest) =
        (before ++ (splitBody deeper rest).1, (splitBody deeper rest).2) := by
  induction before generalizing depth with
  | nil => exact ⟨depth, h, fun _ => rfl⟩
  | cons l before ih =>
      rw [List.cons_append, List.cons_append] at h
      by_cases hstop : depth = 0 ∧ l = .symbol '\x7d'
      · rw [hstop.1, hstop.2, splitBody_close] at h
        cases h
      · rw [splitBody_cons hstop, Prod.mk.injEq, List.cons.injEq] at h
        obtain ⟨deeper, hread, hother⟩ := ih (Prod.ext h.1.2 h.2)
        refine ⟨deeper, hread, fun rest => ?_⟩
        rw [List.cons_append, splitBody_cons hstop, hother, List.cons_append]

/-- A block that is never closed leaves a block around it open at any brace behind it. -/
theorem splitBody_deeper_ne {depth : Nat} {ls : List Lexeme} (h : (splitBody depth ls).2 = [])
    (extra : Nat) (rest : List Lexeme) :
    (splitBody (depth + (extra + 1)) (ls ++ .symbol '\x7d' :: rest)).1 ≠ ls := by
  induction ls generalizing depth with
  | nil =>
      rw [List.nil_append, splitBody_cons (by omega)]
      exact List.cons_ne_nil _ _
  | cons l ls ih =>
      -- Both readings go on, as the one at the smaller depth does not stop here.
      have hstop : ¬ (depth = 0 ∧ l = .symbol '\x7d') := by
        intro hstop
        rw [hstop.1, hstop.2, splitBody_close] at h
        cases h
      rw [splitBody_cons hstop] at h
      rw [List.cons_append, splitBody_cons (by omega), depthBehind_add hstop]
      intro heq
      exact ih h (List.cons.inj heq).2

/-- Inside a body that is closed, every block is. -/
theorem blocksClose_of_splitBody {ls body left : List Lexeme} {stop : Lexeme}
    (h : splitBody 0 ls = (body, stop :: left)) : BlocksClose body := by
  intro before behind heq hopen
  have hstop := splitBody_stop h
  have happend := splitBody_append 0 ls
  rw [h, hstop, heq, List.append_assoc, List.cons_append] at happend
  rw [← happend, heq, hstop] at h
  obtain ⟨depth, hdepth, -⟩ := splitBody_behind h
  have hinner : splitBody (depth + 1) (behind ++ .symbol '\x7d' :: left) =
      (behind, .symbol '\x7d' :: left) := by
    rw [splitBody_cons (by simp), Prod.mk.injEq, List.cons.injEq] at hdepth
    exact Prod.ext hdepth.1.2 hdepth.2
  have hne := splitBody_deeper_ne hopen depth left
  rw [Nat.zero_add, hinner] at hne
  exact hne rfl

theorem splitPrelude_stop_size {depth : Nat} {ls head left : List Lexeme} {stop : Lexeme}
    (h : splitPrelude depth ls = (head, stop :: left)) : size stop.text = 1 := by
  induction ls generalizing depth head with
  | nil => cases h
  | cons l ls ih =>
      cases l with
      | symbol c =>
          rw [splitPrelude] at h
          split at h
          next hstop =>
            cases h
            rcases hstop.2 with hc | hc | hc <;> rw [hc] <;> rfl
          next =>
            rw [Prod.mk.injEq] at h
            exact ih (Prod.ext rfl h.2)
      | verbatim t =>
          simp only [splitPrelude, Prod.mk.injEq] at h
          exact ih (Prod.ext rfl h.2)
      | comment t =>
          simp only [splitPrelude, Prod.mk.injEq] at h
          exact ih (Prod.ext rfl h.2)

/-! ## Texts that show rules -/

/-- The text, from byte `start` on, falls into sections that show the rules; when all its blocks
close, the text can go on behind it. -/
def Shown (closed : Prop) (start : Nat) (rs : List Rule) (t : Text) : Prop :=
  ∃ sections tail, t = sheet sections tail ∧ Laid start sections tail rs ∧
    (closed → ∀ s ∈ sections, s.close = ['\x7d'])

theorem Shown.nil {closed : Prop} {start : Nat} (t : Text) : Shown closed start [] t :=
  ⟨[], t, rfl, .nil, fun _ _ hs => absurd hs List.not_mem_nil⟩

def Section.behind (front : Text) (s : Section) : Section :=
  { s with lead := front ++ s.lead }

theorem Section.text_behind (front : Text) (s : Section) :
    (s.behind front).text = front ++ s.text := by
  simp [Section.behind, Section.text, Section.block]

theorem Laid.behind {start : Nat} {front tail : Text} {first : Section} {ss : List Section}
    {rs : List Rule} (h : Laid (start + size front) (first :: ss) tail rs) :
    Laid start (first.behind front :: ss) tail rs := by
  cases h with
  | @cons _ _ _ _ r rs hrule hclose hrest =>
      have hshows : (first.behind front).Shows start r := by
        refine ⟨hrule.selector_eq, hrule.declarations_eq, ?_, ?_, hrule.blank_gap⟩
        · rw [hrule.selectorSpan_eq]
          simp [Section.behind, Nat.add_assoc]
        · rw [hrule.bodySpan_eq]
          simp [Section.behind, Nat.add_assoc]
      have hstart : start + size (first.behind front).text =
          start + size front + size first.text := by
        rw [Section.text_behind, size_append, Nat.add_assoc]
      exact .cons hshows hclose (by rw [hstart]; exact hrest)

/-- What stands in front is part of the first lead, or of the tail. -/
theorem Shown.behind {closed : Prop} {start : Nat} {rs : List Rule} {t : Text} (s : Text)
    (h : Shown closed (start + size s) rs t) : Shown closed start rs (s ++ t) := by
  obtain ⟨sections, tail, heq, hlaid, hclosed⟩ := h
  cases sections with
  | nil =>
      cases hlaid
      exact ⟨[], s ++ tail, by rw [heq]; rfl, .nil, hclosed⟩
  | cons first ss =>
      refine ⟨first.behind s :: ss, tail, ?_, hlaid.behind, ?_⟩
      · rw [heq, sheet_cons, sheet_cons, Section.text_behind, List.append_assoc]
      · intro hc x hx
        rcases List.mem_cons.mp hx with hx | hx
        · rw [hx]
          exact hclosed hc first List.mem_cons_self
        · exact hclosed hc x (List.mem_cons_of_mem first hx)

theorem Laid.append {start : Nat} {ss ss' : List Section} {tail : Text} {rs rs' : List Rule}
    (h : Laid start ss [] rs) (hclosed : ∀ s ∈ ss, s.close = ['\x7d'])
    (h' : Laid (start + size (sheet ss [])) ss' tail rs') :
    Laid start (ss ++ ss') tail (rs ++ rs') := by
  induction ss generalizing start rs with
  | nil =>
      cases h
      exact h'
  | cons s ss ih =>
      cases h with
      | cons hrule hclose hrest =>
          rw [sheet_cons, size_append, ← Nat.add_assoc] at h'
          have hs := hclosed s List.mem_cons_self
          have hss : ∀ x ∈ ss, x.close = ['\x7d'] := fun x hx => hclosed x (List.mem_cons_of_mem s hx)
          exact .cons hrule (Or.inl hs) (ih hrest hss h')

theorem Laid.of_tail {start : Nat} {ss : List Section} {tail : Text} {rs : List Rule}
    (h : Laid start ss tail rs) (hclosed : ∀ s ∈ ss, s.close = ['\x7d']) (tail' : Text) :
    Laid start ss tail' rs := by
  induction h with
  | nil => exact .nil
  | @cons start s ss tail r rs hrule hclose hrest ih =>
      have hs := hclosed s List.mem_cons_self
      exact .cons hrule (Or.inl hs) (ih fun x hx => hclosed x (List.mem_cons_of_mem s hx))

theorem Shown.append {closed : Prop} {start : Nat} {rs rs' : List Rule} {s t : Text}
    (h : Shown True start rs s) (h' : Shown closed (start + size s) rs' t) :
    Shown closed start (rs ++ rs') (s ++ t) := by
  obtain ⟨ss, tail, heq, hlaid, hclosed⟩ := h
  have hs := hclosed trivial
  have hsize : start + size s = start + size (sheet ss []) + size tail := by
    rw [heq]
    simp [sheet, Nat.add_assoc]
  rw [hsize] at h'
  obtain ⟨ss', tail', heq', hlaid', hclosed'⟩ := h'.behind tail
  refine ⟨ss ++ ss', tail', ?_, (hlaid.of_tail hs []).append hs hlaid', ?_⟩
  · rw [sheet_append, ← heq', heq]
    simp [sheet]
  · intro hc x hx
    rcases List.mem_append.mp hx with hx | hx
    · exact hs x hx
    · exact hclosed' hc x hx

theorem Shown.filter {closed : Prop} {start : Nat} {rs : List Rule} {t : Text}
    (h : Shown closed start rs t) (p : Rule → Bool) : Shown closed start (rs.filter p) t := by
  obtain ⟨sections, tail, heq, hlaid, hclosed⟩ := h
  subst heq
  induction hlaid with
  | nil => exact .nil _
  | @cons start s ss tail r rs hrule hclose hrest ih =>
      have hss := ih fun hc x hx => hclosed hc x (List.mem_cons_of_mem s hx)
      rw [sheet_cons, List.filter_cons]
      by_cases hp : p r = true
      · rw [if_pos hp]
        obtain ⟨ss', tail', heq', hlaid', hclosed'⟩ := hss
        have hclose' : s.close = ['\x7d'] ∨ s.close = [] ∧ sheet ss' tail' = [] := by
          rw [← heq']
          exact hclose
        refine ⟨s :: ss', tail', ?_, .cons hrule hclose' hlaid', ?_⟩
        · rw [heq', sheet_cons]
        · intro hc x hx
          rcases List.mem_cons.mp hx with hx | hx
          · rw [hx]
            exact hclosed hc s List.mem_cons_self
          · exact hclosed' hc x hx
      · rw [if_neg hp]
        exact hss.behind s.text

theorem Section.size_text (s : Section) :
    size s.text = size (s.lead ++ s.selector ++ s.gap) + 1 + size s.body + size s.close := by
  have hbrace : Char.utf8Size '\x7b' = 1 := rfl
  simp only [Section.text, Section.block, size_append, size_cons, hbrace]
  omega

theorem Section.shows_ruleAt {selector gap body close : Text} {start : Nat} {atRules : List Text}
    (htrim : trimEnd (selector ++ gap) = selector) (hgap : ∀ c ∈ gap, isBlank c = true) :
    Section.Shows ⟨[], selector, gap, body, close⟩ start
      (ruleAt atRules start (selector ++ gap) body) := by
  refine ⟨htrim, rfl, ?_, rfl, hgap⟩
  simp only [ruleAt, htrim, size_nil, Nat.add_zero]

theorem Shown.rule {closed : Prop} {start : Nat} {rs : List Rule} {prelude body close t : Text}
    (atRules : List Text) (hclose : close = ['\x7d'] ∨ close = [] ∧ t = [] ∧ ¬ closed)
    (h : Shown closed (start + size prelude + 1 + size body + size close) rs t) :
    Shown closed start (ruleAt atRules start prelude body :: rs)
      (prelude ++ '\x7b' :: (body ++ (close ++ t))) := by
  obtain ⟨gap, hgap, hblank⟩ := exists_trimEnd_append prelude
  obtain ⟨ss, tail, heq, hlaid, hclosed⟩ := h
  let s : Section := ⟨[], trimEnd prelude, gap, body, close⟩
  have htext : s.text = prelude ++ '\x7b' :: (body ++ close) := by
    simp [s, Section.text, Section.block, ← List.append_assoc, ← hgap]
  have hsize : size s.text = size prelude + 1 + size body + size close := by
    have hprelude : s.lead ++ s.selector ++ s.gap = prelude := hgap.symm
    rw [Section.size_text, hprelude]
  have hshows : s.Shows start (ruleAt atRules start prelude body) := by
    rw [hgap]
    exact Section.shows_ruleAt (by rw [← hgap]) hblank
  refine ⟨s :: ss, tail, ?_, .cons hshows ?_ ?_, ?_⟩
  · rw [sheet_cons, htext, ← heq]
    simp
  · rcases hclose with hclose | hclose
    · exact Or.inl hclose
    · exact Or.inr ⟨hclose.1, heq ▸ hclose.2.1⟩
  · rw [hsize, ← Nat.add_assoc, ← Nat.add_assoc, ← Nat.add_assoc]
    exact hlaid
  · intro hc x hx
    rcases List.mem_cons.mp hx with hx | hx
    · rcases hclose with hclose | hclose
      · rw [hx]
        exact hclose
      · exact absurd hc hclose.2.2
    · exact hclosed hc x hx

theorem Shown.block {closed : Prop} {start : Nat} {prelude : Text} (atRules : List Text)
    {left body ending : List Lexeme} {here : List Rule} (hsplit : splitBody 0 left = (body, ending))
    (hclosed : closed → ending ≠ [])
    (hhere : here = [ruleAt atRules start prelude (textOf body)] ∨
      ∀ inner : Prop, (inner → BlocksClose body) →
        Shown inner (start + size prelude + 1) here (textOf body))
    {rs : List Rule} (hrest : Shown closed (start + size prelude + 1 + size (textOf body) + 1) rs
      (textOf (ending.drop 1))) (hempty : ending = [] → rs = []) :
    Shown closed start (here ++ rs) (prelude ++ '\x7b' :: textOf left) := by
  have hopen (t : Text) : prelude ++ '\x7b' :: t = (prelude ++ ['\x7b']) ++ t := by simp
  have hstart : start + size (prelude ++ ['\x7b']) = start + size prelude + 1 := by
    rw [size_append, ← Nat.add_assoc]
    rfl
  have hleft := splitBody_append 0 left
  rw [hsplit] at hleft
  rw [← hleft, textOf_append]
  cases ending with
  | nil =>
      have hnot : ¬ closed := fun hc => hclosed hc rfl
      rw [hempty rfl, List.append_nil]
      rcases hhere with hhere | hhere
      · rw [hhere]
        have hend : Shown closed (start + size prelude + 1 + size (textOf body) + size []) [] [] :=
          .nil []
        exact hend.rule atRules (Or.inr ⟨rfl, rfl, hnot⟩)
      · rw [hopen]
        refine Shown.behind _ ?_
        rw [hstart]
        simpa [textOf] using hhere closed fun hc => absurd hc hnot
  | cons stop behind =>
      have hstop := splitBody_stop hsplit
      have hbehind : textOf (stop :: behind) = ['\x7d'] ++ textOf behind := by
        rw [hstop]
        rfl
      rw [hbehind]
      rcases hhere with hhere | hhere
      · rw [hhere]
        exact Shown.rule atRules (Or.inl rfl) hrest
      · have hbody := hhere True fun _ => blocksClose_of_splitBody hsplit
        have htail : Shown closed (start + size prelude + 1 + size (textOf body)) rs
            (['\x7d'] ++ textOf behind) := Shown.behind _ hrest
        rw [hopen]
        refine Shown.behind _ ?_
        rw [hstart]
        exact hbody.append htail

theorem shown_entries (atRules : List Text) (start : Nat) (ls : List Lexeme) :
    ∀ closed : Prop, (closed → BlocksClose ls) →
      Shown closed start ((entries atRules start ls).filterMap Entry.rule?) (textOf ls) := by
  -- Along the reading, for both values of `closed`: the rules in a body that closes are closed
  -- themselves, and a body that does not close has no text behind it.
  fun_induction entries atRules start ls with
  | case1 => exact fun _ _ => .nil _
  | case2 atRules start t rest here ih =>
      intro closed hclosed
      have hhere : here.filterMap Entry.rule? = [] := by
        simp only [here]
        split <;> rfl
      rw [List.filterMap_append, hhere, List.nil_append]
      exact (ih closed fun hc => (hclosed hc).of_append [.comment t]).behind t
  | case3 atRules start l rest hl hfiller ih =>
      intro closed hclosed
      exact (ih closed fun hc => (hclosed hc).of_append [l]).behind l.text
  | case4 => exact fun _ _ => .nil _
  | case5 atRules start l rest hl hfiller head left prelude bodyStart body ending hsplitBody here
      hsplit ihbody ih =>
      intro closed hclosed
      have hls : l :: rest = head ++ .symbol '\x7b' :: left := by
        rw [← splitPrelude_append 0 (l :: rest), hsplit]
      have htext : textOf (l :: rest) = prelude ++ '\x7b' :: textOf left := by
        rw [hls, textOf_append, textOf_cons]
        rfl
      have hopen : closed → ending ≠ [] := by
        intro hc
        have hblocks := hclosed hc head left hls
        rwa [hsplitBody] at hblocks
      rw [htext, List.filterMap_append]
      have hempty : ending = [] →
          (entries atRules (bodyStart + size (textOf body) + 1) (ending.drop 1)).filterMap
            Entry.rule? = [] := by
        intro hend
        rw [hend, List.drop_nil, entries_nil]
        rfl
      refine Shown.block atRules hsplitBody hopen ?_ (ih closed ?_) hempty
      · by_cases hat : prelude.head? = some '@'
        · right
          intro inner hinner
          by_cases hgrouping : Rule.isGrouping (trimEnd prelude) = true
          · simp only [here, dif_pos hat, dif_pos hgrouping]
            exact ihbody inner hinner
          · simp only [here, dif_pos hat, dif_neg hgrouping]
            exact .nil _
        · left
          simp only [here, dif_neg hat]
          rfl
      · intro hc
        have hleft : left = body ++ (ending.take 1 ++ ending.drop 1) := by
          rw [List.take_append_drop, ← splitBody_append 0 left, hsplitBody]
        have hbehind : l :: rest =
            (head ++ [.symbol '\x7b'] ++ body ++ ending.take 1) ++ ending.drop 1 := by
          rw [hls, hleft]
          simp only [List.append_assoc, List.cons_append, List.nil_append]
        have hblocks := hclosed hc
        rw [hbehind] at hblocks
        exact hblocks.of_append _
  | case6 atRules start l rest hl hfiller head stop left hsplit prelude bodyStart hstop ih =>
      intro closed hclosed
      have hls : l :: rest = (head ++ [stop]) ++ left := by
        rw [← splitPrelude_append 0 (l :: rest), hsplit, List.append_assoc]
        rfl
      have htext : textOf (l :: rest) = (prelude ++ stop.text) ++ textOf left := by
        rw [hls, textOf_append, textOf_append]
        simp [prelude, textOf]
      have hsize : start + size (prelude ++ stop.text) = bodyStart := by
        rw [size_append, splitPrelude_stop_size hsplit, ← Nat.add_assoc]
      rw [hls] at hclosed
      have hrest := ih closed fun hc => (hclosed hc).of_append _
      rw [htext]
      exact Shown.behind _ (by rw [hsize]; exact hrest)

/-- The rules of a style sheet stand in it one behind the other. -/
theorem shown_parse (css : Text) : Shown False 0 (parse css).rules css := by
  have h := shown_entries [] 0 (lexemes css) False False.elim
  rw [textOf_lexemes] at h
  exact h

end UtilityCss.Ruleset
