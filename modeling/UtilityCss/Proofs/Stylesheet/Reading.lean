import UtilityCss.Proofs.Stylesheet.Written

/-!
# Reading back a printed style sheet

To read a printed tree gives its style rules and its leading comments again. The lexemes of a
printed list of items stand for themselves whatever follows, close every brace that they open, and
are read to the contents of the items, at any place and inside any at-rules; each kind of item keeps
these three.
-/

namespace UtilityCss.Stylesheet

open Text Css Ruleset

def Separate (s : Text) (ls : List Lexeme) : Prop :=
  ∀ t, lexemes (s ++ t) = ls ++ lexemes t

theorem Separate.append {s s' : Text} {ls ls' : List Lexeme} (h : Separate s ls)
    (h' : Separate s' ls') : Separate (s ++ s') (ls ++ ls') := by
  intro t
  rw [List.append_assoc, h, h', List.append_assoc]

theorem IsBlanks.separate {ws : Text} (h : IsBlanks ws) : Separate ws (lexemes ws) := by
  intro t
  rw [h.lexemes_eq]
  exact lexemes_blanks_append h t

/-- Text that leaves nothing open, in front of a character that stands for itself. -/
theorem lexemes_whole_append {s : Text} (h : Whole s) {stop : Char}
    (hstop : stop = '\x7b' ∨ stop = ';' ∨ stop = '\x7d') (t : Text) :
    lexemes (s ++ stop :: t) = lexemes s ++ .symbol stop :: lexemes t := by
  have hne : (stop :: t).head? ≠ some '*' := by
    rcases hstop with heq | heq | heq <;> rw [heq, List.head?_cons] <;> decide
  have hlex : lexemes (stop :: t) = .symbol stop :: lexemes t := by
    rcases hstop with heq | heq | heq <;> subst heq <;>
      exact lexemes_symbol_cons (by decide) (by decide) (fun h => absurd h (by decide))
  rw [h.lexemes_append hne, hlex]

def EndsAtBrace (body : Text) : Prop :=
  ∀ t, lexemes (body ++ '\x7d' :: t) = lexemes body ++ .symbol '\x7d' :: lexemes t

theorem endsAtBrace_of_whole {body : Text} (h : Whole body) : EndsAtBrace body :=
  lexemes_whole_append h (Or.inr (Or.inr rfl))

theorem Separate.endsAtBrace {body : Text} (h : Separate body (lexemes body)) :
    EndsAtBrace body := by
  intro t
  have hbrace := lexemes_whole_append .nil (Or.inr (Or.inr rfl)) t
  rw [lexemes, List.nil_append, List.nil_append] at hbrace
  rw [h, hbrace]

theorem lexemes_block {s gap body : Text} (hs : IsPrelude s) (hgap : IsBlanks gap)
    (hbody : EndsAtBrace body) (t : Text) :
    lexemes (s ++ gap ++ '\x7b' :: (body ++ '\x7d' :: t)) =
      lexemes (s ++ gap) ++ .symbol '\x7b' :: (lexemes body ++ .symbol '\x7d' :: lexemes t) := by
  rw [lexemes_whole_append (hs.whole_append hgap) (Or.inl rfl), hbody]

theorem toLower_of_not_upper {c : Char} (h : ¬ (65 ≤ c.toNat ∧ c.toNat ≤ 90)) :
    c.toLower = c := by
  unfold Char.toLower
  rw [dif_neg]
  intro hupper
  exact h ⟨UInt32.le_iff_toNat_le.mp hupper.1, UInt32.le_iff_toNat_le.mp hupper.2⟩

def endsName (c : Char) : Bool :=
  isBlank c || c == '(' || c == '\x7b'

theorem not_letter_of_endsName {c : Char} (h : endsName c = true ∨ c = '@') :
    ¬ (65 ≤ c.toNat ∧ c.toNat ≤ 90) ∧ ¬ (97 ≤ c.toNat ∧ c.toNat ≤ 122 ∨ c.toNat = 45) := by
  simp only [endsName, isBlank, Bool.or_eq_true, Bool.and_eq_true, decide_eq_true_eq,
    beq_iff_eq] at h
  rcases h with ((hblank | hleft) | hbrace) | hat
  · omega
  · rw [hleft]
    decide
  · rw [hbrace]
    decide
  · rw [hat]
    decide

/-- The names of grouping at-rules hold small letters and hyphens only. -/
theorem not_endsName_of_grouping {name : Text} (h : toLowerAscii name ∈ Rule.groupingAtRules)
    {c : Char} (hc : c ∈ name) : ¬ (endsName c = true ∨ c = '@') := by
  let isLetter (x : Char) : Bool := decide (97 ≤ x.toNat ∧ x.toNat ≤ 122 ∨ x.toNat = 45)
  have hletters : ∀ word ∈ Rule.groupingAtRules, word.all isLetter = true := by decide
  intro hends
  obtain ⟨hupper, hlower⟩ := not_letter_of_endsName hends
  have hmem := List.all_eq_true.mp (hletters _ h) c.toLower (List.mem_map_of_mem hc)
  rw [toLower_of_not_upper hupper] at hmem
  exact hlower (of_decide_eq_true hmem)

theorem IsGroupingPrelude.isGrouping {prelude : Text} (h : IsGroupingPrelude prelude) :
    Rule.isGrouping prelude = true := by
  cases h with
  | @intro name rest hname hrest =>
      have hstop : (name ++ rest).takeWhile (fun c => !endsName c) = name := by
        refine takeWhile_append_exact (fun c hc => ?_) fun c hc => ?_
        · have hends := not_endsName_of_grouping hname hc
          cases hcase : endsName c with
          | false => rfl
          | true => exact absurd (Or.inl hcase) hends
        · rw [Option.mem_def.mp hc] at hrest
          simp only [Option.all_some, Bool.or_eq_true] at hrest
          simp only [endsName, Bool.not_eq_false', Bool.or_eq_true]
          exact Or.inl hrest
      have hat : ('@' :: (name ++ rest)).dropWhile (· == '@') = name ++ rest := by
        rw [List.dropWhile_cons_of_pos rfl]
        cases name with
        | nil => exact absurd hname (by decide)
        | cons c name =>
            have hends := not_endsName_of_grouping hname List.mem_cons_self
            rw [List.cons_append, List.dropWhile_cons_of_neg]
            intro heq
            exact hends (Or.inr (beq_iff_eq.mp heq))
      have hatRule : Rule.atRuleName ('@' :: (name ++ rest)) = toLowerAscii name := by
        unfold Rule.atRuleName
        rw [hat]
        exact congrArg toLowerAscii hstop
      simpa [Rule.isGrouping, hatRule] using hname

theorem IsGroupingPrelude.head?_eq {prelude : Text} (h : IsGroupingPrelude prelude) :
    prelude.head? = some '@' := by
  cases h
  rfl

def content : Entry → Text ⊕ StyleRule
  | .comment t => .inl t
  | .rule r => .inr ⟨r.selector, r.declarations, r.atRules⟩

mutual

/-- The comments and style rules of an item inside the given at-rules, as they are read: no comment
counts inside an at-rule. -/
def contentsOf (atRules : List Text) : Item → List (Text ⊕ StyleRule)
  | .style selector declarations => [.inr ⟨selector, trim declarations, atRules⟩]
  | .comment body => if atRules.isEmpty then [.inl (commentOf body)] else []
  | .statement _ => []
  | .group prelude items => contents (atRules ++ [prelude]) items

def contents (atRules : List Text) : List Item → List (Text ⊕ StyleRule)
  | [] => []
  | item :: rest => contentsOf atRules item ++ contents atRules rest

end

structure Reads (items : List Item) (t : Text) : Prop where
  separate : Separate t (lexemes t)
  closed : Closed (lexemes t)
  contents_eq : ∀ atRules start,
    (entries atRules start (lexemes t)).map content = contents atRules items

section Steps

variable {atRules : List Text} {start : Nat} {s gap : Text}

/-- The reading of a prelude stops where the prelude does. -/
theorem IsPrelude.entries_eq (hs : IsPrelude s) (hgap : IsBlanks gap) {stop : Char}
    (hstop : stop = '\x7b' ∨ stop = ';') (ls : List Lexeme) :
    entries atRules start (lexemes (s ++ gap) ++ .symbol stop :: ls) =
      let bodyStart := start + size (s ++ gap) + 1
      if stop = '\x7b' then
        let body := (splitBody 0 ls).1
        let here :=
          if s.head? = some '@' then
            if Rule.isGrouping s then entries (atRules ++ [s]) bodyStart body else []
          else [.rule (ruleAt atRules start (s ++ gap) (textOf body))]
        here ++ entries atRules (bodyStart + size (textOf body) + 1) ((splitBody 0 ls).2.drop 1)
      else entries atRules bodyStart ls := by
  obtain ⟨c, tail, hcons, hfirst, hc⟩ := hs.exists_symbol
  have hhead : (s ++ gap).head? = s.head? := by
    rw [List.head?_append, hfirst, Option.some_or]
  have hsplit : splitPrelude 0 (lexemes (s ++ gap) ++ .symbol stop :: ls) =
      (lexemes (s ++ gap), .symbol stop :: ls) := by
    rw [splitPrelude_balanced (hs.balanced_append hgap), splitPrelude_stop hstop, List.append_nil]
  have hls : lexemes (s ++ gap) ++ .symbol stop :: ls =
      .symbol c :: (tail ++ lexemes gap ++ .symbol stop :: ls) := by
    rw [hs.lexemes_append hgap, hcons]
    rfl
  rw [entries_prelude hls hc hsplit, textOf_lexemes]
  simp only [hs.trimEnd_append hgap, hhead, Lexeme.symbol.injEq]

theorem entries_statement (hs : IsPrelude s) (hgap : IsBlanks gap) (t : Text) :
    entries atRules start (lexemes (s ++ gap ++ ';' :: t)) =
      entries atRules (start + size (s ++ gap) + 1) (lexemes t) := by
  rw [lexemes_whole_append (hs.whole_append hgap) (Or.inr (Or.inl rfl)),
    hs.entries_eq hgap (Or.inr rfl)]
  exact if_neg (by decide)

theorem entries_style (hs : IsPrelude s) (hat : s.head? ≠ some '@') (hgap : IsBlanks gap)
    {body : Text} (hbody : Whole body) (t : Text) :
    entries atRules start (lexemes (s ++ gap ++ '\x7b' :: (body ++ '\x7d' :: t))) =
      .rule (ruleAt atRules start (s ++ gap) body) ::
        entries atRules (start + size (s ++ gap) + 1 + size body + 1) (lexemes t) := by
  rw [lexemes_block hs hgap (endsAtBrace_of_whole hbody), hs.entries_eq hgap (Or.inl rfl),
    (closed_lexemes hbody).splitBody_eq]
  simp [hat, textOf_lexemes]

theorem entries_group (hs : IsPrelude s) (hgrouping : IsGroupingPrelude s) (hgap : IsBlanks gap)
    {body : Text} (hbody : EndsAtBrace body) (hclosed : Closed (lexemes body)) (t : Text) :
    entries atRules start (lexemes (s ++ gap ++ '\x7b' :: (body ++ '\x7d' :: t))) =
      entries (atRules ++ [s]) (start + size (s ++ gap) + 1) (lexemes body) ++
        entries atRules (start + size (s ++ gap) + 1 + size body + 1) (lexemes t) := by
  rw [lexemes_block hs hgap hbody, hs.entries_eq hgap (Or.inl rfl), hclosed.splitBody_eq]
  simp [hgrouping.head?_eq, hgrouping.isGrouping, textOf_lexemes]

theorem IsBlanks.entries_append (h : IsBlanks gap) (t : Text) :
    entries atRules start (lexemes (gap ++ t)) =
      entries atRules (start + size gap) (lexemes t) := by
  rw [h.separate, h.lexemes_eq]
  exact entries_blanks h (lexemes t)

end Steps

/-! ## One item in front of others -/

theorem Reads.prepend {items rest : List Item} {s t : Text} {ls : List Lexeme}
    (hs : Separate s ls) (hclosed : Closed ls) (ht : Reads rest t)
    (hcontents : ∀ atRules start,
      (entries atRules start (lexemes (s ++ t))).map content = contents atRules items) :
    Reads items (s ++ t) := by
  refine ⟨?_, ?_, hcontents⟩
  · rw [hs t]
    exact hs.append ht.separate
  · rw [hs t]
    exact hclosed.append ht.closed

theorem Reads.blanks {ws : Text} (h : IsBlanks ws) : Reads [] ws := by
  refine ⟨h.separate, closed_lexemes h.whole, ?_⟩
  intro atRules start
  rw [← List.append_nil ws, h.entries_append, lexemes, entries_nil]
  rfl

theorem Reads.lead {lead t : Text} {items : List Item} (hlead : IsBlanks lead)
    (ht : Reads items t) : Reads items (lead ++ t) := by
  refine ht.prepend hlead.separate (closed_lexemes hlead.whole) ?_
  intro atRules start
  rw [hlead.entries_append, ht.contents_eq]

theorem Reads.comment {body t : Text} {rest : List Item} (hbody : ¬ ['*', '/'] <:+: body)
    (ht : Reads rest t) : Reads (.comment body :: rest) (commentOf body ++ t) := by
  have hseparate : Separate (commentOf body) [.comment (commentOf body)] := lexemes_comment hbody
  refine ht.prepend hseparate (Closed.nil.cons (by simp) (by simp)) ?_
  intro atRules start
  rw [lexemes_comment hbody, entries_comment, List.map_append, ht.contents_eq, contents,
    contentsOf]
  split <;> rfl

theorem Reads.statement {prelude gap t : Text} {rest : List Item} (hprelude : IsPrelude prelude)
    (hgap : IsBlanks gap) (ht : Reads rest t) :
    Reads (.statement prelude :: rest) (prelude ++ gap ++ ';' :: t) := by
  have hwhole := hprelude.whole_append hgap
  have hseparate : Separate (prelude ++ gap ++ [';'])
      (lexemes (prelude ++ gap) ++ [.symbol ';']) := by
    intro t
    simpa using lexemes_whole_append hwhole (Or.inr (Or.inl rfl)) t
  have hclosed : Closed [.symbol ';'] := Closed.nil.cons (by simp) (by simp)
  have hsplit : prelude ++ gap ++ ';' :: t = (prelude ++ gap ++ [';']) ++ t := by simp
  rw [hsplit]
  refine ht.prepend hseparate ((closed_lexemes hwhole).append hclosed) ?_
  intro atRules start
  rw [← hsplit, entries_statement hprelude hgap, ht.contents_eq, contents, contentsOf,
    List.nil_append]

/-- A block in front of other items. -/
theorem Reads.block {items rest : List Item} {s gap body t : Text} (hs : IsPrelude s)
    (hgap : IsBlanks gap) (hbody : EndsAtBrace body) (hclosed : Closed (lexemes body))
    (ht : Reads rest t)
    (hcontents : ∀ atRules start,
      (entries atRules start (lexemes (s ++ gap ++ '\x7b' :: (body ++ '\x7d' :: t)))).map content =
        contents atRules items) :
    Reads items (s ++ gap ++ '\x7b' :: (body ++ '\x7d' :: t)) := by
  have hseparate : Separate (s ++ gap ++ '\x7b' :: (body ++ ['\x7d']))
      (lexemes (s ++ gap) ++ .symbol '\x7b' :: (lexemes body ++ [.symbol '\x7d'])) := by
    intro t
    simpa using lexemes_block hs hgap hbody t
  have hsplit : s ++ gap ++ '\x7b' :: (body ++ '\x7d' :: t) =
      (s ++ gap ++ '\x7b' :: (body ++ ['\x7d'])) ++ t := by simp
  rw [hsplit] at hcontents ⊢
  have hblock := (closed_lexemes (hs.whole_append hgap)).append hclosed.block
  exact ht.prepend hseparate hblock hcontents

theorem whole_body {open' declarations close : Text} (hopen : IsBlanks open')
    (h : Whole declarations) (hclose : IsBlanks close) : Whole (open' ++ declarations ++ close) :=
  (hopen.whole_append h).append hclose.whole hclose.head?_ne

theorem Reads.style {selector gap open' declarations close t : Text} {rest : List Item}
    (hselector : IsPrelude selector) (hat : selector.head? ≠ some '@') (hgap : IsBlanks gap)
    (hopen : IsBlanks open') (hdeclarations : Whole declarations) (hclose : IsBlanks close)
    (ht : Reads rest t) :
    Reads (.style selector declarations :: rest)
      (selector ++ gap ++ '\x7b' :: (open' ++ declarations ++ close ++ '\x7d' :: t)) := by
  have hbody := whole_body hopen hdeclarations hclose
  have htrim : trim (open' ++ declarations ++ close) = trim declarations := by
    rw [trim_append_blanks hclose.isBlank, trim_blanks_append hopen.isBlank]
  refine Reads.block hselector hgap (endsAtBrace_of_whole hbody) (closed_lexemes hbody) ht ?_
  intro atRules start
  rw [entries_style hselector hat hgap hbody, List.map_cons, ht.contents_eq, contents, contentsOf]
  simp only [content, ruleAt, hselector.trimEnd_append hgap, htrim, List.cons_append,
    List.nil_append]

theorem Reads.group {prelude gap body t : Text} {items rest : List Item}
    (hprelude : IsPrelude prelude) (hgrouping : IsGroupingPrelude prelude) (hgap : IsBlanks gap)
    (hbody : Reads items body) (ht : Reads rest t) :
    Reads (.group prelude items :: rest) (prelude ++ gap ++ '\x7b' :: (body ++ '\x7d' :: t)) := by
  refine Reads.block hprelude hgap hbody.separate.endsAtBrace hbody.closed ht ?_
  intro atRules start
  rw [entries_group hprelude hgrouping hgap hbody.separate.endsAtBrace hbody.closed,
    List.map_append, hbody.contents_eq, ht.contents_eq, contents, contentsOf]

theorem reads_of_written {items : List Item} {t : Text} (h : Written items t) : Reads items t := by
  induction h with
  | nil hblanks => exact .blanks hblanks
  | style hlead hselector hat hgap hopen hdeclarations hclose _ ih =>
      rw [lead_append]
      exact (Reads.style hselector hat hgap hopen hdeclarations hclose ih).lead hlead
  | comment hlead hbody _ ih =>
      rw [List.append_assoc]
      exact (Reads.comment hbody ih).lead hlead
  | statement hlead hprelude hgap _ ih =>
      rw [lead_append]
      exact (Reads.statement hprelude hgap ih).lead hlead
  | group hlead hprelude hgrouping hgap _ _ ihitems ih =>
      rw [lead_append]
      exact (Reads.group hprelude hgrouping hgap ihitems ih).lead hlead

theorem reads_of_printed {items : List Item} {t : Text} (h : Printed items t) : Reads items t :=
  reads_of_written h.written

theorem filterMap_rule_content (es : List Entry) :
    (es.filterMap Entry.rule?).map (fun r => StyleRule.mk r.selector r.declarations r.atRules) =
      (es.map content).filterMap Sum.getRight? := by
  induction es with
  | nil => rfl
  | cons e es ih =>
      cases e with
      | comment t => exact ih
      | rule r => exact congrArg (StyleRule.mk r.selector r.declarations r.atRules :: ·) ih

theorem takeWhile_comment_content (es : List Entry) :
    (es.takeWhile (·.rule?.isNone)).filterMap Entry.comment? =
      ((es.map content).takeWhile (·.isLeft)).filterMap Sum.getLeft? := by
  induction es with
  | nil => rfl
  | cons e es ih =>
      cases e with
      | comment t => exact congrArg (t :: ·) ih
      | rule r => rfl

mutual

theorem styleRules_eq_contentsOf (atRules : List Text) (item : Item) :
    (contentsOf atRules item).filterMap Sum.getRight? = item.styleRules atRules := by
  cases item with
  | style selector declarations => rfl
  | comment body =>
      unfold contentsOf Item.styleRules
      split <;> rfl
  | statement prelude => rfl
  | group prelude items => exact styleRules_eq_contents (atRules ++ [prelude]) items

theorem styleRules_eq_contents (atRules : List Text) (items : List Item) :
    (contents atRules items).filterMap Sum.getRight? = styleRules atRules items := by
  cases items with
  | nil => rfl
  | cons item rest =>
      rw [contents, styleRules, List.filterMap_append, styleRules_eq_contentsOf,
        styleRules_eq_contents]

end

mutual

/-- Inside an at-rule there is nothing to read but style rules. -/
theorem contentsOf_inside {atRules : List Text} (h : atRules ≠ []) (item : Item) :
    ∀ c ∈ contentsOf atRules item, c.isLeft = false := by
  cases item with
  | style selector declarations => simp [contentsOf]
  | comment body => simp [contentsOf, h]
  | statement prelude => simp [contentsOf]
  | group prelude items => exact contents_inside (by simp) items

theorem contents_inside {atRules : List Text} (h : atRules ≠ []) (items : List Item) :
    ∀ c ∈ contents atRules items, c.isLeft = false := by
  cases items with
  | nil => simp [contents]
  | cons item rest =>
      intro c hc
      rw [contents] at hc
      rcases List.mem_append.mp hc with hc | hc
      · exact contentsOf_inside h item c hc
      · exact contents_inside h rest c hc

end

theorem leadingComments_eq_contents (items : List Item) :
    ((contents [] items).takeWhile (·.isLeft)).filterMap Sum.getLeft? = leadingComments items := by
  induction items with
  | nil => rfl
  | cons item rest ih =>
      unfold leadingComments at ih ⊢
      cases item with
      | style selector declarations => rfl
      | comment body => exact congrArg (commentOf body :: ·) ih
      | statement prelude => exact ih
      | group prelude items =>
          have hinside := contents_inside (List.cons_ne_nil prelude []) items
          have hrules : (Item.group prelude items).styleRules [] =
              (contents [prelude] items).filterMap Sum.getRight? :=
            (styleRules_eq_contents [prelude] items).symm
          have hsplit : contents [] (.group prelude items :: rest) =
              contents [prelude] items ++ contents [] rest := rfl
          rw [hsplit]
          cases hitems : contents [prelude] items with
          | nil =>
              rw [hitems] at hrules
              rw [List.takeWhile_cons_of_pos (by rw [hrules]; rfl)]
              exact ih
          | cons c cs =>
              rw [hitems] at hrules hinside
              have hc := hinside c List.mem_cons_self
              cases c with
              | inl t => cases hc
              | inr r =>
                  rw [List.takeWhile_cons_of_neg (by rw [hrules]; exact Bool.false_ne_true)]
                  rfl

/-! ## Reading a style sheet -/

/-- To read a printed tree gives its style rules in order, and its leading comments. -/
theorem parse_printed {items : List Item} {t : Text} (h : Printed items t) :
    (parse t).rules.map (fun r => StyleRule.mk r.selector r.declarations r.atRules) =
        styleRules [] items ∧
      (parse t).leadingComments = leadingComments items := by
  have hread := (reads_of_printed h).contents_eq [] 0
  constructor
  · rw [parse, filterMap_rule_content, hread, styleRules_eq_contents]
  · rw [parse, takeWhile_comment_content, hread, leadingComments_eq_contents]

/-- A string with a brace in it, two at-rules deep, and a statement behind the block. -/
def nestedSheet : List Item :=
  [.comment ['a'],
    .group ['@', 'm', 'e', 'd', 'i', 'a']
      [.comment ['b'],
        .group ['@', 'S', 'c', 'o', 'p', 'e'] [.style ['p'] ['\x22', '\x7d', '\x22']]],
    .statement ['@', 'x'], .style ['q'] []]

def nestedSheetText : Text :=
  ['/', '*', 'a', '*', '/', ' ', '@', 'm', 'e', 'd', 'i', 'a', '\n', '\x7b',
    '/', '*', 'b', '*', '/', '@', 'S', 'c', 'o', 'p', 'e', '\x7b',
    'p', ' ', '\x7b', '\x22', '\x7d', '\x22', '\x7d', ' ', '\x7d', '\x7d',
    '@', 'x', ';', '\t', 'q', '\x7b', ' ', '\x7d', '\n']

theorem printed_nestedSheet : Printed nestedSheet nestedSheetText := by
  have hnone : IsBlanks [] := by simp [IsBlanks]
  have hspace : IsBlanks [' '] := by simp [IsBlanks, isAsciiBlank]
  have hline : IsBlanks ['\n'] := by simp [IsBlanks, isAsciiBlank]
  have htab : IsBlanks ['\t'] := by simp [IsBlanks, isAsciiBlank]
  have hp : IsHeader ['p'] :=
    ⟨by decide, by decide, by simp [isBare, isQuote], by decide, by decide⟩
  have hq : IsHeader ['q'] :=
    ⟨by decide, by decide, by simp [isBare, isQuote], by decide, by decide⟩
  have hx : IsHeader ['@', 'x'] :=
    ⟨by decide, by decide, by simp [isBare, isQuote], by decide, by decide⟩
  have hmedia : IsHeader ['@', 'm', 'e', 'd', 'i', 'a'] :=
    ⟨by decide, by decide, by simp [isBare, isQuote], by decide, by decide⟩
  have hscope : IsHeader ['@', 'S', 'c', 'o', 'p', 'e'] :=
    ⟨by decide, by decide, by simp [isBare, isQuote], by decide, by decide⟩
  have hstring : IsDeclarations ['\x22', '\x7d', '\x22'] :=
    IsDeclarations.string (by decide) (.char (by decide) (by decide) .nil) .nil
  have hmedia' : IsGroupingPrelude ['@', 'm', 'e', 'd', 'i', 'a'] :=
    @IsGroupingPrelude.intro ['m', 'e', 'd', 'i', 'a'] [] (by decide) (by decide)
  have hscope' : IsGroupingPrelude ['@', 'S', 'c', 'o', 'p', 'e'] :=
    @IsGroupingPrelude.intro ['S', 'c', 'o', 'p', 'e'] [] (by decide) (by decide)
  have hinner := Printed.style hnone hp (by decide) hspace hnone hstring hnone (.nil hspace)
  have hmiddle := Printed.comment hnone (show ¬ ['*', '/'] <:+: ['b'] by decide)
    (Printed.group hnone hscope hscope' hnone hinner (.nil hnone))
  have hlast := Printed.style htab hq (by decide) hnone hnone .nil hspace (.nil hline)
  have hafter := Printed.statement hnone hx hnone hlast
  exact Printed.comment hnone (show ¬ ['*', '/'] <:+: ['a'] by decide)
    (Printed.group hspace hmedia hmedia' hline hmiddle hafter)

theorem parse_printed_nestedSheet :
    Printed nestedSheet nestedSheetText ∧
      (parse nestedSheetText).rules.map
          (fun r => StyleRule.mk r.selector r.declarations r.atRules) =
        [⟨['p'], ['\x22', '\x7d', '\x22'],
            [['@', 'm', 'e', 'd', 'i', 'a'], ['@', 'S', 'c', 'o', 'p', 'e']]⟩,
          ⟨['q'], [], []⟩] ∧
      (parse nestedSheetText).leadingComments = [['/', '*', 'a', '*', '/']] := by
  obtain ⟨hrules, hcomments⟩ := parse_printed printed_nestedSheet
  refine ⟨printed_nestedSheet, ?_, ?_⟩
  · rw [hrules]
    decide
  · rw [hcomments]
    decide

end UtilityCss.Stylesheet
