import UtilityCss.Proofs.Css.Cut
import UtilityCss.Proofs.Ruleset.Search
import UtilityCss.Proofs.Ruleset.Sections

/-!
# The reading by positions

Read by positions, a ruleset is what it is read as lexeme by lexeme, and no byte or slice is asked
for that the source does not have. What is found at a position of a block is what the entries of the
lexemes from there on begin with, and so, item by item, the block is read.
-/

namespace UtilityCss.Ruleset

open Text Css Selector

variable {source t : Text} {start stop : Nat}

theorem eq_iff_of_byte {b c d : Char} (h : b = c ∨ IsWide b ∧ IsWide c) (hd : ¬ IsWide d) :
    b = d ↔ c = d := by
  rcases h with rfl | ⟨hb, hc⟩
  · exact Iff.rfl
  · constructor
    · rintro rfl
      exact absurd hb hd
    · rintro rfl
      exact absurd hc hd

/-- The lexemes behind a symbol that is no slash are those of their own text. -/
theorem lexemes_behind_stop {depth' : Nat} {ls left : List Lexeme} {c : Char}
    (hc : endsPrelude depth' c = true) (h : lexemes t = ls ++ .symbol c :: left) :
    lexemes (textOf left) = left := by
  have hbehind := lexemes_behind h
  have hstop : (c = '\x7b' ∨ c = ';') ∨ c = '\x7d' := by
    simp only [endsPrelude, Bool.and_eq_true, Bool.or_eq_true, beq_iff_eq] at hc
    exact hc.2
  have hsymbol : lexemes (c :: textOf left) = .symbol c :: lexemes (textOf left) := by
    rcases hstop with (rfl | rfl) | rfl <;>
      exact lexemes_symbol_cons (by decide) (by decide) fun hslash => absurd hslash (by decide)
  rw [hsymbol, List.cons.injEq] at hbehind
  exact hbehind.2

def StartsItem (t : Text) : Prop :=
  ∃ c u, t = c :: u ∧ isAsciiBlank c = false ∧ ∀ rest, t ≠ '/' :: '*' :: rest

theorem StartsItem.lt (ht : StartsItem t) (h : Holds source start t stop) : start < stop := by
  obtain ⟨c, u, rfl, -, -⟩ := ht
  exact h.lt

/-- The first lexeme of an item, which is skipped only if it is a brace. -/
theorem exists_lexeme {c : Char} (hc : isAsciiBlank c = false)
    (hopen : ∀ rest, c :: t ≠ '/' :: '*' :: rest) :
    ∃ l ls, lexemes (c :: t) = l :: ls ∧ (∀ u, l ≠ .comment u) ∧
      (c ≠ '\x7d' → isFiller l = false) := by
  rw [lexemes]
  · split
    · exact ⟨_, _, rfl, by simp, fun _ => rfl⟩
    · split
      · exact ⟨_, _, rfl, by simp, fun _ => rfl⟩
      · exact ⟨_, _, rfl, by simp, fun hne => by simp [isFiller, hc, hne]⟩
  · exact fun rest hslash hstar => hopen rest (by rw [hslash, hstar])

def entriesOfBlock (atRules : List Text) (start : Nat) (prelude : Text) (brace : Nat)
    (body : Text) : List Entry :=
  if (trimEnd prelude).head? = some '@' then
    if Rule.isGrouping (trimEnd prelude) then
      entries (atRules ++ [trimEnd prelude]) (brace + 1) (lexemes body)
    else []
  else [.rule (ruleAt atRules start prelude body)]

/-- What the reading of a text begins with, and what it goes on with. -/
inductive Begins (source : Text) (atRules : List Text) (start : Nat) (t : Text) (stop : Nat) :
    Item → Prop where
  | filler {next : Nat} {rest : Text} (hrest : Holds source next rest stop)
      (hlength : rest.length < t.length)
      (hentries : entries atRules start (lexemes t) = entries atRules next (lexemes rest)) :
      Begins source atRules start t stop (.filler next)
  | block {brace bodyStop : Nat} {prelude body rest : Text}
      (hprelude : Holds source start prelude brace)
      (hbody : Holds source (brace + 1) body bodyStop) (hinner : body.length < t.length)
      (hrest : Holds source (min (bodyStop + 1) stop) rest stop) (hlength : rest.length < t.length)
      (hentries : entries atRules start (lexemes t) =
        entriesOfBlock atRules start prelude brace body ++
          entries atRules (min (bodyStop + 1) stop) (lexemes rest)) :
      Begins source atRules start t stop (.block brace bodyStop)
  | rest {last : Nat} (hentries : entries atRules start (lexemes t) = []) :
      Begins source atRules start t stop (.rest last)

/-- The search for the end of a body, and what is left behind it. -/
theorem exists_body {left : List Lexeme} (hleft : lexemes (textOf left) = left)
    (h : Holds source start (textOf left) stop) :
    ∃ close rest, seek? source endsBody deeperInBody 0 start stop = some close ∧
      Holds source start (textOf (splitBody 0 left).1) (min close stop) ∧
      lexemes (textOf (splitBody 0 left).1) = (splitBody 0 left).1 ∧
      Holds source (min (min close stop + 1) stop) rest stop ∧
      rest.length ≤ (textOf left).length ∧
      ∀ atRules, entries atRules (min close stop + 1) ((splitBody 0 left).2.drop 1) =
        entries atRules (min (min close stop + 1) stop) (lexemes rest) := by
  obtain ⟨close, hclose, hmarks⟩ := isSearch_body.seek?_spec (textOf left) start 0 h
  rw [cut_body, hleft] at hmarks
  have happend := splitBody_append 0 left
  cases hsplit : splitBody 0 left with
  | mk body ending =>
      rw [hsplit] at hmarks happend
      cases ending with
      | nil =>
          have hstop : min close stop = stop := Nat.min_eq_right (hmarks.1 rfl)
          rw [List.append_nil] at happend
          refine ⟨close, [], hclose, ?_, ?_, ?_, Nat.zero_le _, fun atRules => ?_⟩
          · rwa [hstop, happend]
          · rwa [happend]
          · rw [hstop, Nat.min_eq_right (Nat.le_succ stop)]
            exact h.nil
          · rw [List.drop_nil, lexemes, entries_nil, entries_nil]
      | cons l behind =>
          have hl := splitBody_stop hsplit
          subst hl
          rw [← happend] at h hleft
          obtain ⟨hbody, hbehind⟩ := lexemes_sides (Or.inr rfl) hleft
          rw [textOf_append] at h
          have hend : close = start + size (textOf body) := hmarks.2 (List.cons_ne_nil _ _)
          have hbrace : Holds source close ('\x7d' :: textOf behind) stop := by
            rw [hend]
            exact h.behind
          have hlt := hbrace.lt
          have hmin : min close stop = close := Nat.min_eq_left (Nat.le_of_lt hlt)
          have hnext : min (close + 1) stop = close + 1 := Nat.min_eq_left hlt
          refine ⟨close, textOf behind, hclose, ?_, hbody, ?_, ?_, fun atRules => ?_⟩
          · rw [hmin, hend]
            exact h.front
          · rw [hmin, hnext]
            exact hbrace.tail_ascii (by decide)
          · rw [← happend, textOf_append, List.length_append, textOf_cons, List.length_append]
            omega
          · rw [hmin, hnext, hbehind]
            rfl

theorem item?_prelude {b : Char} {found : Nat} (hbyte : byteAt? source start = some b)
    (hb : b ≠ '\x7d')
    (hfound : seek? source endsPrelude deeperInPrelude 0 start stop = some found) :
    item? source start stop =
      if stop ≤ found then some (.rest found)
      else (byteAt? source found).bind fun b =>
        if b = '\x7b' then
          (seek? source endsBody deeperInBody 0 (found + 1) stop).map fun close =>
            .block found (min close stop)
        else some (.filler (found + 1)) := by
  rw [item?, hbyte, Option.bind_eq_bind, Option.bind_some, if_neg hb, hfound]
  simp only [Option.bind_eq_bind, Option.bind_some, Option.pure_def, Option.map_eq_bind,
    Function.comp_def]

/-- The search for the end of a prelude that has one. -/
theorem exists_prelude {head left : List Lexeme} {l : Lexeme}
    (hsplit : splitPrelude 0 (lexemes t) = (head, l :: left)) (h : Holds source start t stop) :
    ∃ found c, seek? source endsPrelude deeperInPrelude 0 start stop = some found ∧
      l = .symbol c ∧ byteAt? source found = some c ∧ found < stop ∧
      Holds source start (textOf head) found ∧ Holds source (found + 1) (textOf left) stop ∧
      lexemes (textOf left) = left ∧ (textOf left).length < t.length := by
  obtain ⟨found, hfound, hmarks⟩ := isSearch_prelude.seek?_spec t start 0 h
  have hcut := cut_prelude 0 (lexemes t)
  have happend := splitPrelude_append 0 (lexemes t)
  rw [hcut, hsplit] at hmarks
  rw [hsplit] at hcut happend
  obtain ⟨depth', c, rfl, hends⟩ := cut_stop hcut
  have hc : ¬ IsWide c := fun hwide => by
    rw [isSearch_prelude.ends_wide depth' c hwide] at hends
    cases hends
  have htext : t = textOf head ++ c :: textOf left := by
    rw [← textOf_lexemes t, ← happend, textOf_append, textOf_cons]
    rfl
  have hlength : (textOf left).length < t.length := by
    rw [htext, List.length_append, List.length_cons]
    omega
  have hstart : found = start + size (textOf head) := hmarks.2 (List.cons_ne_nil _ _)
  rw [htext] at h
  have hstop : Holds source found (c :: textOf left) stop := by
    rw [hstart]
    exact h.behind
  refine ⟨found, c, hfound, rfl, hstop.byteAt?_ascii hc, hstop.lt, ?_, hstop.tail_ascii hc,
    lexemes_behind_stop hends happend.symm, hlength⟩
  rw [hstart]
  exact h.front

theorem item?_spec_of_prelude (atRules : List Text) {l : Lexeme} {ls : List Lexeme} {b : Char}
    (hl : lexemes t = l :: ls) (hcomment : ∀ u, l ≠ .comment u) (hfiller : isFiller l = false)
    (hbyte : byteAt? source start = some b) (hb : b ≠ '\x7d') (h : Holds source start t stop) :
    ∃ item, item? source start stop = some item ∧ Begins source atRules start t stop item := by
  cases hsplit : splitPrelude 0 (lexemes t) with
  | mk head left =>
      cases left with
      | nil =>
          obtain ⟨found, hfound, hmarks⟩ := isSearch_prelude.seek?_spec t start 0 h
          rw [cut_prelude, hsplit] at hmarks
          rw [hl] at hsplit
          rw [item?_prelude hbyte hb hfound]
          refine ⟨.rest found, if_pos (hmarks.1 rfl), .rest ?_⟩
          rw [hl, entries_unfinished hcomment hfiller hsplit]
      | cons l' left =>
          obtain ⟨found, c, hfound, rfl, hbyte', hlt, hprelude, hleft, hlexemes, hlength⟩ :=
            exists_prelude hsplit h
          rw [hl] at hsplit
          have hentries : entries atRules start (l :: ls) = _ :=
            entries_cons hcomment hfiller hsplit
          simp only [← hprelude.stop_eq, ← hl] at hentries
          rw [item?_prelude hbyte hb hfound, if_neg (Nat.not_le_of_lt hlt), hbyte',
            Option.bind_some]
          by_cases hopen : c = '\x7b'
          · obtain ⟨close, rest, hclose, hbody, hbodyLexemes, hrest, hrestLength, hnext⟩ :=
              exists_body hlexemes hleft
            have hbodyLength : (textOf (splitBody 0 left).1).length ≤ (textOf left).length := by
              have happend := congrArg (fun ls => (textOf ls).length) (splitBody_append 0 left)
              simp only [textOf_append, List.length_append] at happend
              omega
            have hat := head?_trimEnd (show isBlank '@' = false by decide) (textOf head)
            rw [if_pos hopen, hclose, Option.map_some]
            refine ⟨.block found (min close stop), rfl, .block hprelude hbody
              (Nat.lt_of_le_of_lt hbodyLength hlength) hrest
              (Nat.lt_of_le_of_lt hrestLength hlength) ?_⟩
            simp only [hentries, if_pos (congrArg Lexeme.symbol hopen), entriesOfBlock,
              hbodyLexemes, ← hnext, ← hbody.stop_eq, hat]
          · refine ⟨.filler (found + 1), if_neg hopen, .filler hleft hlength ?_⟩
            rw [hentries, if_neg (by simpa using hopen), hlexemes]

/-- The item that is found at a position is what the reading begins with. -/
theorem item?_spec (atRules : List Text) (ht : StartsItem t) (h : Holds source start t stop) :
    ∃ item, item? source start stop = some item ∧ Begins source atRules start t stop item := by
  obtain ⟨c, u, rfl, hblank, hopen⟩ := ht
  obtain ⟨b, hbyte, hb⟩ := h.exists_byte
  have hclose := eq_iff_of_byte hb (show ¬ IsWide '\x7d' by decide)
  by_cases hc : c = '\x7d'
  · have hrest := h
    rw [hc] at hrest
    refine ⟨.filler (start + 1), by rw [item?, hbyte]; exact if_pos (hclose.mpr hc), ?_⟩
    refine .filler (hrest.tail_ascii (by decide)) (by simp) ?_
    rw [hc, lexemes_brace (Or.inr rfl), entries_filler rfl]
    rfl
  · obtain ⟨l, ls, hl, hcomment, hfiller⟩ := exists_lexeme hblank hopen
    exact item?_spec_of_prelude atRules hl hcomment (hfiller hc) hbyte
      (fun heq => hc (hclose.mp heq)) h

/-! ## Blocks -/

def add (found : Ruleset) : Entry → Ruleset
  | .rule r => { found with rules := found.rules ++ [r] }
  | .comment t =>
      if found.rules.isEmpty then { found with leadingComments := found.leadingComments ++ [t] }
      else found

variable {recorded : Bool} {s : Reader}

theorem skipTrivia?_blank {b : Char} (hlt : s.position < stop)
    (hbyte : byteAt? source s.position = some b) (hb : isAsciiBlank b = true) :
    skipTrivia? source recorded stop s =
      skipTrivia? source recorded stop (s.moveTo (s.position + 1)) := by
  rw [skipTrivia?, if_pos hlt]
  simp only [hbyte, if_pos hb]

/-- In front of a comment. -/
theorem skipTrivia?_comment {b : Char} {j : Nat} {t : Text} (hlt : s.position < stop)
    (hbyte : byteAt? source s.position = some b) (hb : isAsciiBlank b = false)
    (hend : commentEnd? source s.position stop = some (some j))
    (hslice : slice? source s.position j = some t) :
    skipTrivia? source recorded stop s =
      skipTrivia? source recorded stop ((if recorded then s.addComment t else s).moveTo j) := by
  rw [skipTrivia?, if_pos hlt]
  simp only [hbyte, hb, if_neg Bool.false_ne_true]
  split
  next heq => simp [hend] at heq
  next heq => simp [hend] at heq
  next heq =>
    rw [hend] at heq
    cases heq
    cases recorded <;> simp [hslice]

/-- In front of anything else. -/
theorem skipTrivia?_stop {c : Char} (h : Holds source s.position (c :: t) stop)
    (hc : isAsciiBlank c = false) (hopen : ∀ rest, c :: t ≠ '/' :: '*' :: rest) :
    skipTrivia? source recorded stop s = some s := by
  obtain ⟨b, hbyte, hb⟩ := h.exists_byte
  have hblank : isAsciiBlank b = false := by
    rcases hb with rfl | ⟨hwide, -⟩
    · exact hc
    · exact hwide.isAsciiBlank_eq
  rw [skipTrivia?, if_pos h.lt]
  simp only [hbyte, hblank, if_neg Bool.false_ne_true]
  split
  next heq => simp [commentEnd?_other h hopen] at heq
  next => rfl
  next heq => simp [commentEnd?_other h hopen] at heq

theorem found_addComment (atRules : List Text) (s : Reader) (t : Text) :
    (if s.found.rules.isEmpty && atRules.isEmpty then s.addComment t else s).found =
      (if atRules.isEmpty then [Entry.comment t] else []).foldl add s.found := by
  cases atRules.isEmpty <;> cases hrules : s.found.rules.isEmpty <;>
    simp [add, Reader.addComment, hrules]

theorem exists_comment (h : Holds source start ('/' :: '*' :: t) stop) :
    ∃ text left, '/' :: '*' :: t = text ++ left ∧
      lexemes ('/' :: '*' :: t) = .comment text :: lexemes left ∧
      left.length < ('/' :: '*' :: t).length ∧
      commentEnd? source start stop = some (some (start + size text)) := by
  have hend := commentEnd?_comment h
  have hshort := (afterComment_suffix t).length_le
  rw [← comment_append t] at h
  rw [h.sub_size] at hend
  refine ⟨_, _, (comment_append t).symm, by rw [lexemes], ?_, hend⟩
  rw [List.length_cons, List.length_cons]
  omega

/-- Blanks and comments are skipped up to an item or the end of the block. -/
theorem skipTrivia?_spec (atRules : List Text) (t : Text) (s : Reader)
    (h : Holds source s.position t stop) :
    ∃ s' rest, skipTrivia? source (s.found.rules.isEmpty && atRules.isEmpty) stop s = some s' ∧
      Holds source s'.position rest stop ∧ (rest = [] ∨ StartsItem rest) ∧
      rest.length ≤ t.length ∧
      (entries atRules s.position (lexemes t)).foldl add s.found =
        (entries atRules s'.position (lexemes rest)).foldl add s'.found := by
  induction hn : t.length using Nat.strongRecOn generalizing t s with
  | _ n ih =>
    subst hn
    cases t with
    | nil =>
        have hstop : stop = s.position := h.stop_eq
        refine ⟨s, [], ?_, h, Or.inl rfl, Nat.le_refl _, rfl⟩
        rw [skipTrivia?, if_neg (by omega)]
    | cons c u =>
        by_cases hcomment : ∃ v, c :: u = '/' :: '*' :: v
        · obtain ⟨v, hv⟩ := hcomment
          rw [hv] at h ⊢
          obtain ⟨text, left, hwhole, hlexemes, hlength, hend⟩ := exists_comment h
          have hbyte := h.byteAt?_ascii (by decide)
          have hlt := h.lt
          rw [hwhole] at h
          let s₁ := if s.found.rules.isEmpty && atRules.isEmpty then s.addComment text else s
          have hrules : s₁.found.rules = s.found.rules := by
            simp only [s₁]
            split <;> rfl
          obtain ⟨s', rest, hs', hrest, hstarts, hshort, hfold⟩ :=
            ih left.length (by rw [hv]; exact hlength) left (s₁.moveTo (s.position + size text))
              h.behind rfl
          rw [Reader.found_moveTo, hrules] at hs'
          refine ⟨s', rest, ?_, hrest, hstarts, ?_, ?_⟩
          · rw [skipTrivia?_comment hlt hbyte (by decide) hend h.front.slice?_eq]
            exact hs'
          · exact Nat.le_trans hshort (Nat.le_of_lt hlength)
          · rw [hlexemes, entries_comment, List.foldl_append, ← found_addComment]
            exact hfold
        · have hopen : ∀ v, c :: u ≠ '/' :: '*' :: v := fun v hv => hcomment ⟨v, hv⟩
          by_cases hc : isAsciiBlank c = true
          · have hascii := not_isWide_of_isAsciiBlank hc
            have hslash : c = '/' → u.head? ≠ some '*' := by
              rintro rfl
              exact absurd hc (by decide)
            obtain ⟨s', rest, hs', hrest, hstarts, hlength, hfold⟩ :=
              ih u.length (by simp) u (s.moveTo (s.position + 1)) (h.tail_ascii hascii) rfl
            refine ⟨s', rest, ?_, hrest, hstarts, Nat.le_succ_of_le hlength, ?_⟩
            · rw [skipTrivia?_blank h.lt (h.byteAt?_ascii hascii) hc]
              exact hs'
            · rw [lexemes_bare_cons (isBare_of_isAsciiBlank hc) hslash,
                entries_filler (by simp [isFiller, hc]), ← hfold, Lexeme.text, size_cons,
                size_of_not_isWide hascii]
              rfl
          · rw [Bool.not_eq_true] at hc
            exact ⟨s, c :: u, skipTrivia?_stop h hc hopen, h,
              Or.inr ⟨c, u, rfl, hc, hopen⟩, Nat.le_refl _, rfl⟩

theorem foldl_add_entries (found : Ruleset) (es : List Entry) :
    es.foldl add found =
      { rules := found.rules ++ es.filterMap Entry.rule?,
        leadingComments :=
          if found.rules.isEmpty then
            found.leadingComments ++ (es.takeWhile (·.rule?.isNone)).filterMap Entry.comment?
          else found.leadingComments } := by
  induction es generalizing found with
  | nil => simp
  | cons e es ih =>
      rw [List.foldl_cons, ih]
      cases e with
      | rule r => simp [add, Entry.rule?]
      | comment t =>
          by_cases hempty : found.rules.isEmpty <;>
            simp [add, hempty, Entry.rule?, Entry.comment?, List.filterMap_cons]

theorem parse_eq_foldl (css : Text) :
    parse css = (entries [] 0 (lexemes css)).foldl add ⟨[], []⟩ := by
  rw [foldl_add_entries]
  rfl

theorem scanBlock?_end {atRules : List Text} {s s' : Reader}
    (hs : skipTrivia? source (s.found.rules.isEmpty && atRules.isEmpty) stop s = some s')
    (hstop : stop ≤ s'.position) : scanBlock? source atRules stop s = some s' := by
  rw [scanBlock?]
  split <;> rename_i heq <;> rw [hs] at heq <;> cases heq
  exact dif_neg (Nat.not_lt_of_le hstop)

/-- The reading goes on with an item. -/
theorem scanBlock?_item {atRules : List Text} {s s' : Reader} {item : Item}
    (hs : skipTrivia? source (s.found.rules.isEmpty && atRules.isEmpty) stop s = some s')
    (hstop : s'.position < stop) (hitem : item? source s'.position stop = some item) :
    scanBlock? source atRules stop s =
      match item with
      | .rest last => some (s'.moveTo last)
      | .filler next => scanBlock? source atRules stop (s'.moveTo next)
      | .block brace bodyStop =>
          (slice? source s'.position brace).bind fun prelude =>
            let selector := trimEnd prelude
            let inner :=
              if selector.head? = some '@' then
                if Rule.isGrouping selector then
                  scanBlock? source (atRules ++ [selector]) bodyStop (s'.moveTo (brace + 1))
                else some s'
              else (rule? source atRules selector s'.position brace bodyStop).map s'.addRule
            inner.bind fun s'' =>
              scanBlock? source atRules stop (s''.moveTo (min (bodyStop + 1) stop)) := by
  rw [scanBlock?]
  split <;> rename_i heq <;> rw [hs] at heq <;> cases heq
  rw [dif_pos hstop]
  split <;> rename_i heq <;> rw [hitem] at heq <;> cases heq
  · rfl
  · rfl
  · split <;> rename_i hslice <;> simp only [hslice, Option.bind_none, Option.bind_some]
    split <;> rename_i hinner <;> simp only [hinner, Option.bind_none, Option.bind_some]

theorem rule?_eq {prelude body : Text} {brace bodyStop : Nat} (atRules : List Text)
    (hprelude : Holds source start prelude brace) (hbody : Holds source (brace + 1) body bodyStop) :
    rule? source atRules (trimEnd prelude) start brace bodyStop =
      some (ruleAt atRules start prelude body) := by
  rw [rule?, hbody.slice?_eq, ruleAt, hbody.stop_eq, hprelude.stop_eq]
  rfl

/-- A block is read, and what is found in it are the entries of its lexemes. -/
theorem scanBlock?_spec (atRules : List Text) (t : Text) (s : Reader)
    (h : Holds source s.position t stop) :
    ∃ p, scanBlock? source atRules stop s =
      some ⟨p, (entries atRules s.position (lexemes t)).foldl add s.found⟩ := by
  -- Item by item. The body of an at-rule is shorter than the block, and so is what follows it.
  induction hn : t.length using Nat.strongRecOn generalizing atRules t s stop with
  | _ n ih =>
    subst hn
    obtain ⟨s', rest, hs, hrest, hstarts, hshort, hfold⟩ := skipTrivia?_spec atRules t s h
    rw [hfold]
    rcases hstarts with rfl | hstarts
    · refine ⟨s'.position, ?_⟩
      have hstop : stop = s'.position := hrest.stop_eq
      rw [scanBlock?_end hs (Nat.le_of_eq hstop), lexemes, entries_nil]
      rfl
    · obtain ⟨item, hitem, hbegins⟩ := item?_spec atRules hstarts hrest
      rw [scanBlock?_item hs (hstarts.lt hrest) hitem]
      cases hbegins with
      | rest hentries =>
          rw [hentries]
          exact ⟨_, rfl⟩
      | @filler next behind hbehind hlength hentries =>
          rw [hentries]
          exact ih _ (Nat.lt_of_lt_of_le hlength hshort) atRules behind (s'.moveTo next) hbehind rfl
      | @block brace bodyStop prelude body behind hprelude hbody hinner hbehind hlength hentries =>
          have hnext (s'' : Reader) (hfound : s''.found =
              (entriesOfBlock atRules s'.position prelude brace body).foldl add s'.found) :
              ∃ p, scanBlock? source atRules stop (s''.moveTo (min (bodyStop + 1) stop)) = some
                ⟨p, (entries atRules s'.position (lexemes rest)).foldl add s'.found⟩ := by
            rw [hentries, List.foldl_append, ← hfound]
            exact ih _ (Nat.lt_of_lt_of_le hlength hshort) atRules behind _ hbehind rfl
          rw [entriesOfBlock] at hnext
          simp only [hprelude.slice?_eq, Option.bind_some]
          by_cases hat : (trimEnd prelude).head? = some '@'
          · rw [if_pos hat]
            rw [if_pos hat] at hnext
            by_cases hgrouping : Rule.isGrouping (trimEnd prelude) = true
            · rw [if_pos hgrouping]
              rw [if_pos hgrouping] at hnext
              obtain ⟨p, hp⟩ := ih _ (Nat.lt_of_lt_of_le hinner hshort)
                (atRules ++ [trimEnd prelude]) body (s'.moveTo (brace + 1)) hbody rfl
              rw [hp, Option.bind_some]
              exact hnext _ rfl
            · rw [if_neg hgrouping, Option.bind_some]
              rw [if_neg hgrouping] at hnext
              exact hnext s' rfl
          · rw [if_neg hat, rule?_eq atRules hprelude hbody, Option.map_some, Option.bind_some]
            rw [if_neg hat] at hnext
            exact hnext _ rfl

/-- The reading by positions finds what the reading of the lexemes does. -/
theorem scan?_eq_parse (css : Text) : scan? css = some (parse css) := by
  obtain ⟨p, hp⟩ := scanBlock?_spec [] css ⟨0, ⟨[], []⟩⟩ (holds_self css)
  rw [scan?, hp, Option.map_some, parse_eq_foldl]

/-- An escape that ends inside a character, and one that ends behind the source. -/
example : (scan? ".a\x7b\x5cé\x7d b\x7b\x5c".toList).map (·.rules.map Rule.bodySpan) =
    some [⟨3, 6⟩, ⟨10, 11⟩] := by
  decide +kernel

end UtilityCss.Ruleset
