import UtilityCss.Proofs.Ruleset.Fit
import UtilityCss.Proofs.Ruleset.Place
import UtilityCss.Proofs.Text.Bytes

/-!
# Blocks that keep to themselves

A block in front of a style sheet is read as its rule, and the style sheet as it is read without the
block, exactly if each part of the block fits its place. For a rule in an at-rule this asks one
thing more: the body of the at-rule is read for its braces alone, so the selector has to fit as a
part of a body too.
-/

namespace UtilityCss.Ruleset

open Text Css

/-- In front of any other style sheet the text is read as the one rule, and the other style sheet as
it is read by itself. -/
def SelfContained (css : Text) (own : Rule) : Prop :=
  ∀ t, (parse (css ++ ['\n', '\n'] ++ t)).rules =
    own :: (parse t).rules.map (Rule.shift (size css + 2))

def rulesFrom (atRules : List Text) (start : Nat) (ls : List Lexeme) : List Rule :=
  (entries atRules start ls).filterMap Entry.rule?

variable {atRules : List Text} {start : Nat} {ls head left tail : List Lexeme} {c : Char}
  {r : Rule} {rs : List Rule} {P B t ws : Text}

theorem mem_rulesFrom : r ∈ rulesFrom atRules start ls ↔ .rule r ∈ entries atRules start ls := by
  rw [rulesFrom, List.mem_filterMap]
  constructor
  · rintro ⟨e, he, hr⟩
    cases e with
    | comment t => cases hr
    | rule r' => rwa [← Option.some.inj hr]
  · exact fun h => ⟨_, h, rfl⟩

theorem rulesFrom_nil : rulesFrom atRules start [] = [] := by
  rw [rulesFrom, entries_nil]
  rfl

theorem filterMap_rule?_shift (n : Nat) (es : List Entry) :
    (es.map (Entry.shift n)).filterMap Entry.rule? =
      (es.filterMap Entry.rule?).map (Rule.shift n) := by
  rw [List.filterMap_map, List.map_filterMap]
  congr 1
  funext e
  cases e <;> rfl

theorem rulesFrom_shift (n : Nat) :
    rulesFrom atRules (n + start) ls = (rulesFrom atRules start ls).map (Rule.shift n) := by
  rw [rulesFrom, entries_shift, filterMap_rule?_shift, rulesFrom]

theorem rulesFrom_blanks (hblank : ∀ c ∈ ws, isAsciiBlank c = true) (t : Text) :
    rulesFrom atRules start (lexemes (ws ++ t)) =
      rulesFrom atRules (start + size ws) (lexemes t) := by
  rw [lexemes_blanks_append hblank, rulesFrom, entries_blanks hblank, rulesFrom]

def isOpener (c : Char) : Bool :=
  isBare c && c != '/' && c != ';' && startsPrelude c

theorem isOpener_spec (hc : isOpener c = true) :
    isBare c = true ∧ c ≠ '/' ∧ c ≠ ';' ∧ startsPrelude c = true := by
  simpa only [isOpener, Bool.and_eq_true, bne_iff_ne, and_assoc] using hc

theorem lexemes_opener (hc : isOpener c = true) (t : Text) :
    lexemes (c :: t) = .symbol c :: lexemes t := by
  obtain ⟨hbare, hslash, -, -⟩ := isOpener_spec hc
  exact lexemes_bare_cons hbare fun heq => absurd heq hslash

/-- The prelude that an opener begins is not empty. -/
theorem head?_textOf (hc : isOpener c = true) {stop : Lexeme}
    (h : splitPrelude 0 (.symbol c :: tail) = (head, stop :: left)) :
    (textOf head).head? = some c := by
  have hstop : ¬ (c = '\x7b' ∨ c = ';' ∨ c = '\x7d') := by
    obtain ⟨hbare, -, hsemicolon, -⟩ := isOpener_spec hc
    rintro (rfl | rfl | rfl)
    · exact absurd hbare (by decide)
    · exact hsemicolon rfl
    · exact absurd hbare (by decide)
  rw [splitPrelude, if_neg fun hboth => hstop hboth.2, Prod.mk.injEq] at h
  rw [← h.1]
  rfl

def blockRules (atRules : List Text) (start : Nat) (prelude : Text) (body : List Lexeme) :
    List Rule :=
  if prelude.head? = some '@' then
    if Rule.isGrouping (trimEnd prelude) then
      rulesFrom (atRules ++ [trimEnd prelude]) (start + size prelude + 1) body
    else []
  else [ruleAt atRules start prelude (textOf body)]

def blockEntries (atRules : List Text) (start : Nat) (prelude : Text) (body : List Lexeme) :
    List Entry :=
  if prelude.head? = some '@' then
    if Rule.isGrouping (trimEnd prelude) then
      entries (atRules ++ [trimEnd prelude]) (start + size prelude + 1) body
    else []
  else [.rule (ruleAt atRules start prelude (textOf body))]

theorem blockRules_eq (atRules : List Text) (start : Nat) (prelude : Text) (body : List Lexeme) :
    blockRules atRules start prelude body =
      (blockEntries atRules start prelude body).filterMap Entry.rule? := by
  unfold blockRules blockEntries
  split
  · split <;> rfl
  · rfl

theorem entries_open (hc : isOpener c = true)
    (h : splitPrelude 0 (.symbol c :: tail) = (head, .symbol '\x7b' :: left)) :
    entries atRules start (.symbol c :: tail) =
      blockEntries atRules start (textOf head) (splitBody 0 left).1 ++
        entries atRules (start + size (textOf head) + 1 + size (textOf (splitBody 0 left).1) + 1)
          ((splitBody 0 left).2.drop 1) := by
  obtain ⟨-, -, -, hstarts⟩ := isOpener_spec hc
  rw [entries_prelude rfl hstarts h]
  rfl

theorem rulesFrom_open (hc : isOpener c = true)
    (h : splitPrelude 0 (.symbol c :: tail) = (head, .symbol '\x7b' :: left)) :
    rulesFrom atRules start (.symbol c :: tail) =
      blockRules atRules start (textOf head) (splitBody 0 left).1 ++
        rulesFrom atRules (start + size (textOf head) + 1 + size (textOf (splitBody 0 left).1) + 1)
          ((splitBody 0 left).2.drop 1) := by
  rw [rulesFrom, entries_open hc h, List.filterMap_append, ← blockRules_eq]
  rfl

/-- A block whose prelude fits, in front of other text. -/
theorem entries_fitting (hhead : P.head? = some c) (hc : isOpener c = true) (hP : FitsPrelude P)
    (t : Text) :
    entries atRules start (lexemes (P ++ '\x7b' :: t)) =
      blockEntries atRules start P (splitBody 0 (lexemes t)).1 ++
        entries atRules
          (start + size P + 1 + size (textOf (splitBody 0 (lexemes t)).1) + 1)
          ((splitBody 0 (lexemes t)).2.drop 1) := by
  obtain ⟨hstands, hpassed⟩ := fitsPrelude_iff.mp hP
  obtain ⟨rest, rfl⟩ := List.head?_eq_some_iff.mp hhead
  have hsplit := hpassed.splitPrelude_eq (Or.inl rfl) (lexemes t)
  rw [← hstands.lexemes_append_brace (Or.inl rfl), List.cons_append, lexemes_opener hc] at hsplit
  rw [List.cons_append, lexemes_opener hc, entries_open hc hsplit, textOf_lexemes]

theorem rulesFrom_prelude (hhead : P.head? = some c) (hc : isOpener c = true) (hP : FitsPrelude P)
    (t : Text) :
    rulesFrom atRules start (lexemes (P ++ '\x7b' :: t)) =
      blockRules atRules start P (splitBody 0 (lexemes t)).1 ++
        rulesFrom atRules
          (start + size P + 1 + size (textOf (splitBody 0 (lexemes t)).1) + 1)
          ((splitBody 0 (lexemes t)).2.drop 1) := by
  rw [rulesFrom, entries_fitting hhead hc hP, List.filterMap_append, ← blockRules_eq]
  rfl

/-- A block whose parts fit, in front of other text. -/
theorem entries_block (hhead : P.head? = some c) (hc : isOpener c = true) (hP : FitsPrelude P)
    (hB : FitsBody B) (t : Text) :
    entries atRules start (lexemes (P ++ '\x7b' :: (B ++ '\x7d' :: t))) =
      blockEntries atRules start P (lexemes B) ++
        entries atRules (start + size P + 1 + size B + 1) (lexemes t) := by
  obtain ⟨hstands, hclosed⟩ := fitsBody_iff.mp hB
  rw [entries_fitting hhead hc hP, hstands.lexemes_append_brace (Or.inr rfl),
    hclosed.splitBody_eq, textOf_lexemes, List.drop_one, List.tail_cons]

theorem rulesFrom_block (hhead : P.head? = some c) (hc : isOpener c = true) (hP : FitsPrelude P)
    (hB : FitsBody B) (t : Text) :
    rulesFrom atRules start (lexemes (P ++ '\x7b' :: (B ++ '\x7d' :: t))) =
      blockRules atRules start P (lexemes B) ++
        rulesFrom atRules (start + size P + 1 + size B + 1) (lexemes t) := by
  rw [rulesFrom, entries_block hhead hc hP hB, List.filterMap_append, ← blockRules_eq]
  rfl

/-! ## Where a rule is read -/

/-- A rule is read behind the preludes around it. -/
theorem start_le_of_mem (outer : List Text) (hr : r ∈ rulesFrom atRules start ls)
    (hrules : r.atRules = atRules ++ outer) :
    start + size outer.flatten ≤ r.selectorSpan.start := by
  obtain ⟨inner, heq, hle⟩ := exists_atRules_of_mem (mem_rulesFrom.mp hr)
  rw [hrules] at heq
  rwa [List.append_cancel_left heq]

/-- A rule that stands too far in front to be read behind the first prelude is read in its block. -/
theorem exists_block_of_mem (hc : isOpener c = true) (outer : List Text)
    (hr : r ∈ rulesFrom atRules start (.symbol c :: tail)) (hrules : r.atRules = atRules ++ outer)
    (hplace : ∀ head rest, splitPrelude 0 (.symbol c :: tail) = (head, rest) →
      r.selectorSpan.start < start + size (textOf head) + 1 + size outer.flatten) :
    ∃ head left, splitPrelude 0 (.symbol c :: tail) = (head, .symbol '\x7b' :: left) ∧
      r ∈ blockRules atRules start (textOf head) (splitBody 0 left).1 := by
  obtain ⟨hbare, -, -, hstarts⟩ := isOpener_spec hc
  have hfiller : isFiller (.symbol c) = false := by simpa [isFiller, startsPrelude] using hstarts
  cases hsplit : splitPrelude 0 (.symbol c :: tail) with
  | mk head rest =>
      have hbefore := hplace head rest hsplit
      cases rest with
      | nil =>
          rw [mem_rulesFrom, entries_unfinished (by simp) hfiller hsplit] at hr
          exact absurd hr List.not_mem_nil
      | cons stop left =>
          by_cases hstop : stop = .symbol '\x7b'
          · subst hstop
            refine ⟨head, left, rfl, ?_⟩
            rw [rulesFrom_open hc hsplit] at hr
            refine (List.mem_append.mp hr).resolve_right fun hbehind => ?_
            have hle := start_le_of_mem outer hbehind hrules
            omega
          · rw [mem_rulesFrom, entries_prelude rfl hstarts hsplit] at hr
            simp only [if_neg hstop] at hr
            have hle := start_le_of_mem outer (mem_rulesFrom.mpr hr) hrules
            omega

/-- Where a rule is read at the front of a text, its prelude fits there and its body begins. -/
theorem exists_parts_of_mem (hc : isOpener c = true) (hat : c ≠ '@')
    (h : ruleAt atRules start P B ∈ rulesFrom atRules start (lexemes (c :: t))) :
    ∃ prelude left, c :: t = prelude ++ '\x7b' :: left ∧ size prelude = size P ∧
      FitsPrelude prelude ∧ size (textOf (splitBody 0 (lexemes left)).1) = size B := by
  have htext := textOf_lexemes (c :: t)
  rw [lexemes_opener hc] at h htext
  obtain ⟨head, left, hsplit, hmem⟩ := exists_block_of_mem hc [] h
    (List.append_nil _).symm fun head _ _ => by
      simp only [ruleAt]
      omega
  have hlexemes := hsplit
  rw [← lexemes_opener hc] at hlexemes
  obtain ⟨hfits, -, hleft⟩ := fitsPrelude_of_split hlexemes
  have hstart : (textOf head).head? ≠ some '@' := by
    rw [head?_textOf hc hsplit]
    simpa using hat
  rw [blockRules, if_neg hstart, List.mem_singleton] at hmem
  have hspan := congrArg Rule.bodySpan hmem
  simp only [ruleAt, Span.mk.injEq] at hspan
  refine ⟨textOf head, textOf left, ?_, by omega, hfits, by rw [hleft]; omega⟩
  have happend := splitPrelude_append 0 (.symbol c :: lexemes t)
  rw [hsplit] at happend
  rw [← htext, ← happend, textOf_append]
  rfl

/-- A body that is read up to a closing brace, and has the size of the text in front of some other
closing brace, is that text. -/
theorem fitsBody_of_size {body ending : List Lexeme} {behind behind' : Text}
    (hsplit : splitBody 0 (lexemes t) = (body, ending)) (hending : ending ≠ [])
    (hsize : size (textOf body) = size B) (htext : t ++ behind = B ++ '\x7d' :: behind') :
    FitsBody B ∧ ∃ after, t = B ++ '\x7d' :: textOf after ∧ lexemes (textOf after) = after := by
  obtain ⟨stop, after, rfl⟩ := List.exists_cons_of_ne_nil hending
  obtain rfl := splitBody_stop hsplit
  obtain ⟨hfits, -, hafter⟩ := fitsBody_of_split hsplit
  have hread := splitBody_append 0 (lexemes t)
  rw [hsplit] at hread
  have ht := textOf_lexemes t
  rw [← hread, textOf_append] at ht
  rw [← ht, List.append_assoc] at htext
  obtain ⟨hbody, -⟩ := eq_of_append_of_size htext hsize
  rw [hbody] at hfits ht
  exact ⟨hfits, after, ht.symm, hafter⟩

theorem size_block (P B : Text) :
    size (P ++ '\x7b' :: (B ++ ['\x7d'])) = size P + 1 + size B + 1 := by
  have hopen : Char.utf8Size '\x7b' = 1 := rfl
  have hclose : Char.utf8Size '\x7d' = 1 := rfl
  simp only [size_append, size_cons, size_nil, hopen, hclose]
  omega

theorem rulesFrom_newlines (t : Text) :
    rulesFrom [] start (lexemes (['\n', '\n'] ++ t)) = rulesFrom [] (start + 2) (lexemes t) :=
  rulesFrom_blanks (by simp [isAsciiBlank]) t

/-- A rule in front of other text is read as itself exactly if its parts fit. -/
theorem selfContained_rule_iff (hhead : P.head? = some c) (hc : isOpener c = true)
    (hat : c ≠ '@') :
    SelfContained (P ++ '\x7b' :: (B ++ ['\x7d'])) (ruleAt [] 0 P B) ↔
      FitsPrelude P ∧ FitsBody B := by
  have htext (t : Text) : P ++ '\x7b' :: (B ++ ['\x7d']) ++ ['\n', '\n'] ++ t =
      P ++ '\x7b' :: (B ++ '\x7d' :: (['\n', '\n'] ++ t)) := by simp
  constructor
  · intro h
    have hmem : ruleAt [] 0 P B ∈ rulesFrom [] 0
        (lexemes (P ++ '\x7b' :: (B ++ '\x7d' :: ['\n', '\n']))) := by
      have hown := h []
      rw [htext, List.append_nil] at hown
      change rulesFrom [] 0 (lexemes _) = _ at hown
      rw [hown]
      exact List.mem_cons_self
    obtain ⟨rest, rfl⟩ := List.head?_eq_some_iff.mp hhead
    obtain ⟨prelude, left, heq, hprelude, hfits, hbody⟩ := exists_parts_of_mem hc hat hmem
    obtain ⟨rfl, hleft⟩ := eq_of_append_of_size heq.symm hprelude
    obtain rfl := (List.cons.inj hleft).2
    refine ⟨hfits, ?_⟩
    cases hsplit : splitBody 0 (lexemes (B ++ '\x7d' :: ['\n', '\n'])) with
    | mk body ending =>
        rw [hsplit] at hbody
        dsimp only at hbody
        have hending : ending ≠ [] := by
          rintro rfl
          have hread := congrArg (fun ls => size (textOf ls))
            (splitBody_append 0 (lexemes (B ++ '\x7d' :: ['\n', '\n'])))
          simp only [hsplit, List.append_nil, textOf_lexemes, size_append, size_cons] at hread
          have hclose : Char.utf8Size '\x7d' = 1 := rfl
          omega
        exact (fitsBody_of_size hsplit hending hbody (List.append_nil _)).1
  · rintro ⟨hP, hB⟩ t
    have hstart : P.head? ≠ some '@' := by
      rw [hhead]
      simpa using hat
    change rulesFrom [] 0 (lexemes _) = _ :: (rulesFrom [] 0 (lexemes t)).map _
    rw [htext, rulesFrom_block hhead hc hP hB, blockRules, if_neg hstart, rulesFrom_newlines,
      ← rulesFrom_shift, size_block, textOf_lexemes, Nat.zero_add, Nat.add_zero]
    rfl

/-! ## A rule in an at-rule -/

section Media

variable {M : Text}

def innerText (P B : Text) : Text :=
  ['\n', ' ', ' '] ++ (P ++ '\x7b' :: (B ++ '\x7d' :: ['\n']))

theorem fitsBody_innerText (hP : FitsPrelude P) (hB : FitsBody B) :
    FitsBody (innerText P B) ↔ FitsBody P := by
  have hblock : FitsBody ('\x7b' :: (B ++ ['\x7d']) ++ ['\n']) :=
    (fitsBody_append_blanks (by simp [isAsciiBlank]) (by
      rw [← List.cons_append, List.getLast?_concat]
      decide)).mpr (fitsBody_block hB)
  have htext : innerText P B =
      ['\n', ' ', ' '] ++ (P ++ ('\x7b' :: (B ++ ['\x7d']) ++ ['\n'])) := by
    simp [innerText]
  rw [htext, fitsBody_blanks_append (by simp [isAsciiBlank]),
    fitsBody_append_right (fitsPrelude_iff.mp hP).1 hblock (by simp)]

theorem entries_innerText (hhead : P.head? = some c) (hc : isOpener c = true) (hat : c ≠ '@')
    (hP : FitsPrelude P) (hB : FitsBody B) :
    entries atRules start (lexemes (innerText P B)) = [.rule (ruleAt atRules (start + 3) P B)] := by
  have hstart : P.head? ≠ some '@' := by
    rw [hhead]
    simpa using hat
  have hend : entries atRules (start + 3 + size P + 1 + size B + 1) (lexemes ['\n']) = [] := by
    rw [lexemes_blanks (by simp [isAsciiBlank]), ← List.append_nil (List.map _ _),
      entries_blanks (by simp [isAsciiBlank]), entries_nil]
  rw [innerText, lexemes_blanks_append (by simp [isAsciiBlank]),
    entries_blanks (by simp [isAsciiBlank]), entries_block hhead hc hP hB, blockEntries,
    if_neg hstart, textOf_lexemes]
  exact congrArg (_ :: ·) hend

theorem rulesFrom_innerText (hhead : P.head? = some c) (hc : isOpener c = true) (hat : c ≠ '@')
    (hP : FitsPrelude P) (hB : FitsBody B) :
    rulesFrom atRules start (lexemes (innerText P B)) = [ruleAt atRules (start + 3) P B] := by
  rw [rulesFrom, entries_innerText hhead hc hat hP hB]
  rfl

theorem isGrouping_media (h : "@media ".toList <+: M) : Rule.isGrouping M = true := by
  obtain ⟨rest, rfl⟩ := h
  rfl

/-- The prelude of a media query is at least as long as the name of the at-rule. -/
theorem le_size_media {head rest : List Lexeme} (hM : "@media ".toList <+: t)
    (h : splitPrelude 0 (lexemes t) = (head, rest)) : 6 ≤ size (textOf head) := by
  obtain ⟨behind, rfl⟩ := hM
  have hname : "@media ".toList ++ behind = "@media".toList ++ (' ' :: behind) := rfl
  have hpassed : preludeDepth? 0 ("@media".toList.map .symbol) = some 0 := rfl
  have hbare : ∀ c ∈ "@media".toList, isBare c = true := List.all_eq_true.mp rfl
  rw [hname, lexemes_bare_append hbare (by decide +kernel) (by simp),
    splitPrelude_balanced hpassed, Prod.mk.injEq] at h
  rw [← h.1, textOf_append, size_append]
  exact Nat.le_add_right _ _

/-- A rule that stands at the front of the block of a media query shows where its prelude ends. -/
theorem fitsPrelude_media (hM : "@media ".toList <+: M) (hrules : r.atRules = [M])
    (hstart : r.selectorSpan.start = size M + 5)
    (h : r ∈ rulesFrom [] 0 (lexemes (M ++ [' '] ++ '\x7b' :: t))) :
    FitsPrelude (M ++ [' ']) := by
  have hM' : "@media ".toList <+: M ++ [' '] ++ '\x7b' :: t := by
    rw [List.append_assoc]
    exact hM.trans (List.prefix_append _ _)
  have hlong : ∀ head rest, splitPrelude 0 (lexemes (M ++ [' '] ++ '\x7b' :: t)) = (head, rest) →
      6 ≤ size (textOf head) := fun _ _ => le_size_media hM'
  obtain ⟨tail, htail⟩ : ∃ tail, M ++ [' '] ++ '\x7b' :: t = '@' :: tail := by
    obtain ⟨rest, rfl⟩ := hM
    exact ⟨_, rfl⟩
  have htext := textOf_lexemes ('@' :: tail)
  rw [htail, lexemes_opener (by decide)] at h hlong
  obtain ⟨head, left, hsplit, hmem⟩ := exists_block_of_mem (by decide) [M] h hrules
    fun head rest hsplit => by
      have hle := hlong head rest hsplit
      rw [hstart, List.flatten_singleton]
      omega
  rw [blockRules, if_pos (head?_textOf (by decide) hsplit)] at hmem
  split at hmem
  next hgrouping =>
    obtain ⟨inner, hinner, -⟩ := exists_atRules_of_mem (mem_rulesFrom.mp hmem)
    rw [hrules, List.nil_append, List.singleton_append, List.cons.injEq] at hinner
    rw [← lexemes_opener (by decide)] at hsplit
    obtain ⟨hfits, -, -⟩ := fitsPrelude_of_split hsplit
    have hread := splitPrelude_append 0 (lexemes ('@' :: tail))
    rw [hsplit] at hread
    obtain ⟨blanks, hblanks, hblank⟩ := exists_trimEnd_append (textOf head)
    rw [← hinner.1] at hblanks
    rw [← hread, textOf_append, hblanks, ← htail, List.append_assoc, List.append_assoc] at htext
    have hbehind : blanks ++ '\x7b' :: textOf left = ' ' :: '\x7b' :: t :=
      List.append_cancel_left htext
    match blanks with
    | [' '] => rwa [hblanks] at hfits
    | [] => cases hbehind
    | b :: b' :: _ =>
        rw [List.cons_append, List.cons_append, List.cons.injEq, List.cons.injEq] at hbehind
        have hb := hblank b' (by simp)
        rw [hbehind.2.1] at hb
        exact absurd hb (by decide)
  next => exact absurd hmem List.not_mem_nil

/-- A style sheet with one rule outside all at-rules. -/
theorem exists_parse_eq_singleton : ∃ t r, (parse t).rules = [r] ∧ r.atRules = [] ∧
    r.selectorSpan.start = 0 := by
  have hP : FitsPrelude ['a'] := by
    rw [fitsPrelude_iff, lexemes_opener (by decide), lexemes]
    exact ⟨Whole.stands (.char (by decide) (by decide) .nil), passed_of_preludeDepth? rfl⟩
  have hB := fitsBody_nil
  refine ⟨['a'] ++ '\x7b' :: ([] ++ '\x7d' :: []), ruleAt [] 0 ['a'] [], ?_, rfl, rfl⟩
  change rulesFrom [] 0 (lexemes _) = _
  rw [rulesFrom_block rfl (by decide) hP hB, lexemes, rulesFrom_nil]
  rfl

/-- The first closing brace among two newlines and two more is the only one near. -/
theorem eq_newline_of_append {u v : Text}
    (h : u ++ '\x7d' :: v = '\n' :: '\x7d' :: '\n' :: '\n' :: t) (hsize : size u ≤ 3) :
    u = ['\n'] := by
  match u with
  | [] => cases h
  | [x] => rw [(List.cons.inj h).1]
  | [x, y] => cases h
  | [x, y, z] => cases h
  | x :: y :: z :: w :: rest =>
      have hx := x.utf8Size_pos
      have hy := y.utf8Size_pos
      have hz := z.utf8Size_pos
      have hw := w.utf8Size_pos
      simp only [size_cons] at hsize
      omega

/-- Where the body of the at-rule ends near its own brace, and the rule is read in it, it ends right
there. -/
theorem fits_of_mem_inner {I after : Text} (hhead : P.head? = some c)
    (hc : isOpener c = true) (hat : c ≠ '@') (hI : FitsBody I)
    (hr : ruleAt atRules (start + 3) P B ∈ rulesFrom atRules start (lexemes I))
    (htext : I ++ '\x7d' :: after = innerText P B ++ '\x7d' :: (['\n', '\n'] ++ t))
    (hsize : size I ≤ size (innerText P B) + 2) :
    FitsPrelude P ∧ FitsBody B ∧ FitsBody P := by
  obtain ⟨P, rfl⟩ := List.head?_eq_some_iff.mp hhead
  have hclose : c ≠ '\x7d' := by
    rintro rfl
    exact absurd hc (by decide)
  have hsplit : innerText (c :: P) B ++ '\x7d' :: (['\n', '\n'] ++ t) =
      ['\n', ' ', ' ', c] ++
        (P ++ '\x7b' :: (B ++ '\x7d' :: '\n' :: '\x7d' :: '\n' :: '\n' :: t)) := by
    simp [innerText]
  obtain ⟨J, rfl, hJ⟩ := exists_append_of_not_mem (htext.trans hsplit) (by simp [hclose.symm])
  have hlead : ['\n', ' ', ' ', c] ++ J = ['\n', ' ', ' '] ++ c :: J := rfl
  rw [hlead] at hI hr hsize
  rw [rulesFrom_blanks (by simp [isAsciiBlank])] at hr
  obtain ⟨prelude, left, heq, hprelude, hfits, hbody⟩ := exists_parts_of_mem hc hat hr
  have hrest : prelude ++ ('\x7b' :: left ++ '\x7d' :: after) =
      c :: P ++ '\x7b' :: (B ++ '\x7d' :: '\n' :: '\x7d' :: '\n' :: '\n' :: t) := by
    rw [← List.append_assoc, ← heq, List.cons_append, hJ, List.cons_append]
  obtain ⟨rfl, hleft⟩ := eq_of_append_of_size hrest hprelude
  rw [List.cons_append, List.cons.injEq] at hleft
  have hstands := (fitsPrelude_iff.mp hfits).1
  cases hread : splitBody 0 (lexemes left) with
  | mk body ending =>
      rw [hread] at hbody
      -- The body of the at-rule closes, and with it the body of the rule.
      have hending : ending ≠ [] := by
        have hblocks := blocksClose_of_splitBody ((fitsBody_iff.mp hI).2.splitBody_eq [])
        rw [lexemes_blanks_append (by simp [isAsciiBlank]), heq,
          hstands.lexemes_append_brace (Or.inl rfl), ← List.append_assoc] at hblocks
        have hclosed := hblocks _ _ rfl
        rwa [hread] at hclosed
      obtain ⟨hB, close, rfl, -⟩ := fitsBody_of_size hread hending hbody hleft.2
      have hbehind : textOf close ++ '\x7d' :: after = '\n' :: '\x7d' :: '\n' :: '\n' :: t := by
        have hcancel := hleft.2
        rw [List.append_assoc] at hcancel
        exact (List.cons.inj (List.append_cancel_left hcancel)).2
      have hthree : size (textOf close) ≤ 3 := by
        have hone : Char.utf8Size '\n' = 1 := rfl
        rw [heq] at hsize
        simp only [innerText, size_append, size_cons, size_nil] at hsize
        omega
      rw [heq, eq_newline_of_append hbehind hthree] at hI
      exact ⟨hfits, hB, (fitsBody_innerText hfits hB).mp hI⟩

theorem media_space (hM : "@media ".toList <+: M) (hsolid : EndsSolid M) :
    (M ++ [' ']).head? = some '@' ∧ trimEnd (M ++ [' ']) = M ∧ size (M ++ [' ']) = size M + 1 := by
  refine ⟨?_, by rw [trimEnd_append_blanks (by simp [isBlank]), hsolid.trimEnd_eq],
    size_append M [' ']⟩
  obtain ⟨rest, rfl⟩ := hM
  rfl

/-- One rule in the at-rule and one behind it show where all the parts end. -/
theorem fits_of_rules {other : Rule} (hhead : P.head? = some c) (hc : isOpener c = true)
    (hat : c ≠ '@') (hM : "@media ".toList <+: M) (hsolid : EndsSolid M)
    (hrules : other.atRules = [])
    (hplace : other.selectorSpan.start = size M + 1 + 1 + size (innerText P B) + 1 + 2)
    (h : rulesFrom [] 0
        (lexemes (M ++ [' '] ++ '\x7b' :: (innerText P B ++ '\x7d' :: (['\n', '\n'] ++ t)))) =
      [ruleAt [M] (size M + 5) P B, other]) :
    FitsPrelude P ∧ FitsBody B ∧ FitsPrelude (M ++ [' ']) ∧ FitsBody P := by
  obtain ⟨hstart, htrim, hspace⟩ := media_space hM hsolid
  have hsix : 6 ≤ size M := by
    obtain ⟨rest, rfl⟩ := hM
    rw [size_append]
    exact Nat.le_add_right_of_le (by decide)
  have hM' : FitsPrelude (M ++ [' ']) :=
    fitsPrelude_media hM rfl rfl (by rw [h]; exact List.mem_cons_self)
  rw [rulesFrom_prelude hstart (by decide) hM', blockRules, if_pos hstart, htrim,
    if_pos (isGrouping_media hM), List.nil_append, Nat.zero_add, hspace] at h
  cases hread : splitBody 0 (lexemes (innerText P B ++ '\x7d' :: (['\n', '\n'] ++ t))) with
  | mk body ending =>
      rw [hread] at h
      dsimp only at h
      have hbehind :
          other ∈ rulesFrom [] (size M + 1 + 1 + size (textOf body) + 1) (ending.drop 1) := by
        have hmem := List.mem_cons_of_mem (ruleAt [M] (size M + 5) P B)
          (List.mem_singleton_self other)
        rw [← h] at hmem
        refine (List.mem_append.mp hmem).resolve_left fun hinside => ?_
        obtain ⟨inner, hinner, -⟩ := exists_atRules_of_mem (mem_rulesFrom.mp hinside)
        rw [hrules] at hinner
        cases hinner
      have hinside : ruleAt [M] (size M + 5) P B ∈ rulesFrom [M] (size M + 1 + 1) body := by
        have hmem := List.mem_cons_self (a := ruleAt [M] (size M + 5) P B) (l := [other])
        rw [← h] at hmem
        refine (List.mem_append.mp hmem).resolve_right fun houtside => ?_
        have hle := start_le_of_mem [M] houtside rfl
        simp only [ruleAt, List.flatten_singleton] at hle
        omega
      have hending : ending ≠ [] := by
        rintro rfl
        rw [List.drop_nil, rulesFrom_nil] at hbehind
        exact absurd hbehind List.not_mem_nil
      obtain ⟨stop, after, rfl⟩ := List.exists_cons_of_ne_nil hending
      obtain rfl := splitBody_stop hread
      obtain ⟨hI, hbody, -⟩ := fitsBody_of_split hread
      have hle := start_le_of_mem [] hbehind (by rw [hrules]; rfl)
      simp only [List.flatten_nil, size_nil, hplace] at hle
      have htext := textOf_lexemes (innerText P B ++ '\x7d' :: (['\n', '\n'] ++ t))
      rw [← splitBody_append 0 (lexemes _), hread, textOf_append] at htext
      rw [← hbody] at hinside
      obtain ⟨hP, hB, hPB⟩ := fits_of_mem_inner hhead hc hat hI hinside htext (by omega)
      exact ⟨hP, hB, hM', hPB⟩

/-- A rule in a media block in front of other text is read as itself exactly if its parts fit. -/
theorem selfContained_media_iff (hhead : P.head? = some c) (hc : isOpener c = true)
    (hat : c ≠ '@') (hM : "@media ".toList <+: M) (hsolid : EndsSolid M) :
    SelfContained (M ++ [' '] ++ '\x7b' :: (innerText P B ++ ['\x7d']))
        (ruleAt [M] (size M + 5) P B) ↔
      FitsPrelude P ∧ FitsBody B ∧ FitsPrelude (M ++ [' ']) ∧ FitsBody P := by
  have htext (t : Text) : M ++ [' '] ++ '\x7b' :: (innerText P B ++ ['\x7d']) ++ ['\n', '\n'] ++ t =
      M ++ [' '] ++ '\x7b' :: (innerText P B ++ '\x7d' :: (['\n', '\n'] ++ t)) := by simp
  obtain ⟨hstart, htrim, hspace⟩ := media_space hM hsolid
  constructor
  · intro h
    obtain ⟨t, other, hother, hrules, hplace⟩ := exists_parse_eq_singleton
    have hall := h t
    rw [htext, hother, List.map_singleton, size_block, hspace] at hall
    refine fits_of_rules hhead hc hat hM hsolid (show (other.shift _).atRules = [] from hrules) ?_
      hall
    simp only [Rule.shift, Span.shift, hplace]
  · rintro ⟨hP, hB, hM', hPB⟩ t
    change rulesFrom [] 0 (lexemes _) = _ :: (rulesFrom [] 0 (lexemes t)).map _
    rw [htext, rulesFrom_block hstart (by decide) hM' ((fitsBody_innerText hP hB).mpr hPB),
      blockRules, if_pos hstart, htrim, if_pos (isGrouping_media hM), List.nil_append,
      rulesFrom_innerText hhead hc hat hP hB, rulesFrom_newlines, ← rulesFrom_shift,
      size_block, Nat.zero_add, Nat.add_zero, hspace]
    rfl

end Media

theorem parse_eq_of_entries {css : Text} (h : entries [] 0 (lexemes css) = [.rule r]) :
    parse css = { rules := [r], leadingComments := [] } := by
  rw [parse, h]
  rfl

/-- A rule whose parts fit is all that is read in its text. -/
theorem parse_rule (hhead : P.head? = some c) (hc : isOpener c = true) (hat : c ≠ '@')
    (hP : FitsPrelude P) (hB : FitsBody B) :
    parse (P ++ '\x7b' :: (B ++ ['\x7d'])) =
      { rules := [ruleAt [] 0 P B], leadingComments := [] } := by
  have hstart : P.head? ≠ some '@' := by
    rw [hhead]
    simpa using hat
  refine parse_eq_of_entries ?_
  rw [entries_block hhead hc hP hB, blockEntries, if_neg hstart, lexemes.eq_def [], entries_nil,
    textOf_lexemes, List.append_nil]

/-- The same of a rule in a media block. -/
theorem parse_media_rule {M : Text} (hhead : P.head? = some c) (hc : isOpener c = true)
    (hat : c ≠ '@') (hM : "@media ".toList <+: M) (hsolid : EndsSolid M) (hP : FitsPrelude P)
    (hB : FitsBody B) (hM' : FitsPrelude (M ++ [' '])) (hPB : FitsBody P) :
    parse (M ++ [' '] ++ '\x7b' :: (innerText P B ++ ['\x7d'])) =
      { rules := [ruleAt [M] (size M + 5) P B], leadingComments := [] } := by
  obtain ⟨hstart, htrim, hspace⟩ := media_space hM hsolid
  refine parse_eq_of_entries ?_
  rw [entries_block hstart (by decide) hM' ((fitsBody_innerText hP hB).mpr hPB), blockEntries,
    if_pos hstart, htrim, if_pos (isGrouping_media hM), List.nil_append,
    entries_innerText hhead hc hat hP hB, lexemes.eq_def [], entries_nil, Nat.zero_add, hspace,
    List.append_nil]

end UtilityCss.Ruleset
