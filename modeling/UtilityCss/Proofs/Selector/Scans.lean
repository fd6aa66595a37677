import UtilityCss.Css.Escape
import UtilityCss.Proofs.Ruleset.Entries
import UtilityCss.Proofs.Stylesheet.Written

/-!
# Selectors read piece by piece

`Scans` follows the brackets of a text through bare characters and escapes. A steady text may be put
in front of any other without a change to the brackets; escaped names are such texts, whatever the
characters of the name are.
-/

namespace UtilityCss.Selector

open Text Css Ruleset Stylesheet

/-- Read with `depth` brackets open, the text leaves `depth'` open; it has no braces, semicolons,
quotes and comments but in escapes. -/
inductive Scans : Nat → Text → Nat → Prop where
  | nil {depth : Nat} : Scans depth [] depth
  | char {depth deeper depth' : Nat} {c : Char} {t : Text} (hbare : isBare c = true)
      (hsemicolon : c ≠ ';') (hopen : c = '/' → t.head? ≠ some '*')
      (hdepth : bracketDepth? depth [c] = some deeper) (ht : Scans deeper t depth') :
      Scans depth (c :: t) depth'
  | escape {depth depth' : Nat} {c : Char} {t : Text} (ht : Scans depth t depth') :
      Scans depth ('\x5c' :: c :: t) depth'

namespace Scans

variable {depth deeper depth' : Nat} {s t : Text}

theorem whole (h : Scans depth t depth') : Whole t := by
  induction h with
  | nil => exact .nil
  | char hbare _ hopen _ _ ih => exact .char hbare hopen ih
  | escape _ ih => exact .escape ih

theorem preludeDepth?_eq (h : Scans depth t depth') :
    preludeDepth? depth (lexemes t) = some depth' := by
  induction h with
  | nil =>
      rw [lexemes]
      rfl
  | @char depth deeper depth' c t hbare hsemicolon hopen hdepth _ ih =>
      have hstop : ¬ (c = '\x7b' ∨ c = ';' ∨ c = '\x7d') := by
        rintro (rfl | rfl | rfl)
        · exact absurd hbare (by decide)
        · exact hsemicolon rfl
        · exact absurd hbare (by decide)
      rw [lexemes_bare_cons hbare hopen, preludeDepth?, if_neg hstop, hdepth]
      exact ih
  | escape _ ih =>
      rw [lexemes_escape]
      exact ih

/-- A bare character begins no escape. -/
theorem of_cons {c : Char} (h : Scans depth (c :: t) depth') (hbare : isBare c = true) :
    c ≠ ';' ∧ (c = '/' → t.head? ≠ some '*') ∧
      ∃ deeper, bracketDepth? depth [c] = some deeper ∧ Scans deeper t depth' := by
  cases h with
  | char _ hsemicolon hopen hdepth ht => exact ⟨hsemicolon, hopen, _, hdepth, ht⟩
  | escape => exact absurd hbare (by decide)

theorem append (h : Scans depth s deeper) (h' : Scans deeper t depth') (ht : t.head? ≠ some '*') :
    Scans depth (s ++ t) depth' := by
  induction h with
  | nil => exact h'
  | char hbare hsemicolon hopen hdepth _ ih =>
      exact .char hbare hsemicolon (fun hc => head?_append_ne (hopen hc) ht) hdepth (ih h')
  | escape _ ih => exact .escape (ih h')

/-- A bare text is read by its brackets alone. -/
theorem of_bare (hbare : ∀ c ∈ s, isBare c = true ∧ c ≠ ';') (hopen : ¬ ['/', '*'] <:+: s)
    (hdepth : bracketDepth? depth s = some depth') : Scans depth s depth' := by
  induction s generalizing depth with
  | nil =>
      rw [bracketDepth?, Option.some.injEq] at hdepth
      rw [hdepth]
      exact .nil
  | cons c s ih =>
      obtain ⟨hc, hsemicolon⟩ := hbare c List.mem_cons_self
      rw [bracketDepth?_cons] at hdepth
      obtain ⟨deeper, hfirst, hrest⟩ := Option.bind_eq_some_iff.mp hdepth
      refine .char hc hsemicolon ?_ hfirst (ih ?_ ?_ hrest)
      · rintro rfl hhead
        obtain ⟨t, ht⟩ := List.head?_eq_some_iff.mp hhead
        exact hopen ⟨[], t, by rw [ht]; rfl⟩
      · exact fun x hx => hbare x (List.mem_cons_of_mem c hx)
      · exact fun hin => hopen (hin.trans (List.suffix_cons c s).isInfix)

/-- Behind a bare text, a rest may be replaced by any that leaves as many brackets open. -/
theorem replace {t' : Text} (h : Scans depth (s ++ t) depth') (hbare : ∀ c ∈ s, isBare c = true)
    (ht : ∀ d, Scans d t depth' → Scans d t' depth')
    (hhead : t'.head? = some '*' → t.head? = some '*') : Scans depth (s ++ t') depth' := by
  induction s generalizing depth with
  | nil => exact ht depth h
  | cons c s ih =>
      have hc := hbare c List.mem_cons_self
      obtain ⟨hsemicolon, hopen, deeper, hdepth, hrest⟩ := of_cons h hc
      refine .char hc hsemicolon ?_ hdepth (ih hrest fun x hx => hbare x (List.mem_cons_of_mem c hx))
      intro hslash
      cases s with
      | nil => exact fun hstar => hopen hslash (hhead hstar)
      | cons second s => exact hopen hslash

end Scans

def Steady (s : Text) : Prop :=
  ∀ depth t depth', Scans depth t depth' → Scans depth (s ++ t) depth'

theorem Steady.nil : Steady [] := fun _ _ _ h => h

theorem Steady.append {s s' : Text} (h : Steady s) (h' : Steady s') : Steady (s ++ s') := by
  intro depth t depth' ht
  rw [List.append_assoc]
  exact h depth (s' ++ t) depth' (h' depth t depth' ht)

theorem Steady.escape (c : Char) : Steady ['\x5c', c] := fun _ _ _ h => .escape h

def isSteady (c : Char) : Bool :=
  isBare c && c != ';' && c != '/' && c != '(' && c != ')' && c != '[' && c != ']'

theorem ne_of_isBlank {c d : Char} (h : isBlank c = true) (hd : isBlank d = false) : c ≠ d := by
  rintro rfl
  rw [h] at hd
  cases hd

theorem isSteady_of_isBlank {c : Char} (h : isBlank c = true) : isSteady c = true := by
  have hne : ∀ d ∈ "\x7b\x7d\x5c\x22\x27;/()[]".toList, c ≠ d := by
    intro d hd
    have hall : ∀ d ∈ "\x7b\x7d\x5c\x22\x27;/()[]".toList, (!isBlank d) = true :=
      List.all_eq_true.mp rfl
    exact ne_of_isBlank h (by simpa using hall d hd)
  simpa [isSteady, isBare, isQuote, and_assoc] using hne

theorem isSteady_spec {c : Char} (h : isSteady c = true) :
    isBare c = true ∧ c ≠ ';' ∧ c ≠ '/' ∧ ∀ depth, bracketDepth? depth [c] = some depth := by
  simp only [isSteady, Bool.and_eq_true, bne_iff_ne, and_assoc] at h
  obtain ⟨hbare, hsemicolon, hslash, hround, hround', hsquare, hsquare'⟩ := h
  refine ⟨hbare, hsemicolon, hslash, fun depth => ?_⟩
  rw [bracketDepth?, if_neg (not_or.mpr ⟨hround, hsquare⟩),
    if_neg (not_or.mpr ⟨hround', hsquare'⟩), bracketDepth?]

theorem Steady.char {c : Char} (h : isSteady c = true) : Steady [c] := by
  obtain ⟨hbare, hsemicolon, hslash, hdepth⟩ := isSteady_spec h
  exact fun depth t depth' ht =>
    .char hbare hsemicolon (fun hc => absurd hc hslash) (hdepth depth) ht

theorem Steady.of_forall {s : Text} (h : ∀ c ∈ s, isSteady c = true) : Steady s := by
  induction s with
  | nil => exact .nil
  | cons c s ih =>
      exact (Steady.char (h c List.mem_cons_self)).append
        (ih fun x hx => h x (List.mem_cons_of_mem c hx))

/-- Steady characters may be taken away as well. -/
theorem Scans.of_steady_append {depth depth' : Nat} {s t : Text}
    (h : Scans depth (s ++ t) depth') (hs : ∀ c ∈ s, isSteady c = true) : Scans depth t depth' := by
  induction s with
  | nil => exact h
  | cons c s ih =>
      obtain ⟨hbare, -, -, hdepth⟩ := isSteady_spec (hs c List.mem_cons_self)
      rw [List.cons_append] at h
      obtain ⟨-, -, deeper, hfirst, hrest⟩ := h.of_cons hbare
      rw [hdepth, Option.some.injEq] at hfirst
      rw [← hfirst] at hrest
      exact ih hrest fun x hx => hs x (List.mem_cons_of_mem c hx)

/-! ## Escaped names -/

theorem isSteady_of_isPlain {c : Char} (h : isPlain c = true) : isSteady c = true := by
  have hne : ∀ x, isPlain x = false → c ≠ x := by
    rintro x hx rfl
    rw [h] at hx
    cases hx
  have hbare : isBare c = true := by
    have hquote : isQuote c = false := by
      simp [isQuote, hne '\x22' (by decide), hne '\x27' (by decide)]
    simp [isBare, hquote, hne '\x7b' (by decide), hne '\x7d' (by decide), hne '\x5c' (by decide)]
  simp [isSteady, hbare, hne ';' (by decide), hne '/' (by decide), hne '(' (by decide),
    hne ')' (by decide), hne '[' (by decide), hne ']' (by decide)]

/-- The three ways in which a character is written. -/
theorem escapeChar_cases (startsIdentifier : Bool) (c : Char) :
    escapeChar startsIdentifier c = hexEscape c ∧ (c.isDigit = true ∨ isControl c = true) ∨
      escapeChar startsIdentifier c = [c] ∧ isPlain c = true ∧
        (c.isDigit && startsIdentifier) = false ∨
      escapeChar startsIdentifier c = ['\x5c', c] ∧ isPlain c = false ∧ isControl c = false := by
  unfold escapeChar
  split
  next hdigit => exact Or.inl ⟨rfl, Or.inl (Bool.and_eq_true_iff.mp hdigit).1⟩
  next hdigit =>
    split
    next hplain => exact Or.inr (Or.inl ⟨rfl, hplain, Bool.eq_false_iff.mpr hdigit⟩)
    next hplain =>
      split
      next hcontrol => exact Or.inl ⟨rfl, Or.inr hcontrol⟩
      next hcontrol =>
        exact Or.inr (Or.inr ⟨rfl, Bool.eq_false_iff.mpr hplain, Bool.eq_false_iff.mpr hcontrol⟩)

section Pieces

variable {R : Text → Text → Prop} (hnil : R [] [])
  (happend : ∀ {s s' name name'}, R s name → R s' name' → R (s ++ s') (name ++ name'))
  (hchar : ∀ startsIdentifier c, R (escapeChar startsIdentifier c) [c])

include hnil happend hchar

theorem escapeStart_pieces (name : Text) : R (escapeStart name) name := by
  have hrest : ∀ rest : Text, R (rest.flatMap (escapeChar false)) rest := by
    intro rest
    induction rest with
    | nil => exact hnil
    | cons c rest ih => exact happend (hchar false c) ih
  cases name with
  | nil => exact hnil
  | cons c rest => exact happend (hchar true c) (hrest rest)

/-- An escaped name is put together from its escaped characters, wherever they stand. -/
theorem escape_pieces (name : Text) : R (escape name) name := by
  unfold escape
  split
  -- a leading hyphen is written as any hyphen behind the start
  next rest => exact happend (hchar false '-') (escapeStart_pieces hnil happend hchar rest)
  next => exact escapeStart_pieces hnil happend hchar name

end Pieces

/-- Only digits and control characters are escaped by their number, which is small. -/
theorem toNat_lt_of_hexEscape {c : Char} (h : c.isDigit = true ∨ isControl c = true) :
    c.toNat < 160 := by
  rcases h with hdigit | hcontrol
  · simp only [Char.isDigit, Bool.and_eq_true, decide_eq_true_eq] at hdigit
    have hle := UInt32.le_iff_toNat_le.mp hdigit.2
    show c.val.toNat < 160
    have hnine : '9'.val.toNat = 57 := rfl
    omega
  · simp only [isControl, Bool.or_eq_true, Bool.and_eq_true, decide_eq_true_eq] at hcontrol
    omega

theorem isPlain_of_mem_toDigits {c : Char} (h : c.isDigit = true ∨ isControl c = true) :
    Nat.toDigits 16 c.toNat ≠ [] ∧ ∀ x ∈ Nat.toDigits 16 c.toNat, isPlain x = true := by
  have hdigits : ∀ n < 160, Nat.toDigits 16 n ≠ [] ∧ (Nat.toDigits 16 n).all isPlain = true := by
    decide +kernel
  obtain ⟨hne, hplain⟩ := hdigits c.toNat (toNat_lt_of_hexEscape h)
  exact ⟨hne, List.all_eq_true.mp hplain⟩

section Characters

variable {p : Char → Prop} (hplain : ∀ c, isPlain c = true → p c) (hbackslash : p '\x5c')
  (hspace : p ' ')

include hplain hbackslash hspace

theorem forall_mem_hexEscape {c : Char} (h : c.isDigit = true ∨ isControl c = true) :
    ∀ x ∈ hexEscape c, p x := by
  refine List.forall_mem_cons.mpr ⟨hbackslash, List.forall_mem_append.mpr ⟨fun x hx => ?_, ?_⟩⟩
  · exact hplain x ((isPlain_of_mem_toDigits h).2 x hx)
  · exact List.forall_mem_singleton.mpr hspace

theorem forall_mem_escapeChar {c : Char} (hc : isControl c = false → p c)
    (startsIdentifier : Bool) : ∀ x ∈ escapeChar startsIdentifier c, p x := by
  rcases escapeChar_cases startsIdentifier c with
    ⟨heq, hhex⟩ | ⟨heq, hown, -⟩ | ⟨heq, -, hcontrol⟩
  · rw [heq]
    exact forall_mem_hexEscape hplain hbackslash hspace hhex
  · rw [heq]
    exact List.forall_mem_singleton.mpr (hplain c hown)
  · rw [heq]
    exact List.forall_mem_cons.mpr ⟨hbackslash, List.forall_mem_singleton.mpr (hc hcontrol)⟩

/-- An escaped name has plain characters, backslashes and spaces, and those characters of the name
that are no control characters. -/
theorem forall_mem_escape {name : Text} (hname : ∀ c ∈ name, isControl c = false → p c) :
    ∀ x ∈ escape name, p x := by
  refine escape_pieces (R := fun s name =>
    (∀ c ∈ name, isControl c = false → p c) → ∀ x ∈ s, p x) ?_ ?_ ?_ name hname
  · exact fun _ x hx => absurd hx List.not_mem_nil
  · intro s s' name name' hs hs' hboth
    obtain ⟨hfirst, hsecond⟩ := List.forall_mem_append.mp hboth
    exact List.forall_mem_append.mpr ⟨hs hfirst, hs' hsecond⟩
  · intro startsIdentifier c hc
    exact forall_mem_escapeChar hplain hbackslash hspace (List.forall_mem_singleton.mp hc)
      startsIdentifier

end Characters

theorem steady_hexEscape {c : Char} (h : c.isDigit = true ∨ isControl c = true) :
    Steady (hexEscape c) := by
  obtain ⟨hne, hplain⟩ := isPlain_of_mem_toDigits h
  obtain ⟨first, digits, hsplit⟩ := List.exists_cons_of_ne_nil hne
  rw [hsplit] at hplain
  have hrest : Steady (digits ++ [' ']) := by
    refine Steady.append (.of_forall fun x hx => ?_) (.char (by decide))
    exact isSteady_of_isPlain (hplain x (List.mem_cons_of_mem first hx))
  have hescape : hexEscape c = ['\x5c', first] ++ (digits ++ [' ']) := by
    rw [hexEscape, hsplit]
    rfl
  rw [hescape]
  exact (Steady.escape first).append hrest

theorem steady_escapeChar (startsIdentifier : Bool) (c : Char) :
    Steady (escapeChar startsIdentifier c) := by
  rcases escapeChar_cases startsIdentifier c with ⟨heq, hhex⟩ | ⟨heq, hplain, -⟩ | ⟨heq, -⟩
  · rw [heq]
    exact steady_hexEscape hhex
  · rw [heq]
    exact .char (isSteady_of_isPlain hplain)
  · rw [heq]
    exact .escape c

theorem steady_escape (name : Text) : Steady (escape name) :=
  escape_pieces (R := fun s _ => Steady s) .nil Steady.append steady_escapeChar name

/-- A character stays as it is, or there is a backslash in front of it. -/
theorem escapeChar_eq_or (startsIdentifier : Bool) (c : Char) :
    escapeChar startsIdentifier c = [c] ∧ isPlain c = true ∨
      ∃ t, escapeChar startsIdentifier c = '\x5c' :: t := by
  rcases escapeChar_cases startsIdentifier c with ⟨heq, -⟩ | ⟨heq, hplain, -⟩ | ⟨heq, -⟩
  · exact Or.inr ⟨_, heq⟩
  · exact Or.inl ⟨heq, hplain⟩
  · exact Or.inr ⟨_, heq⟩

theorem isPlain_of_mem_escapeChar {startsIdentifier : Bool} {c : Char}
    (h : '\x5c' ∉ escapeChar startsIdentifier c) :
    ∀ x ∈ escapeChar startsIdentifier c, isPlain x = true := by
  rcases escapeChar_eq_or startsIdentifier c with ⟨heq, hplain⟩ | ⟨t, heq⟩
  · rw [heq]
    exact List.forall_mem_singleton.mpr hplain
  · rw [heq] at h
    exact absurd List.mem_cons_self h

/-- An escaped name has a backslash where it has any but plain characters. -/
theorem isPlain_of_mem_escape {name : Text} (h : '\x5c' ∉ escape name) :
    ∀ x ∈ escape name, isPlain x = true := by
  refine escape_pieces (R := fun s _ => '\x5c' ∉ s → ∀ x ∈ s, isPlain x = true) ?_ ?_ ?_ name h
  · exact fun _ x hx => absurd hx List.not_mem_nil
  · intro s s' _ _ hs hs' hboth
    obtain ⟨hfirst, hsecond⟩ := not_or.mp (mt List.mem_append.mpr hboth)
    exact List.forall_mem_append.mpr ⟨hs hfirst, hs' hsecond⟩
  · exact fun _ _ => isPlain_of_mem_escapeChar

end UtilityCss.Selector
