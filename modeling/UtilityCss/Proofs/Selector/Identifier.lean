import UtilityCss.Proofs.Selector.ClassToken
import UtilityCss.Proofs.Selector.Cursor

/-!
# Class names as identifiers

The escaped form of a class name is an identifier of the style sheet grammar, whatever characters
the name has, unless the name is a single hyphen. It spells the name, so that no other name has it,
and a cursor in front of it stops behind it, unless what follows goes on like a name.
-/

namespace UtilityCss.Selector

open Text Css

variable {c : Char} {s t name : Text}

/-- The characters that end a line; none of them can be escaped by a backslash alone. -/
def isNewline (c : Char) : Bool :=
  c == '\n' || c == '\x0c' || c == '\r'

def isNameStart (c : Char) : Bool :=
  c.isAlpha || c == '_' || 0x80 ≤ c.toNat

/-- A backslash with one character that is neither a hexadecimal digit nor the end of a line, or with
one to six hexadecimal digits and perhaps a blank behind them. -/
inductive IsEscape : Text → Prop where
  | self {c : Char} (hhex : isHexDigit c = false) (hline : isNewline c = false) :
      IsEscape ['\x5c', c]
  | code {digits blank : Text} (hne : digits ≠ []) (hdigits : ∀ d ∈ digits, isHexDigit d = true)
      (hlength : digits.length ≤ 6)
      (hblank : blank = [] ∨ ∃ b, isAsciiBlank b = true ∧ blank = [b]) :
      IsEscape ('\x5c' :: (digits ++ blank))

inductive IsNameRest : Text → Prop where
  | nil : IsNameRest []
  | char {c : Char} {t : Text} (hc : isIdentifierChar c = true) (ht : IsNameRest t) :
      IsNameRest (c :: t)
  | escape {s t : Text} (hs : IsEscape s) (ht : IsNameRest t) : IsNameRest (s ++ t)

inductive IsNameStart : Text → Prop where
  | char {c : Char} (hc : isNameStart c = true) : IsNameStart [c]
  | escape {s : Text} (hs : IsEscape s) : IsNameStart s

/-- Two hyphens, or a start with at most one hyphen in front of it, and a rest. -/
inductive IsIdent : Text → Prop where
  | start {s t : Text} (hs : IsNameStart s) (ht : IsNameRest t) : IsIdent (s ++ t)
  | hyphen {s t : Text} (hs : IsNameStart s) (ht : IsNameRest t) : IsIdent ('-' :: (s ++ t))
  | hyphens {t : Text} (ht : IsNameRest t) : IsIdent ('-' :: '-' :: t)

def IsClassSelector (t : Text) : Prop :=
  ∃ ident, t = '.' :: ident ∧ IsIdent ident

theorem isClassSelector_cons : IsClassSelector ('.' :: t) ↔ IsIdent t := by
  constructor
  · rintro ⟨ident, heq, hident⟩
    rwa [(List.cons.inj heq).2]
  · exact fun h => ⟨t, rfl, h⟩

theorem IsEscape.head?_eq (h : IsEscape s) : s.head? = some '\x5c' := by
  cases h <;> rfl

theorem IsNameStart.ne_nil (h : IsNameStart s) : s ≠ [] := by
  rintro rfl
  cases h with
  | escape hs => cases hs.head?_eq

theorem IsNameStart.head?_ne (h : IsNameStart s) : s.head? ≠ some '-' := by
  cases h with
  | char hc =>
      rintro hhead
      obtain rfl := Option.some.inj hhead
      revert hc
      decide
  | escape hs =>
      rw [hs.head?_eq]
      decide

theorem not_isIdent_nil : ¬ IsIdent [] := by
  intro h
  generalize hnil : ([] : Text) = ident at h
  cases h with
  | start hs => exact hs.ne_nil (List.append_eq_nil_iff.mp hnil.symm).1
  | hyphen => cases hnil
  | hyphens => cases hnil

theorem not_isIdent_hyphen : ¬ IsIdent ['-'] := by
  intro h
  generalize hhyphen : ['-'] = ident at h
  cases h with
  | @start s t hs _ =>
      obtain ⟨c, rest, rfl⟩ := List.exists_cons_of_ne_nil hs.ne_nil
      rw [List.cons_append] at hhyphen
      exact hs.head?_ne (congrArg some (List.cons.inj hhyphen).1.symm)
  | hyphen hs => exact hs.ne_nil (List.append_eq_nil_iff.mp (List.cons.inj hhyphen).2.symm).1
  | hyphens => cases (List.cons.inj hhyphen).2

theorem isEscape_hexEscape (h : c.isDigit = true ∨ isControl c = true) : IsEscape (hexEscape c) := by
  obtain ⟨hdigits, hlength, -⟩ := hexDigits_spec h
  exact .code (isPlain_of_mem_toDigits h).1 hdigits hlength (Or.inr ⟨' ', by decide, rfl⟩)

theorem isNewline_of_not_isControl (h : isControl c = false) : isNewline c = false := by
  have hne : ∀ x, isControl x = true → c ≠ x := by
    rintro x hx rfl
    rw [h] at hx
    cases hx
  simp [isNewline, hne '\n' (by decide), hne '\x0c' (by decide), hne '\r' (by decide)]

theorem isEscape_self (hplain : isPlain c = false) (hcontrol : isControl c = false) :
    IsEscape ['\x5c', c] :=
  .self (not_isHexDigit_of_not_isPlain hplain) (isNewline_of_not_isControl hcontrol)

theorem isNameStart_of_isPlain (hplain : isPlain c = true) (hdigit : c.isDigit = false)
    (hhyphen : c ≠ '-') : isNameStart c = true := by
  simp only [isPlain, Char.isAlphanum, hdigit, Bool.or_false, Bool.or_eq_true, beq_iff_eq,
    hhyphen, or_false] at hplain
  simp only [isNameStart, Bool.or_eq_true, beq_iff_eq]
  exact Or.inl hplain

/-- Where an identifier starts, any character but a hyphen makes a start. -/
theorem isNameStart_escapeChar (hhyphen : c ≠ '-') : IsNameStart (escapeChar true c) := by
  rcases escapeChar_cases true c with ⟨heq, hhex⟩ | ⟨heq, hplain, hdigit⟩ | ⟨heq, hplain, hcontrol⟩
  · rw [heq]
    exact .escape (isEscape_hexEscape hhex)
  · rw [Bool.and_true] at hdigit
    rw [heq]
    exact .char (isNameStart_of_isPlain hplain hdigit hhyphen)
  · rw [heq]
    exact .escape (isEscape_self hplain hcontrol)

theorem IsNameRest.escapeChar_append (startsIdentifier : Bool) (c : Char) (h : IsNameRest t) :
    IsNameRest (escapeChar startsIdentifier c ++ t) := by
  rcases escapeChar_cases startsIdentifier c with
    ⟨heq, hhex⟩ | ⟨heq, hplain, -⟩ | ⟨heq, hplain, hcontrol⟩
  · rw [heq]
    exact .escape (isEscape_hexEscape hhex) h
  · rw [heq]
    exact .char (isIdentifierChar_of_isPlain hplain) h
  · rw [heq]
    exact .escape (isEscape_self hplain hcontrol) h

theorem isNameRest_flatMap (t : Text) : IsNameRest (t.flatMap (escapeChar false)) := by
  induction t with
  | nil => exact .nil
  | cons c t ih =>
      rw [List.flatMap_cons]
      exact ih.escapeChar_append false c

theorem isIdent_escape (hne : name ≠ []) (hhyphen : name ≠ ['-']) : IsIdent (escape name) := by
  unfold escape
  split
  next rest =>
    cases rest with
    | nil => exact absurd rfl hhyphen
    | cons c rest =>
        rw [escapeStart]
        by_cases hc : c = '-'
        · subst hc
          exact .hyphens (isNameRest_flatMap rest)
        · exact .hyphen (isNameStart_escapeChar hc) (isNameRest_flatMap rest)
  next hstart =>
    cases name with
    | nil => exact absurd rfl hne
    | cons c rest =>
        have hc : c ≠ '-' := by
          rintro rfl
          exact hstart rest rfl
        exact .start (isNameStart_escapeChar hc) (isNameRest_flatMap rest)

/-- The names whose escaped form is an identifier, and which make a class selector, are all but the
empty one and the single hyphen, which is left as it is. -/
theorem isIdent_escape_iff (name : Text) :
    (IsIdent (escape name) ↔ name ≠ [] ∧ name ≠ ['-']) ∧
      (IsClassSelector (classSelector name) ↔ name ≠ [] ∧ name ≠ ['-']) := by
  have hident : IsIdent (escape name) ↔ name ≠ [] ∧ name ≠ ['-'] := by
    constructor
    · intro h
      constructor
      · rintro rfl
        exact not_isIdent_nil h
      · rintro rfl
        exact not_isIdent_hyphen h
    · rintro ⟨hne, hhyphen⟩
      exact isIdent_escape hne hhyphen
  exact ⟨hident, isClassSelector_cons.trans hident⟩

/-- A hyphen alone is no identifier. -/
theorem isIdent_escape_hyphen :
    ['-'] ≠ ([] : Text) ∧ ¬ IsIdent (escape ['-']) ∧ ¬ IsClassSelector (classSelector ['-']) :=
  ⟨List.cons_ne_nil _ _, not_isIdent_hyphen, mt isClassSelector_cons.mp not_isIdent_hyphen⟩

/-! ## Reading an escaped name -/

theorem afterIdentifier_eq_self_iff : afterIdentifier t = t ↔ continuesName t = false := by
  refine ⟨fun h => Bool.eq_false_iff.mpr fun hcontinues => ?_, afterIdentifier_eq_self⟩
  cases t with
  | nil => cases hcontinues
  | cons c t =>
      have hsuffix : afterIdentifier (c :: t) <:+ t := by
        simp only [continuesName, List.head?_cons, Option.any_some, Bool.or_eq_true,
          beq_iff_eq] at hcontinues
        rw [afterIdentifier]
        split
        · exact (afterIdentifier_suffix _).trans (afterEscape_suffix t)
        next hescape =>
          rw [if_pos (hcontinues.resolve_right hescape)]
          exact afterIdentifier_suffix t
      have hlength := hsuffix.length_le
      rw [h, List.length_cons] at hlength
      exact absurd hlength (Nat.not_succ_le_self _)

theorem eq_nil_of_size (h : size t = 0) : t = [] := by
  cases t with
  | nil => rfl
  | cons c t =>
      have hpos := c.utf8Size_pos
      rw [size_cons] at h
      omega

theorem size_eq_iff_of_suffix (h : s <:+ t) : size s = size t ↔ s = t := by
  constructor
  · obtain ⟨front, rfl⟩ := h
    intro hsize
    rw [size_append] at hsize
    rw [eq_nil_of_size (by omega : size front = 0), List.nil_append]
  · exact fun heq => heq ▸ rfl

/-- A cursor in front of an escaped name stops right behind it if what follows does not go on like a
name. -/
theorem skipIdentifier_escape_iff (before name rest : Text) :
    ((Cursor.ofPosition (before ++ (escape name ++ rest)) (size before)).skipIdentifier).position =
        size (before ++ escape name) ↔
      continuesName rest = false := by
  have hposition := Cursor.skipIdentifier_position before (escape name ++ rest)
  rw [afterIdentifier_escape_append, ← List.append_assoc, size_append (before ++ escape name)]
    at hposition
  rw [← afterIdentifier_eq_self_iff, ← size_eq_iff_of_suffix (afterIdentifier_suffix rest),
    ← List.append_assoc]
  omega

/-- The escaped form of a class name spells the name, each escape standing for its character, so
that different names have different escaped forms; and the cursor finds the end of it, wherever it
stands, unless an identifier character or a backslash comes next. -/
theorem escape_readsBack (name : Text) :
    unescape (escape name) = name ∧ (∀ other, escape other = escape name → other = name) ∧
      ∀ before rest,
        ((Cursor.ofPosition (before ++ (escape name ++ rest)) (size before)).skipIdentifier).position
            = size (before ++ escape name) ↔
          continuesName rest = false :=
  ⟨unescape_escape name, fun _ h => escape_injective h,
    fun before rest => skipIdentifier_escape_iff before name rest⟩

/-- A digit behind a hyphen, a control character in front of letters that are digits too, and a
character of three bytes. -/
example :
    let escaped := escape "-1\x02be→".toList
    escaped = "-\x5c31 \x5c2 be\x5c→".toList ∧
      unescape escaped = "-1\x02be→".toList ∧
      (Cursor.ofPosition (escaped ++ " b".toList) 0).skipIdentifier.position = 14 := by
  decide +kernel

end UtilityCss.Selector
