import UtilityCss.Json.Token
import UtilityCss.Proofs.Selector.Scans
import UtilityCss.Selector.Compound

/-!
# Escaped names read back

In an identifier, a backslash in front of hexadecimal digits stands for the character with that
number, and in front of any other character for this character. Read so, the escaped form of a name
spells the name, whatever its characters are. Hence two names with one escaped form are the same
name, and the scanner of identifiers passes an escaped name whatever follows it.
-/

namespace UtilityCss.Selector

open Text Css

theorem isIdentifierChar_of_isPlain {c : Char} (h : isPlain c = true) :
    isIdentifierChar c = true := by
  simp only [isPlain, isIdentifierChar, Bool.or_eq_true] at h ⊢
  rcases h with (halphanum | hunderscore) | hhyphen
  · exact Or.inl (Or.inl (Or.inl halphanum))
  · exact Or.inl (Or.inr hunderscore)
  · exact Or.inl (Or.inl (Or.inr hhyphen))

theorem ne_backslash_of_isPlain {c : Char} (h : isPlain c = true) : c ≠ '\x5c' := by
  rintro rfl
  revert h
  decide

/-- A plain character is one of ASCII. -/
theorem toNat_lt_of_isPlain {c : Char} (h : isPlain c = true) : c.toNat < 128 := by
  have hbound : ∀ last : Char, last.toNat < 128 → c ≤ last → c.toNat < 128 :=
    fun last hlast hle => Nat.lt_of_le_of_lt (UInt32.le_iff_toNat_le.mp hle) hlast
  simp only [isPlain, Bool.or_eq_true, beq_iff_eq] at h
  rcases h with (halphanum | rfl) | rfl
  · rcases Bool.or_eq_true_iff.mp halphanum with hletter | hdigit
    · rcases Bool.or_eq_true_iff.mp hletter with hupper | hlower
      · exact hbound 'Z' (by decide) (of_decide_eq_true hupper).2
      · exact hbound 'z' (by decide) (of_decide_eq_true (Bool.and_eq_true_iff.mp hlower).2)
    · exact hbound '9' (by decide) (of_decide_eq_true (Bool.and_eq_true_iff.mp hdigit).2)
  · decide
  · decide

theorem isSolid_of_isPlain {c : Char} (h : isPlain c = true) :
    isBlank c = false ∧ isControl c = false := by
  have hascii : ∀ n < 128, isPlain (Char.ofNat n) = true →
      isBlank (Char.ofNat n) = false ∧ isControl (Char.ofNat n) = false := by
    decide +kernel
  have hc := hascii c.toNat (toNat_lt_of_isPlain h)
  rw [Char.ofNat_toNat] at hc
  exact hc h

/-- The names of pseudo-elements are plain, up to case. -/
theorem isPlain_toLower_of_element {name : Text} {c : Char}
    (h : toLowerAscii name ∈ singleColonElements) (hc : c ∈ name) : isPlain c.toLower = true := by
  have hall : singleColonElements.all (fun e => e.all isPlain) = true := by decide
  exact List.all_eq_true.mp (List.all_eq_true.mp hall _ h) _ (List.mem_map_of_mem hc)

def escapedChar? : Text → Option Char
  | [] => none
  | c :: t =>
      if isHexDigit c then
        (Json.hexNumber? (((c :: t).take 6).takeWhile isHexDigit)).map Char.ofNat
      else some c

def unescape (t : Text) : Text :=
  match t with
  | [] => []
  | c :: rest =>
      if c = '\x5c' then (escapedChar? rest).toList ++ unescape (afterEscape rest)
      else c :: unescape rest
termination_by t.length
decreasing_by
  · have := (afterEscape_suffix rest).length_le
    simp only [List.length_cons]
    omega
  · simp

/-- Behind a backslash, whatever follows, the text is the whole of an escape for the character. -/
def StandsFor (e : Text) (c : Char) : Prop :=
  ∀ t, afterEscape (e ++ t) = t ∧ escapedChar? (e ++ t) = some c

theorem standsFor_self {c : Char} (h : isHexDigit c = false) : StandsFor [c] c := by
  intro t
  rw [List.singleton_append, afterEscape, escapedChar?, h]
  exact ⟨rfl, rfl⟩

theorem dropHexDigits_append {digits : Text} {n : Nat} {c : Char}
    (h : ∀ d ∈ digits, isHexDigit d = true) (hn : digits.length ≤ n) (hc : isHexDigit c = false)
    (t : Text) : dropHexDigits n (digits ++ c :: t) = c :: t := by
  induction digits generalizing n with
  | nil =>
      cases n with
      | zero => rfl
      | succ n => exact if_neg (by rw [hc]; exact Bool.false_ne_true)
  | cons d digits ih =>
      obtain ⟨hd, hdigits⟩ := List.forall_mem_cons.mp h
      cases n with
      | zero => exact absurd hn (Nat.not_succ_le_zero _)
      | succ n =>
          rw [List.cons_append, dropHexDigits, if_pos hd]
          exact ih hdigits (Nat.le_of_succ_le_succ hn)

def endsCode (c : Char) : Bool :=
  c == ' ' || c == '\t' || c == '\n'

theorem afterEscape_code {digits : Text} {c : Char} (hne : digits ≠ [])
    (h : ∀ d ∈ digits, isHexDigit d = true) (hlength : digits.length ≤ 6)
    (hc : endsCode c = true) (t : Text) : afterEscape (digits ++ c :: t) = t := by
  simp only [endsCode, Bool.or_eq_true, beq_iff_eq, or_assoc] at hc
  have hhex : isHexDigit c = false := by rcases hc with rfl | rfl | rfl <;> decide
  cases digits with
  | nil => exact absurd rfl hne
  | cons d digits =>
      obtain ⟨hd, hdigits⟩ := List.forall_mem_cons.mp h
      rw [List.cons_append, afterEscape, if_pos hd,
        dropHexDigits_append hdigits (Nat.le_of_succ_le_succ hlength) hhex, dropHexEnd, if_pos hc]

/-- Up to six hexadecimal digits and the space behind them are an escape. -/
theorem standsFor_digits {digits : Text} {n : Nat} (hne : digits ≠ [])
    (h : ∀ d ∈ digits, isHexDigit d = true) (hlength : digits.length ≤ 6)
    (hnumber : Json.hexNumber? digits = some n) :
    StandsFor (digits ++ [' ']) (Char.ofNat n) := by
  intro t
  rw [List.append_assoc, List.singleton_append]
  refine ⟨afterEscape_code hne h hlength rfl t, ?_⟩
  cases digits with
  | nil => exact absurd rfl hne
  | cons d digits =>
      obtain ⟨hd, -⟩ := List.forall_mem_cons.mp h
      have hspace : ((' ' :: t).take (6 - (d :: digits).length)).takeWhile isHexDigit = [] := by
        cases 6 - (d :: digits).length with
        | zero => rfl
        | succ k => exact List.takeWhile_cons_of_neg (by decide)
      have htaken : (((d :: digits) ++ ' ' :: t).take 6).takeWhile isHexDigit = d :: digits := by
        rw [List.take_append, List.take_of_length_le hlength, List.takeWhile_append_of_pos h,
          hspace, List.append_nil]
      rw [List.cons_append] at htaken ⊢
      rw [escapedChar?, if_pos hd, htaken, hnumber, Option.map_some]

/-- The digits of a character that is escaped by its number. -/
theorem hexDigits_spec {c : Char} (h : c.isDigit = true ∨ isControl c = true) :
    (∀ d ∈ Nat.toDigits 16 c.toNat, isHexDigit d = true) ∧ (Nat.toDigits 16 c.toNat).length ≤ 6 ∧
      Json.hexNumber? (Nat.toDigits 16 c.toNat) = some c.toNat := by
  have hnumbers : ∀ n < 160, (Nat.toDigits 16 n).all isHexDigit = true ∧
      (Nat.toDigits 16 n).length ≤ 6 ∧ Json.hexNumber? (Nat.toDigits 16 n) = some n := by
    decide +kernel
  obtain ⟨hdigits, hrest⟩ := hnumbers c.toNat (toNat_lt_of_hexEscape h)
  exact ⟨List.all_eq_true.mp hdigits, hrest⟩

theorem standsFor_hex {c : Char} (h : c.isDigit = true ∨ isControl c = true) :
    StandsFor (Nat.toDigits 16 c.toNat ++ [' ']) c := by
  obtain ⟨hdigits, hlength, hnumber⟩ := hexDigits_spec h
  have hstands := standsFor_digits (isPlain_of_mem_toDigits h).1 hdigits hlength hnumber
  rwa [Char.ofNat_toNat] at hstands

inductive Spells : Text → Text → Prop where
  | nil : Spells [] []
  | plain {c : Char} {s name : Text} (hc : isPlain c = true) (hs : Spells s name) :
      Spells (c :: s) (c :: name)
  | escape {c : Char} {e s name : Text} (he : StandsFor e c) (hs : Spells s name) :
      Spells ('\x5c' :: (e ++ s)) (c :: name)

namespace Spells

variable {s s' name name' : Text}

theorem append (h : Spells s name) (h' : Spells s' name') : Spells (s ++ s') (name ++ name') := by
  induction h with
  | nil => exact h'
  | plain hc _ ih => exact .plain hc ih
  | escape he _ ih =>
      rw [List.cons_append, List.append_assoc]
      exact .escape he ih

theorem single {c : Char} {e : Text} (he : StandsFor e c) : Spells ('\x5c' :: e) [c] := by
  have hspells := Spells.escape he .nil
  rwa [List.append_nil] at hspells

theorem unescape_eq (h : Spells s name) : unescape s = name := by
  induction h with
  | nil => rw [unescape]
  | plain hc _ ih => rw [unescape, if_neg (ne_backslash_of_isPlain hc), ih]
  | @escape c e s name he _ ih =>
      obtain ⟨hafter, hchar⟩ := he s
      rw [unescape, if_pos rfl, hafter, hchar, ih]
      rfl

end Spells

theorem isPlain_of_isHexDigit {c : Char} (h : isHexDigit c = true) : isPlain c = true := by
  have hplain : c.isAlphanum = true → isPlain c = true := fun halphanum => by
    rw [isPlain, halphanum, Bool.true_or, Bool.true_or]
  have hletter : c.isUpper = true ∨ c.isLower = true → isPlain c = true := fun hcase =>
    hplain (Bool.or_eq_true_iff.mpr (Or.inl (Bool.or_eq_true_iff.mpr hcase)))
  simp only [isHexDigit, Bool.or_eq_true, Bool.and_eq_true, decide_eq_true_eq] at h
  rcases h with (hdigit | ⟨hfirst, hlast⟩) | ⟨hfirst, hlast⟩
  · exact hplain (Bool.or_eq_true_iff.mpr (Or.inr hdigit))
  · have hz : c ≤ 'z' := Char.le_trans hlast (by decide)
    exact hletter (Or.inr (Bool.and_eq_true_iff.mpr ⟨decide_eq_true hfirst, decide_eq_true hz⟩))
  · have hZ : c ≤ 'Z' := Char.le_trans hlast (by decide)
    exact hletter (Or.inl (decide_eq_true ⟨hfirst, hZ⟩))

theorem not_isHexDigit_of_not_isPlain {c : Char} (h : isPlain c = false) :
    isHexDigit c = false := by
  refine Bool.eq_false_iff.mpr fun hhex => ?_
  rw [isPlain_of_isHexDigit hhex] at h
  cases h

theorem spells_escapeChar (startsIdentifier : Bool) (c : Char) :
    Spells (escapeChar startsIdentifier c) [c] := by
  rcases escapeChar_cases startsIdentifier c with
    ⟨heq, hhex⟩ | ⟨heq, hplain, -⟩ | ⟨heq, hplain, -⟩
  · rw [heq]
    exact .single (standsFor_hex hhex)
  · rw [heq]
    exact .plain hplain .nil
  · rw [heq]
    exact .single (standsFor_self (not_isHexDigit_of_not_isPlain hplain))

theorem spells_escape (name : Text) : Spells (escape name) name :=
  escape_pieces .nil Spells.append spells_escapeChar name

/-- What an escaped name spells is the name. -/
theorem unescape_escape (name : Text) : unescape (escape name) = name :=
  (spells_escape name).unescape_eq

theorem escape_injective : Function.Injective escape :=
  Function.LeftInverse.injective unescape_escape

/-! ## Identifiers -/

inductive IsIdentifier : Text → Prop where
  | nil : IsIdentifier []
  | char {c : Char} {s : Text} (hc : isIdentifierChar c = true) (hs : IsIdentifier s) :
      IsIdentifier (c :: s)
  | escape {c : Char} {s : Text} (hc : isHexDigit c = false) (hs : IsIdentifier s) :
      IsIdentifier ('\x5c' :: c :: s)
  | code {digits s : Text} {c : Char} (hne : digits ≠ [])
      (hdigits : ∀ d ∈ digits, isHexDigit d = true) (hlength : digits.length ≤ 6)
      (hc : endsCode c = true) (hs : IsIdentifier s) : IsIdentifier ('\x5c' :: (digits ++ c :: s))

namespace IsIdentifier

variable {s s' : Text}

theorem append (h : IsIdentifier s) (h' : IsIdentifier s') : IsIdentifier (s ++ s') := by
  induction h with
  | nil => exact h'
  | char hc _ ih => exact .char hc ih
  | escape hc _ ih => exact .escape hc ih
  | code hne hdigits hlength hc _ ih =>
      rw [List.cons_append, List.append_assoc, List.cons_append]
      exact .code hne hdigits hlength hc ih

theorem of_chars (h : ∀ c ∈ s, isIdentifierChar c = true) : IsIdentifier s := by
  induction s with
  | nil => exact .nil
  | cons c s ih =>
      obtain ⟨hc, hs⟩ := List.forall_mem_cons.mp h
      exact .char hc (ih hs)

/-- The scanner passes an identifier, whatever follows it. -/
theorem afterIdentifier_append (h : IsIdentifier s) (t : Text) :
    afterIdentifier (s ++ t) = afterIdentifier t := by
  induction h with
  | nil => rfl
  | @char c s hc _ ih =>
      have hne : c ≠ '\x5c' := by
        rintro rfl
        exact absurd hc (by decide)
      rw [List.cons_append, afterIdentifier, if_neg hne, if_pos hc, ih]
  | escape hc _ ih =>
      rw [List.cons_append, List.cons_append, afterIdentifier, if_pos rfl, afterEscape, hc,
        if_neg Bool.false_ne_true, ih]
  | code hne hdigits hlength hc _ ih =>
      rw [List.cons_append, List.append_assoc, List.cons_append, afterIdentifier, if_pos rfl,
        afterEscape_code hne hdigits hlength hc, ih]

end IsIdentifier

theorem isIdentifier_hexEscape {c : Char} (h : c.isDigit = true ∨ isControl c = true) :
    IsIdentifier (hexEscape c) := by
  obtain ⟨hdigits, hlength, -⟩ := hexDigits_spec h
  exact .code (isPlain_of_mem_toDigits h).1 hdigits hlength rfl .nil

theorem isIdentifier_escapeChar (startsIdentifier : Bool) (c : Char) :
    IsIdentifier (escapeChar startsIdentifier c) := by
  rcases escapeChar_cases startsIdentifier c with
    ⟨heq, hhex⟩ | ⟨heq, hplain, -⟩ | ⟨heq, hplain, -⟩
  · rw [heq]
    exact isIdentifier_hexEscape hhex
  · rw [heq]
    exact .char (isIdentifierChar_of_isPlain hplain) .nil
  · rw [heq]
    exact .escape (not_isHexDigit_of_not_isPlain hplain) .nil

theorem isIdentifier_escape (name : Text) : IsIdentifier (escape name) :=
  escape_pieces (R := fun s _ => IsIdentifier s) .nil IsIdentifier.append isIdentifier_escapeChar
    name

theorem afterIdentifier_escape_append (name t : Text) :
    afterIdentifier (escape name ++ t) = afterIdentifier t :=
  (isIdentifier_escape name).afterIdentifier_append t

end UtilityCss.Selector
