/-!
# Text as a list of characters

Class names, selectors and style sheets are read character by character, so text is a list of
Unicode scalar values here. This module holds the character classes the other modules share,
trimming, lines, and joining. A scanner takes a text and returns what is left of it; the lemmas
at the end say how long that rest can be.
-/

namespace UtilityCss

abbrev Text := List Char

namespace Text

instance decidableMem (t : Text) (ts : List Text) : Decidable (t ∈ ts) :=
  List.instDecidableMemOfLawfulBEq t ts

/-! ## Character classes -/

/-- The Unicode property White_Space. -/
def isBlank (c : Char) : Bool :=
  let n := c.toNat
  (9 ≤ n && n ≤ 13) || n == 0x20 || n == 0x85 || n == 0xA0 || n == 0x1680 ||
    (0x2000 ≤ n && n ≤ 0x200A) || n == 0x2028 || n == 0x2029 || n == 0x202F || n == 0x205F ||
    n == 0x3000

/-- The white space of the style sheet grammar: space, tab, line feed, form feed, return. -/
def isAsciiBlank (c : Char) : Bool :=
  c == ' ' || c == '\t' || c == '\n' || c == '\x0c' || c == '\r'

/-- The Unicode category Cc. -/
def isControl (c : Char) : Bool :=
  c.toNat < 0x20 || (0x7F ≤ c.toNat && c.toNat ≤ 0x9F)

def isHexDigit (c : Char) : Bool :=
  c.isDigit || ('a' ≤ c && c ≤ 'f') || ('A' ≤ c && c ≤ 'F')

def isQuote (c : Char) : Bool :=
  c == '\x22' || c == '\x27'

theorem isBlank_of_isAsciiBlank {c : Char} (h : isAsciiBlank c = true) : isBlank c = true := by
  simp only [isAsciiBlank, Bool.or_eq_true, beq_iff_eq] at h
  rcases h with (((rfl | rfl) | rfl) | rfl) | rfl <;> decide

/-! ## Trimming -/

def trimStart (t : Text) : Text :=
  t.dropWhile isBlank

def trimEnd (t : Text) : Text :=
  (t.reverse.dropWhile isBlank).reverse

def trim (t : Text) : Text :=
  trimEnd (trimStart t)

/-! ## Pieces -/

/-- What follows `lead` in a text that begins with it. -/
def after? : (lead t : Text) → Option Text
  | [], t => some t
  | _ :: _, [] => none
  | a :: lead, c :: t => if a = c then after? lead t else none

/-- What precedes `tail` in a text that ends with it. -/
def before? (tail t : Text) : Option Text :=
  (after? tail.reverse t.reverse).map List.reverse

/-- The part of `t` in front of its suffix `rest`. -/
def upTo (t rest : Text) : Text :=
  t.take (t.length - rest.length)

def consHead (c : Char) : List Text → List Text
  | [] => [[c]]
  | part :: parts => (c :: part) :: parts

def appendHead (lead : Text) : List Text → List Text
  | [] => [lead]
  | part :: parts => (lead ++ part) :: parts

/-- Cuts a text at every `sep`; there is one part more than there are separators. -/
def splitAtChar (sep : Char) : Text → List Text
  | [] => [[]]
  | c :: t => if c = sep then [] :: splitAtChar sep t else consHead c (splitAtChar sep t)

/-- The lines of a text. A line ends at a line feed, which takes one return before it along; the
text after the last line feed is a line only if it is not empty. -/
def lines : Text → List Text
  | [] => []
  | '\n' :: t => [] :: lines t
  | '\r' :: '\n' :: t => [] :: lines t
  | c :: t => consHead c (lines t)

def join (sep : Text) : List Text → Text
  | [] => []
  | [part] => part
  | part :: parts => part ++ sep ++ join sep parts

/-- The text in single quotes, as messages show names. -/
def quoted (t : Text) : Text :=
  '\x27' :: t ++ ['\x27']

def toLowerAscii (t : Text) : Text :=
  t.map Char.toLower

/-! ## A stretch of one class and what ends it -/

theorem takeWhile_append_exact {p : Char → Bool} {stretch rest : Text}
    (hstretch : ∀ c ∈ stretch, p c = true) (hrest : ∀ c ∈ rest.head?, p c = false) :
    (stretch ++ rest).takeWhile p = stretch := by
  rw [List.takeWhile_append_of_pos hstretch]
  cases rest with
  | nil => exact List.append_nil stretch
  | cons c rest => rw [List.takeWhile_cons_of_neg (by simp [hrest c rfl]), List.append_nil]

theorem dropWhile_append_exact {p : Char → Bool} {stretch rest : Text}
    (hstretch : ∀ c ∈ stretch, p c = true) (hrest : ∀ c ∈ rest.head?, p c = false) :
    (stretch ++ rest).dropWhile p = rest := by
  rw [List.dropWhile_append_of_pos hstretch]
  cases rest with
  | nil => rfl
  | cons c rest => rw [List.dropWhile_cons_of_neg (by simp [hrest c rfl])]

/-! ## What is left is a suffix -/

theorem upTo_append {t rest : Text} (h : rest <:+ t) : upTo t rest ++ rest = t := by
  obtain ⟨lead, rfl⟩ := h
  simp [upTo]

theorem eq_append_of_after? {lead t rest : Text} (h : after? lead t = some rest) :
    t = lead ++ rest := by
  induction lead generalizing t with
  | nil => cases h; rfl
  | cons a lead ih =>
      cases t with
      | nil => cases h
      | cons c t =>
          by_cases hc : a = c
          · simp only [after?, hc, if_true] at h
            rw [hc, ih h, List.cons_append]
          · simp [after?, hc] at h

theorem after?_append (lead t : Text) : after? lead (lead ++ t) = some t := by
  induction lead with
  | nil => rfl
  | cons c lead ih => rw [List.cons_append, after?, if_pos rfl, ih]

theorem before?_eq_some_iff {tail t lead : Text} : before? tail t = some lead ↔ t = lead ++ tail := by
  constructor
  · intro h
    obtain ⟨rest, hrest, rfl⟩ := Option.map_eq_some_iff.mp h
    rw [← List.reverse_reverse t, eq_append_of_after? hrest, List.reverse_append,
      List.reverse_reverse]
  · rintro rfl
    rw [before?, List.reverse_append, after?_append, Option.map_some, List.reverse_reverse]

theorem length_of_after? {lead t rest : Text} (h : after? lead t = some rest) :
    t.length = lead.length + rest.length := by
  rw [eq_append_of_after? h, List.length_append]

end Text

end UtilityCss
