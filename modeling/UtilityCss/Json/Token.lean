import UtilityCss.Text.Basic

/-!
# JSON tokens

The text of a JSON value as a list of tokens, white space left out. Numbers and strings follow the
grammar to the letter: no leading zeros, no bare point, no control characters, no other escapes
than the eight of one letter and `\u` with four digits.
-/

namespace UtilityCss.Json

open Text

inductive Token where
  | openBrace
  | closeBrace
  | openBracket
  | closeBracket
  | colon
  | comma
  | null
  | bool (b : Bool)
  | number (literal : Text)
  /-- A string; it has no text if a surrogate in it lacks its partner. -/
  | string (text : Option Text)
  deriving DecidableEq

def isSpace (c : Char) : Bool :=
  c == ' ' || c == '\n' || c == '\t' || c == '\r'

/-! ## Numbers -/

def afterDigits? : Text → Option Text
  | [] => none
  | c :: t => if c.isDigit then some (t.dropWhile Char.isDigit) else none

/-- The rest behind an integer without a sign; only zero itself starts with a zero. -/
def afterInteger? : Text → Option Text
  | '0' :: t => some t
  | t => afterDigits? t

def afterFraction? : Text → Option Text
  | '.' :: t => afterDigits? t
  | t => some t

def afterExponent? : Text → Option Text
  | [] => some []
  | c :: t =>
      if c = 'e' ∨ c = 'E' then
        match t with
        | [] => none
        | sign :: rest => afterDigits? (if sign = '+' ∨ sign = '-' then rest else sign :: rest)
      else some (c :: t)

def afterNumber? (t : Text) : Option Text :=
  let unsigned := (after? ['-'] t).getD t
  ((afterInteger? unsigned).bind afterFraction?).bind afterExponent?

/-! ## Strings -/

def hexValue? (c : Char) : Option Nat :=
  if c.isDigit then some (c.toNat - 48)
  else if 'a' ≤ c ∧ c ≤ 'f' then some (c.toNat - 87)
  else if 'A' ≤ c ∧ c ≤ 'F' then some (c.toNat - 55)
  else none

def hexNumber? (ds : List Char) : Option Nat :=
  ds.foldl (fun acc d => acc.bind fun n => (hexValue? d).map (16 * n + ·)) (some 0)

/-- The character that a letter behind a backslash stands for. -/
def shortEscape? : Char → Option Char
  | '\x22' => some '\x22'
  | '\x5c' => some '\x5c'
  | '/' => some '/'
  | 'b' => some '\x08'
  | 'f' => some '\x0c'
  | 'n' => some '\n'
  | 'r' => some '\r'
  | 't' => some '\t'
  | _ => none

/-- The code points of a string, given the text behind its opening quote, and the rest behind the
closing one. A code point that is a surrogate comes from an escape. -/
def codePoints? : Text → Option (List Nat × Text)
  | [] => none
  | '\x22' :: rest => some ([], rest)
  | '\x5c' :: 'u' :: a :: b :: c :: d :: rest =>
      match hexNumber? [a, b, c, d], codePoints? rest with
      | some n, some (ns, left) => some (n :: ns, left)
      | _, _ => none
  | '\x5c' :: c :: rest =>
      match shortEscape? c, codePoints? rest with
      | some e, some (ns, left) => some (e.toNat :: ns, left)
      | _, _ => none
  | c :: rest =>
      if c.toNat < 0x20 ∨ c = '\x5c' then none
      else
        match codePoints? rest with
        | some (ns, left) => some (c.toNat :: ns, left)
        | none => none

def isHighSurrogate (n : Nat) : Bool :=
  0xD800 ≤ n && n < 0xDC00

def isLowSurrogate (n : Nat) : Bool :=
  0xDC00 ≤ n && n < 0xE000

/-- The text of code points in which every surrogate has its partner. -/
def textOfCodePoints? : List Nat → Option Text
  | [] => some []
  | [n] => if isHighSurrogate n || isLowSurrogate n then none else some [Char.ofNat n]
  | m :: n :: rest =>
      if isHighSurrogate m then
        if isLowSurrogate n then
          (textOfCodePoints? rest).map
            (Char.ofNat (0x10000 + (m - 0xD800) * 0x400 + (n - 0xDC00)) :: ·)
        else none
      else if isLowSurrogate m then none
      else (textOfCodePoints? (n :: rest)).map (Char.ofNat m :: ·)

/-! ## What is left is shorter -/

theorem length_of_afterDigits? {t rest : Text} (h : afterDigits? t = some rest) :
    rest.length < t.length := by
  cases t with
  | nil => cases h
  | cons c t =>
      simp only [afterDigits?] at h
      split at h
      · cases h
        exact Nat.lt_succ_of_le (List.dropWhile_suffix _).length_le
      · cases h

theorem length_of_afterInteger? {t rest : Text} (h : afterInteger? t = some rest) :
    rest.length < t.length := by
  unfold afterInteger? at h
  split at h
  · cases h
    exact Nat.lt_succ_self _
  · exact length_of_afterDigits? h

theorem length_of_afterFraction? {t rest : Text} (h : afterFraction? t = some rest) :
    rest.length ≤ t.length := by
  unfold afterFraction? at h
  split at h
  · exact Nat.le_succ_of_le (Nat.le_of_lt (length_of_afterDigits? h))
  · cases h
    exact Nat.le_refl _

theorem length_of_afterExponent? {t rest : Text} (h : afterExponent? t = some rest) :
    rest.length ≤ t.length := by
  unfold afterExponent? at h
  split at h
  · cases h
    exact Nat.le_refl _
  · split at h
    · split at h
      · cases h
      · have hdigits := length_of_afterDigits? h
        split at hdigits <;> simp only [List.length_cons] at * <;> omega
    · cases h
      exact Nat.le_refl _

theorem length_of_afterNumber? {t rest : Text} (h : afterNumber? t = some rest) :
    rest.length < t.length := by
  have hsign : ((after? ['-'] t).getD t).length ≤ t.length := by
    cases hs : after? ['-'] t with
    | none => exact Nat.le_refl _
    | some u =>
        have := length_of_after? hs
        simp only [Option.getD_some]
        omega
  simp only [afterNumber?, Option.bind_eq_some_iff] at h
  obtain ⟨fraction, ⟨int, hint, hfraction⟩, hexponent⟩ := h
  have := length_of_afterInteger? hint
  have := length_of_afterFraction? hfraction
  have := length_of_afterExponent? hexponent
  omega

theorem length_of_codePoints? {t rest : Text} {ns : List Nat}
    (h : codePoints? t = some (ns, rest)) : rest.length < t.length := by
  fun_induction codePoints? t generalizing ns rest with
  | case1 => cases h
  | case2 => cases h; exact Nat.lt_succ_self _
  | case3 a b c d t n ns' left hrec _ ih =>
      cases h
      have := ih hrec
      simp only [List.length_cons]
      omega
  | case4 => cases h
  | case5 c t _ e ns' left hrec _ ih =>
      cases h
      have := ih hrec
      simp only [List.length_cons]
      omega
  | case6 => cases h
  | case7 => cases h
  | case8 c t _ _ _ _ ns' left hrec ih =>
      cases h
      have := ih hrec
      simp only [List.length_cons]
      omega
  | case9 => cases h

/-! ## Tokens -/

def punctuation? : Char → Option Token
  | '\x7b' => some .openBrace
  | '\x7d' => some .closeBrace
  | '[' => some .openBracket
  | ']' => some .closeBracket
  | ':' => some .colon
  | ',' => some .comma
  | _ => none

def words : List (Text × Token) :=
  [(['n', 'u', 'l', 'l'], .null), (['t', 'r', 'u', 'e'], .bool true),
    (['f', 'a', 'l', 's', 'e'], .bool false)]

def word? (t : Text) : Option (Token × Text) :=
  words.findSome? fun (word, token) => (after? word t).map (token, ·)

def token? : Text → Option (Token × Text)
  | [] => none
  | c :: t =>
      match punctuation? c with
      | some token => some (token, t)
      | none =>
          if c = '\x22' then
            (codePoints? t).map fun (ns, rest) => (.string (textOfCodePoints? ns), rest)
          else
            match word? (c :: t) with
            | some read => some read
            | none => (afterNumber? (c :: t)).map fun rest => (.number (upTo (c :: t) rest), rest)

theorem length_of_word? {t rest : Text} {token : Token} (h : word? t = some (token, rest)) :
    rest.length < t.length := by
  obtain ⟨⟨word, value⟩, hmem, hword⟩ := List.exists_of_findSome?_eq_some h
  obtain ⟨left, hleft, heq⟩ := Option.map_eq_some_iff.mp hword
  cases heq
  have hlen := length_of_after? hleft
  have hpos : 0 < word.length := by
    simp only [words, List.mem_cons, List.not_mem_nil, or_false, Prod.mk.injEq] at hmem
    rcases hmem with ⟨rfl, _⟩ | ⟨rfl, _⟩ | ⟨rfl, _⟩ <;> decide
  omega

theorem length_of_token? {t rest : Text} {token : Token} (h : token? t = some (token, rest)) :
    rest.length < t.length := by
  cases t with
  | nil => cases h
  | cons c t =>
      simp only [token?] at h
      split at h
      · cases h
        exact Nat.lt_succ_self _
      · split at h
        · obtain ⟨⟨ns, left⟩, hleft, heq⟩ := Option.map_eq_some_iff.mp h
          cases heq
          exact Nat.lt_succ_of_lt (length_of_codePoints? hleft)
        · split at h
          next hword =>
            cases h
            exact length_of_word? hword
          next =>
            obtain ⟨left, hleft, heq⟩ := Option.map_eq_some_iff.mp h
            cases heq
            exact length_of_afterNumber? hleft

/-- The tokens of a text, if it is made of tokens and white space alone. -/
def tokens? (t : Text) : Option (List Token) :=
  match t with
  | [] => some []
  | c :: rest =>
      if isSpace c then tokens? rest
      else
        match _h : token? (c :: rest) with
        | none => none
        | some (token, left) => (tokens? left).map (token :: ·)
termination_by t.length
decreasing_by
  · simp
  · exact length_of_token? _h

end UtilityCss.Json
