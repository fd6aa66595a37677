import UtilityCss.Css.Lexeme

/-!
# The lexical units of a selector

Each function here takes the text behind the start of a construct and returns what is left behind
its end: an escape, an identifier, a string, an attribute selector, a parenthesised group. A
construct that does not end takes all that is left. What is left is always a suffix.
-/

namespace UtilityCss.Selector

open Text Css

/-- Identifiers hold letters, digits, `-`, `_`, and all characters beyond ASCII. -/
def isIdentifierChar (c : Char) : Bool :=
  c.isAlphanum || c == '-' || c == '_' || 0x80 ≤ c.toNat

/-- White space and the characters that combine two compound selectors. -/
def isCombinator (c : Char) : Bool :=
  isAsciiBlank c || c == '>' || c == '+' || c == '~'

/-! ## Escapes -/

def dropHexDigits : Nat → Text → Text
  | 0, t => t
  | _ + 1, [] => []
  | n + 1, c :: t => if isHexDigit c then dropHexDigits n t else c :: t

/-- Drops the one blank that ends a hexadecimal escape. -/
def dropHexEnd : Text → Text
  | [] => []
  | c :: t => if c = ' ' ∨ c = '\t' ∨ c = '\n' then t else c :: t

/-- Behind a backslash stand up to six hexadecimal digits, or any one character. -/
def afterEscape : Text → Text
  | [] => []
  | c :: t => if isHexDigit c then dropHexEnd (dropHexDigits 5 t) else t

theorem dropHexDigits_suffix (n : Nat) (t : Text) : dropHexDigits n t <:+ t := by
  induction t generalizing n with
  | nil => cases n <;> simp [dropHexDigits]
  | cons c t ih =>
      cases n with
      | zero => simp [dropHexDigits]
      | succ n =>
          rw [dropHexDigits]
          split
          · exact (ih n).trans (List.suffix_cons _ _)
          · exact List.suffix_refl _

theorem dropHexEnd_suffix (t : Text) : dropHexEnd t <:+ t := by
  cases t with
  | nil => exact List.suffix_refl _
  | cons c t =>
      rw [dropHexEnd]
      split
      · exact List.suffix_cons _ _
      · exact List.suffix_refl _

theorem afterEscape_suffix (t : Text) : afterEscape t <:+ t := by
  cases t with
  | nil => exact List.suffix_refl _
  | cons c t =>
      rw [afterEscape]
      split
      · exact ((dropHexEnd_suffix _).trans (dropHexDigits_suffix 5 t)).trans (List.suffix_cons _ _)
      · exact List.suffix_cons _ _

/-! ## Identifiers -/

def afterIdentifier (t : Text) : Text :=
  match t with
  | [] => []
  | c :: rest =>
      if c = '\x5c' then afterIdentifier (afterEscape rest)
      else if isIdentifierChar c then afterIdentifier rest
      else c :: rest
termination_by t.length
decreasing_by
  · have := (afterEscape_suffix rest).length_le
    simp only [List.length_cons]
    omega
  · simp

theorem afterIdentifier_suffix (t : Text) : afterIdentifier t <:+ t := by
  fun_induction afterIdentifier t with
  | case1 => exact List.suffix_refl _
  | case2 rest ih => exact (ih.trans (afterEscape_suffix rest)).trans (List.suffix_cons _ _)
  | case3 c rest _ _ ih => exact ih.trans (List.suffix_cons _ _)
  | case4 => exact List.suffix_refl _

/-! ## Brackets -/

/-- The rest behind the bracket that closes an attribute selector. -/
def afterAttribute (t : Text) : Text :=
  match t with
  | [] => []
  | c :: rest =>
      if c = '\x5c' then afterAttribute (afterEscape rest)
      else if isQuote c then afterAttribute (afterString c rest)
      else if c = ']' then rest
      else afterAttribute rest
termination_by t.length
decreasing_by
  · have := (afterEscape_suffix rest).length_le
    simp only [List.length_cons]
    omega
  · have := (afterString_suffix c rest).length_le
    simp only [List.length_cons]
    omega
  · simp

theorem afterAttribute_suffix (t : Text) : afterAttribute t <:+ t := by
  fun_induction afterAttribute t with
  | case1 => exact List.suffix_refl _
  | case2 rest ih => exact (ih.trans (afterEscape_suffix rest)).trans (List.suffix_cons _ _)
  | case3 c rest _ _ ih => exact (ih.trans (afterString_suffix c rest)).trans (List.suffix_cons _ _)
  | case4 => exact List.suffix_cons _ _
  | case5 c rest _ _ _ ih => exact ih.trans (List.suffix_cons _ _)

/-- The rest behind the parenthesis that leaves no parenthesis open, `depth` being open now. -/
def afterParentheses (depth : Nat) (t : Text) : Text :=
  match t with
  | [] => []
  | c :: rest =>
      if c = '\x5c' then afterParentheses depth (afterEscape rest)
      else if isQuote c then afterParentheses depth (afterString c rest)
      else if c = '[' then afterParentheses depth (afterAttribute rest)
      else if c = '(' then afterParentheses (depth + 1) rest
      else if c = ')' then
        if depth ≤ 1 then rest else afterParentheses (depth - 1) rest
      else afterParentheses depth rest
termination_by t.length
decreasing_by
  · have := (afterEscape_suffix rest).length_le
    simp only [List.length_cons]
    omega
  · have := (afterString_suffix c rest).length_le
    simp only [List.length_cons]
    omega
  · have := (afterAttribute_suffix rest).length_le
    simp only [List.length_cons]
    omega
  all_goals simp

theorem afterParentheses_suffix (depth : Nat) (t : Text) : afterParentheses depth t <:+ t := by
  fun_induction afterParentheses depth t with
  | case1 => exact List.suffix_refl _
  | case2 _ rest ih => exact (ih.trans (afterEscape_suffix rest)).trans (List.suffix_cons _ _)
  | case3 _ c rest _ _ ih =>
      exact (ih.trans (afterString_suffix c rest)).trans (List.suffix_cons _ _)
  | case4 _ rest _ _ ih =>
      exact (ih.trans (afterAttribute_suffix rest)).trans (List.suffix_cons _ _)
  | case5 _ _ _ _ _ ih => exact ih.trans (List.suffix_cons _ _)
  | case6 => exact List.suffix_cons _ _
  | case7 _ _ _ _ _ _ _ ih => exact ih.trans (List.suffix_cons _ _)
  | case8 _ _ _ _ _ _ _ _ ih => exact ih.trans (List.suffix_cons _ _)

/-! ## Units -/

/-- The rest behind the first unit of a selector: an escape, a string, an attribute selector, a
parenthesised group, or else one character. -/
def afterUnit : Text → Text
  | [] => []
  | c :: rest =>
      if c = '\x5c' then afterEscape rest
      else if isQuote c then afterString c rest
      else if c = '[' then afterAttribute rest
      else if c = '(' then afterParentheses 1 rest
      else rest

theorem afterUnit_suffix (c : Char) (rest : Text) : afterUnit (c :: rest) <:+ rest := by
  rw [afterUnit]
  split
  · exact afterEscape_suffix rest
  · split
    · exact afterString_suffix c rest
    · split
      · exact afterAttribute_suffix rest
      · split
        · exact afterParentheses_suffix 1 rest
        · exact List.suffix_refl _

end UtilityCss.Selector
