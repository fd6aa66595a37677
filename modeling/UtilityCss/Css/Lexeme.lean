import UtilityCss.Text.Basic

/-!
# Lexemes of a style sheet

To find where rules begin and end, a style sheet is read as a list of lexemes: comments, stretches
that mean nothing but themselves (an escape, a string), and single characters. By
`textOf_lexemes` the lexemes of a text, one behind the other, are the text.
-/

namespace UtilityCss.Css

open Text

inductive Lexeme where
  | symbol (c : Char)
  /-- An escape or a string. -/
  | verbatim (text : Text)
  | comment (text : Text)
  deriving DecidableEq

def Lexeme.text : Lexeme → Text
  | symbol c => [c]
  | verbatim t => t
  | comment t => t

def textOf (ls : List Lexeme) : Text :=
  ls.flatMap Lexeme.text

/-- The rest behind the quote that closes a string; a backslash takes the next character along. -/
def afterString (quote : Char) : Text → Text
  | [] => []
  | ['\x5c'] => []
  | '\x5c' :: _ :: rest => afterString quote rest
  | c :: rest => if c = quote then rest else afterString quote rest

def afterComment : Text → Text
  | [] => []
  | '*' :: '/' :: rest => rest
  | _ :: rest => afterComment rest

theorem afterString_suffix (quote : Char) (t : Text) : afterString quote t <:+ t := by
  fun_induction afterString quote t with
  | case1 => exact List.suffix_refl _
  | case2 => exact List.nil_suffix
  | case3 c rest ih => exact ih.trans ((List.suffix_cons _ _).trans (List.suffix_cons _ _))
  | case4 => exact List.suffix_cons _ _
  | case5 c rest _ _ _ ih => exact ih.trans (List.suffix_cons _ _)

theorem afterComment_suffix (t : Text) : afterComment t <:+ t := by
  fun_induction afterComment t with
  | case1 => exact List.suffix_refl _
  | case2 rest => exact (List.suffix_cons _ _).trans (List.suffix_cons _ _)
  | case3 c rest _ ih => exact ih.trans (List.suffix_cons _ _)

def lexemes (t : Text) : List Lexeme :=
  match t with
  | [] => []
  | '/' :: '*' :: rest =>
      let left := afterComment rest
      .comment ('/' :: '*' :: upTo rest left) :: lexemes left
  | c :: rest =>
      if c = '\x5c' then .verbatim (c :: rest.take 1) :: lexemes (rest.drop 1)
      else if isQuote c then
        let left := afterString c rest
        .verbatim (c :: upTo rest left) :: lexemes left
      else .symbol c :: lexemes rest
termination_by t.length
decreasing_by
  · have := (afterComment_suffix rest).length_le
    simp only [List.length_cons]
    omega
  · simp only [List.length_cons, List.length_drop]
    omega
  · have := (afterString_suffix c rest).length_le
    simp only [List.length_cons]
    omega
  · simp

theorem textOf_cons (l : Lexeme) (ls : List Lexeme) : textOf (l :: ls) = l.text ++ textOf ls :=
  rfl

theorem textOf_append (ls ls' : List Lexeme) : textOf (ls ++ ls') = textOf ls ++ textOf ls' := by
  simp [textOf]

theorem textOf_lexemes (t : Text) : textOf (lexemes t) = t := by
  fun_induction lexemes t with
  | case1 => rfl
  | case2 rest left ih =>
      rw [textOf_cons, ih]
      simpa [Lexeme.text] using upTo_append (afterComment_suffix rest)
  | case3 rest _ ih =>
      rw [textOf_cons, ih, Lexeme.text, List.cons_append, List.take_append_drop]
  | case4 c rest _ _ _ left ih =>
      rw [textOf_cons, ih]
      simpa [Lexeme.text] using upTo_append (afterString_suffix c rest)
  | case5 c rest _ _ _ ih =>
      rw [textOf_cons, ih]
      rfl

end UtilityCss.Css
