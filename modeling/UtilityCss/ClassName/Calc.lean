import UtilityCss.Text.Basic

/-!
# Ambiguous sums in calc

In `calc(1rem+2px)` a style sheet reader takes `+2px` for a signed number, not for a sum. A
sign is ambiguous when it stands right behind an operand. What `var(…)` encloses is skipped:
the names in it may hold hyphens.
-/

namespace UtilityCss.ClassName

open Text

/-- What stands before the parenthesis that closes a group, read inside it at `depth` further
parentheses; everything if none closes it. -/
def insideGroup (depth : Nat) : Text → Text
  | [] => []
  | c :: rest =>
      if c = '(' then c :: insideGroup (depth + 1) rest
      else if c = ')' then
        match depth with
        | 0 => []
        | depth + 1 => c :: insideGroup depth rest
      else c :: insideGroup depth rest

/-- What stands behind that parenthesis; nothing if none closes the group. -/
def afterGroup (depth : Nat) : Text → Text
  | [] => []
  | c :: rest =>
      if c = '(' then afterGroup (depth + 1) rest
      else if c = ')' then
        match depth with
        | 0 => rest
        | depth + 1 => afterGroup depth rest
      else afterGroup depth rest

theorem afterGroup_suffix (depth : Nat) (t : Text) : afterGroup depth t <:+ t := by
  induction t generalizing depth with
  | nil => exact List.suffix_refl _
  | cons c rest ih =>
      unfold afterGroup
      split
      · exact (ih _).trans (List.suffix_cons _ _)
      · split
        · split
          · exact List.suffix_cons _ _
          · exact (ih _).trans (List.suffix_cons _ _)
        · exact (ih _).trans (List.suffix_cons _ _)

/-- Characters of a number with its unit. -/
def isDimensionChar (c : Char) : Bool :=
  c.isAlphanum || c == '.'

/--
Whether an operand ends where a text ends; the text is given backwards. A unit such as `rem`
ends one only behind a number, and a number behind a hyphen belongs to a name.
-/
def endsOperand : (before : Text) → Bool
  | [] => false
  | c :: before =>
      if c = ')' ∨ c = '%' ∨ c.isDigit then true
      else if c.isAlpha then
        let word := (c :: before).takeWhile isDimensionChar
        let ahead := (c :: before).dropWhile isDimensionChar
        word.getLast?.any (fun first => first.isDigit || first == '.') && ahead.head? != some '-'
      else false

/-- Whether the rest of a sum holds an ambiguous sign, given what precedes it backwards. -/
def ambiguousFrom (before rest : Text) : Bool :=
  match rest with
  | [] => false
  | c :: tail =>
      match _h : after? ['v', 'a', 'r', '('] (c :: tail) with
      | some reference => ambiguousFrom [')'] (afterGroup 0 reference)
      | none =>
          if (c = '+' ∨ c = '-') ∧ endsOperand before then true
          else ambiguousFrom (c :: before) tail
termination_by rest.length
decreasing_by
  · have hread := length_of_after? _h
    have hgroup := (afterGroup_suffix 0 reference).length_le
    simp only [List.length_cons, List.length_nil] at *
    omega
  · simp

/-- Whether some `calc(…)` in a value holds an ambiguous sign. -/
def hasAmbiguousCalc : Text → Bool
  | [] => false
  | c :: rest =>
      ((after? ['c', 'a', 'l', 'c', '('] (c :: rest)).any fun body =>
        ambiguousFrom [] (insideGroup 0 body)) || hasAmbiguousCalc rest

end UtilityCss.ClassName
