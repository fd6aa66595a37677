import UtilityCss.Selector.Scan
import UtilityCss.Text.Bytes

/-!
# Compound selectors

A compound selector is a run of classes, ids, attribute selectors and pseudo-classes about one
element. A combinator ends it, and so does a pseudo-element: `::before`, or one of the four that
may be written with a single colon.
-/

namespace UtilityCss.Selector

open Text

/-- The pseudo-elements that may be written with one colon. -/
def singleColonElements : List Text :=
  ["before", "after", "first-letter", "first-line"].map String.toList

/-- The rest behind a pseudo-class, given the text behind its colon; none at a pseudo-element. -/
def afterPseudoClass? (t : Text) : Option Text :=
  if t.head? = some ':' then none
  else
    let rest := afterIdentifier t
    if toLowerAscii (upTo t rest) ∈ singleColonElements then none
    else if rest.head? = some '(' then some (afterParentheses 0 rest)
    else some rest

theorem suffix_of_afterPseudoClass? {t rest : Text} (h : afterPseudoClass? t = some rest) :
    rest <:+ t := by
  have hname := afterIdentifier_suffix t
  unfold afterPseudoClass? at h
  split at h
  · cases h
  · simp only at h
    split at h
    · cases h
    · split at h
      · cases h
        exact (afterParentheses_suffix 0 _).trans hname
      · cases h
        exact hname

/-- The rest behind the compound selector that a text starts with. -/
def afterCompound (t : Text) : Text :=
  match t with
  | [] => []
  | c :: rest =>
      if isCombinator c then c :: rest
      else if c = '.' ∨ c = '#' then afterCompound (afterIdentifier rest)
      else if c = '[' then afterCompound (afterAttribute rest)
      else if c = ':' then
        match _h : afterPseudoClass? rest with
        | some left => afterCompound left
        | none => c :: rest
      else if c = '\x5c' then afterCompound (afterEscape rest)
      else if c = '*' ∨ c = '&' then afterCompound rest
      else if isIdentifierChar c then afterCompound (afterIdentifier rest)
      else c :: rest
termination_by t.length
decreasing_by
  all_goals simp only [List.length_cons]
  · have := (afterIdentifier_suffix rest).length_le
    omega
  · have := (afterAttribute_suffix rest).length_le
    omega
  · have := (suffix_of_afterPseudoClass? _h).length_le
    omega
  · have := (afterEscape_suffix rest).length_le
    omega
  · omega
  · have := (afterIdentifier_suffix rest).length_le
    omega

/-- Whether a text starts with the rest of a class token: the escaped name, and no character
behind it that would belong to the name. -/
def startsWithName (escaped t : Text) : Bool :=
  (after? escaped t).any fun rest =>
    !(rest.head?.any fun c => isIdentifierChar c || c == '\x5c')

/-- The part of a selector from the dot of the first class token of an escaped name. Strings,
attribute selectors and parenthesised groups hold no class tokens. -/
def findClassToken (escaped t : Text) : Option Text :=
  match t with
  | [] => none
  | c :: rest =>
      if c = '.' then
        if startsWithName escaped rest then some (c :: rest)
        else findClassToken escaped (afterIdentifier rest)
      else findClassToken escaped (afterUnit (c :: rest))
termination_by t.length
decreasing_by
  all_goals simp only [List.length_cons]
  · have := (afterIdentifier_suffix rest).length_le
    omega
  · have := (afterUnit_suffix c rest).length_le
    omega

/-- The byte position of the dot of that token. -/
def classTokenStart? (escaped t : Text) : Option Nat :=
  (findClassToken escaped t).map fun token => size t - size token

def hasClassToken (escaped t : Text) : Bool :=
  (findClassToken escaped t).isSome

end UtilityCss.Selector
