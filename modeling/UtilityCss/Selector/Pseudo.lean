import UtilityCss.Selector.Compound

/-!
# Pseudo-classes and pseudo-elements

A chain such as `:focus:nth-child(2n+1)` is cut into its links, and a selector is searched for a
link it already has.
-/

namespace UtilityCss.Selector

open Text

/-- Cuts a chain in front of every colon that follows another character than a colon; `previous`
is the character in front of the text. -/
def linksFrom (previous : Option Char) (t : Text) : List Text :=
  match t with
  | [] => [[]]
  | c :: rest =>
      if c = '(' then
        let left := afterParentheses 1 rest
        let group := upTo (c :: rest) left
        appendHead group (linksFrom group.getLast? left)
      else if c = ':' ∧ previous.any (· != ':') then [] :: consHead c (linksFrom (some c) rest)
      else consHead c (linksFrom (some c) rest)
termination_by t.length
decreasing_by
  · have := (afterParentheses_suffix 1 rest).length_le
    simp only [List.length_cons]
    omega
  all_goals simp

def links (chain : Text) : List Text :=
  (linksFrom none chain).filter (!·.isEmpty)

/--
Whether an occurrence of `pseudo` between `previous` and `rest` is the whole of a link: it is not
the second half of `::`, and neither its name nor an argument goes on behind it.
-/
def isWholeLink (pseudo : Text) (previous : Option Char) (rest : Text) : Bool :=
  let single := (after? [':', ':'] pseudo).isNone
  !(single && previous == some ':') &&
    match rest.head? with
    | some c => !(isIdentifierChar c) && !(c == '(' && pseudo.getLast? != some ')')
    | none => true

/-- Searches for a link; the first `skip` characters belong to an occurrence already seen. -/
def hasLinkFrom (pseudo : Text) (skip : Nat) (previous : Option Char) : Text → Bool
  | [] => false
  | c :: t =>
      match skip with
      | skip + 1 => hasLinkFrom pseudo skip (some c) t
      | 0 =>
          match after? pseudo (c :: t) with
          | some rest =>
              isWholeLink pseudo previous rest || hasLinkFrom pseudo (pseudo.length - 1) (some c) t
          | none => hasLinkFrom pseudo 0 (some c) t

/-- Whether a selector already has the pseudo-class or pseudo-element. -/
def hasLink (pseudo t : Text) : Bool :=
  !pseudo.isEmpty && hasLinkFrom pseudo 0 none t

/-- Whether a text starts with `pseudo`, given with two colons, in its form with one colon. -/
def startsWithSingleColon (pseudo t : Text) : Bool :=
  match after? [':', ':'] pseudo with
  | none => false
  | some name =>
      name ∈ singleColonElements &&
        (after? (':' :: name) t).any fun rest => !(rest.head?.any isIdentifierChar)

end UtilityCss.Selector
