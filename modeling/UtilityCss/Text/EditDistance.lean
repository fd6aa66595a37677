import UtilityCss.Text.Basic

/-!
# Edit distance

The optimal string alignment distance: the least number of insertions, deletions, substitutions
and swaps of adjacent characters, no character being edited twice. It is computed row by row,
one row for each ending of the first text, one column for each ending of the second.
-/

namespace UtilityCss.Text

/-- The distances from the empty text to every ending of `t`. -/
def emptyRow : Text → List Nat
  | [] => [0]
  | _ :: t => (t.length + 1) :: emptyRow t

/-- Whether the two texts begin with the same two characters the other way round. -/
def swapsHead : Text → Text → Bool
  | a :: a' :: _, b :: b' :: _ => a == b' && a' == b
  | _, _ => false

/--
The distances from `c :: s` to every ending of `t`, where `below` holds those from `s` and
`twoBelow` those from the tail of `s`.
-/
def rowAbove (c : Char) (s : Text) : Text → (below twoBelow : List Nat) → List Nat
  | [], _, _ => [s.length + 1]
  | d :: t, below, twoBelow =>
      let right := rowAbove c s t below.tail twoBelow.tail
      let deleted := below.headD 0 + 1
      let inserted := right.headD 0 + 1
      let replaced := below.tail.headD 0 + if c = d then 0 else 1
      let least := min (min deleted inserted) replaced
      let swapped := twoBelow.tail.tail.headD 0 + 1
      (if swapsHead (c :: s) (d :: t) then min least swapped else least) :: right

/-- The rows of a text and of its tail. -/
def distanceRows (t : Text) : Text → List Nat × List Nat
  | [] => (emptyRow t, [])
  | c :: s =>
      let (below, twoBelow) := distanceRows t s
      (rowAbove c s t below twoBelow, below)

def editDistance (s t : Text) : Nat :=
  (distanceRows t s).1.headD 0

end UtilityCss.Text
