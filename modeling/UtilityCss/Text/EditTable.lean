import UtilityCss.Text.Basic

/-!
# Edit distance on a flat table

The distances between all beginnings of two texts, kept row by row in one array: those between the
first `i` and the first `j` characters stand at the index `i * width + j`. Every look-up is checked;
one that asks for an index outside the array or a text makes the computation fail.
-/

namespace UtilityCss.Text.EditTable

def put? (table : Array Nat) (index value : Nat) : Option (Array Nat) :=
  if h : index < table.size then some (table.set index value h) else none

/-- The table of the given height and width with its first column and its first row. -/
def bordered? (height width : Nat) : Option (Array Nat) := do
  let table ← (List.range height).foldlM (fun table i => put? table (i * width) i)
    (Array.replicate (height * width) 0)
  (List.range width).foldlM (fun table j => put? table j j) table

/-- The distance in row `i` and column `j`, from the rows and columns in front of it. -/
def cell? (s t : Text) (table : Array Nat) (i j : Nat) : Option Nat := do
  let width := t.length + 1
  let c ← s[i - 1]?
  let d ← t[j - 1]?
  let deleted ← table[(i - 1) * width + j]?
  let inserted ← table[i * width + j - 1]?
  let replaced ← table[(i - 1) * width + j - 1]?
  let least := min (min (deleted + 1) (inserted + 1)) (replaced + if c = d then 0 else 1)
  if 1 < i ∧ 1 < j then
    let c' ← s[i - 2]?
    let d' ← t[j - 2]?
    if c = d' ∧ c' = d then
      let swapped ← table[(i - 2) * width + j - 2]?
      return min least (swapped + 1)
    else return least
  else return least

/-- Writes the cells of row `i`, behind its first. -/
def fillRow? (s t : Text) (table : Array Nat) (i : Nat) : Option (Array Nat) :=
  (List.range t.length).foldlM (fun table j => do
    let distance ← cell? s t table i (j + 1)
    put? table (i * (t.length + 1) + (j + 1)) distance) table

def filled? (s t : Text) : Option (Array Nat) := do
  let table ← bordered? (s.length + 1) (t.length + 1)
  (List.range s.length).foldlM (fun table i => fillRow? s t table (i + 1)) table

def distance? (s t : Text) : Option Nat :=
  if s.isEmpty then some t.length
  else if t.isEmpty then some s.length
  else do
    let table ← filled? s t
    table[s.length * (t.length + 1) + t.length]?

end UtilityCss.Text.EditTable
