import UtilityCss.Text.Basic

/-!
# Segments of a class name

A class name is cut at its colons, as in `md:hover:card`. A colon inside round or square
brackets, inside quotes or behind a backslash does not cut: `nth-child(2n+1):color:red` has
three segments. A name whose brackets or quotes do not close has none.
-/

namespace UtilityCss.ClassName

open Text

/-- The segments of a rest that is read inside `depth` brackets and, perhaps, inside a quote. -/
def segmentsFrom (depth : Nat) (quote : Option Char) : Text → Option (List Text)
  | [] => if depth = 0 ∧ quote = none then some [[]] else none
  | ['\x5c'] => (segmentsFrom depth quote []).map (consHead '\x5c')
  | '\x5c' :: c :: rest =>
      (segmentsFrom depth quote rest).map fun parts => consHead '\x5c' (consHead c parts)
  | c :: rest =>
      match quote with
      | some q =>
          (segmentsFrom depth (if c = q then none else some q) rest).map (consHead c)
      | none =>
          if isQuote c then (segmentsFrom depth (some c) rest).map (consHead c)
          else if c = '(' ∨ c = '[' then (segmentsFrom (depth + 1) none rest).map (consHead c)
          else if c = ')' ∨ c = ']' then
            match depth with
            | 0 => none
            | depth + 1 => (segmentsFrom depth none rest).map (consHead c)
          else if c = ':' ∧ depth = 0 then (segmentsFrom 0 none rest).map ([] :: ·)
          else (segmentsFrom depth none rest).map (consHead c)

/-- The segments of a class name, at least one; none if it is not balanced. -/
def segments? (name : Text) : Option (List Text) :=
  segmentsFrom 0 none name

def joinSegments (segments : List Text) : Text :=
  join [':'] segments

end UtilityCss.ClassName
