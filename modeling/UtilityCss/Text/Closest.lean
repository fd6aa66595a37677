import UtilityCss.Text.EditDistance

/-!
# Suggestions for misspelt names

Two texts are as similar as their edit distance is small against the longer one. A name is
worth suggesting from a similarity of `suggestionThreshold` on.
-/

namespace UtilityCss.Text

def suggestionThreshold : Float := 0.6

/-- A number in `[0, 1]`; 1 means that the texts are equal. -/
def similarity (s t : Text) : Float :=
  let longest := max s.length t.length
  if longest = 0 then 1.0
  else 1.0 - (editDistance s t).toFloat / longest.toFloat

/-- The better of the best candidate so far and a further one; the earlier wins a tie. -/
def keepCloser (target : Text) (best : Option (Text × Float)) (candidate : Text) :
    Option (Text × Float) :=
  let score := similarity target candidate
  if score < suggestionThreshold then best
  else
    match best with
    | some (name, top) => if top ≥ score then some (name, top) else some (candidate, score)
    | none => some (candidate, score)

/-- The candidate most similar to `target`, if any comes close enough. -/
def closest (target : Text) (candidates : List Text) : Option Text :=
  (candidates.foldl (keepCloser target) none).map (·.1)

def didYouMean (name : Text) : Text :=
  "Did you mean ".toList ++ quoted name ++ "?".toList

end UtilityCss.Text
