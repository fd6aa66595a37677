import UtilityCss.Selector.Scan

/-!
# Members of a selector list

A selector list is cut at its commas; a comma inside a string or brackets does not cut.
-/

namespace UtilityCss.Selector

open Text

/-- The pieces between the commas, one more than there are commas. -/
def splitAtCommas (t : Text) : List Text :=
  match t with
  | [] => [[]]
  | c :: rest =>
      if c = ',' then [] :: splitAtCommas rest
      else
        let left := afterUnit (c :: rest)
        appendHead (upTo (c :: rest) left) (splitAtCommas left)
termination_by t.length
decreasing_by
  · simp
  · have := (afterUnit_suffix c rest).length_le
    simp only [List.length_cons]
    omega

/-- The selectors of a list, trimmed; empty ones do not count. -/
def members (t : Text) : List Text :=
  ((splitAtCommas t).map trim).filter (!·.isEmpty)

end UtilityCss.Selector
