import UtilityCss.Text.Basic

/-!
# JSON values

A value keeps what a reader may refuse only when it needs it: numbers stay literals, and a string
whose escapes leave a surrogate without its partner is a value without text.
-/

namespace UtilityCss

inductive Json where
  | null
  | bool (b : Bool)
  | number (literal : Text)
  | string (text : Option Text)
  | array (items : List Json)
  /-- The fields in the order of the text; names may repeat. -/
  | object (fields : List (Option Text × Json))

end UtilityCss
