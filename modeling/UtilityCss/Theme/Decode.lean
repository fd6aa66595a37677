import UtilityCss.Json.Decode
import UtilityCss.Theme.Variable

/-!
# Reading theme tables

A theme table is a JSON array of rows. The whole text is decoded before any row is checked.
-/

namespace UtilityCss.Theme

open Json

inductive ReadError where
  | malformed
  | table (cause : TableError)
  deriving DecidableEq

namespace Variable

def format : RecordFormat where
  names := ["name", "light", "dark", "summary"].map String.toList
  required := 1
  isOpen := true

def ofJson? (j : Json) : Option Variable := do
  let record ← record? format j
  let name ← record.required? "name".toList text?
  let light ← record.optional? "light".toList text?
  let dark ← record.optional? "dark".toList text?
  let summary ← record.optional? "summary".toList text?
  return { name, light, dark, summary }

def readTable (t : Text) : Except ReadError (List Variable) :=
  match (Json.parse? t).bind (list? ofJson?) with
  | none => .error .malformed
  | some table =>
      match tableProblem? table with
      | some cause => .error (.table cause)
      | none => .ok table

end Variable

end UtilityCss.Theme
