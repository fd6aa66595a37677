import UtilityCss.Json.Decode

/-!
# Settings of the generator
-/

namespace UtilityCss

open Json

/-- How a literal class with an unknown modifier or property is reported. -/
inductive UnknownPolicy where
  /-- An error for explicit classes, a warning for others. -/
  | warnUnlessExplicit
  | alwaysError
  deriving DecidableEq, Repr

namespace UnknownPolicy

def label : UnknownPolicy → Text
  | warnUnlessExplicit => "warnUnlessExplicit".toList
  | alwaysError => "alwaysError".toList

def ofJson? (j : Json) : Option UnknownPolicy := do
  let word ← variant? j
  [warnUnlessExplicit, alwaysError].find? (·.label = word)

end UnknownPolicy

structure Config where
  unknownPolicy : UnknownPolicy := .warnUnlessExplicit
  /-- Whether comments of definitions go above their rules. -/
  emitComments : Bool := true
  /-- How often the selector of a theme block is repeated. -/
  themeSpecificity : Nat := 1
  deriving DecidableEq

namespace Config

def format : RecordFormat where
  names := ["unknownPropertyPolicy", "emitComments", "themeSpecificity"].map String.toList
  required := 0
  isOpen := true

def ofJson? (j : Json) : Option Config := do
  let record ← record? format j
  let unknownPolicy ← record.withDefault? "unknownPropertyPolicy".toList .warnUnlessExplicit
    UnknownPolicy.ofJson?
  let emitComments ← record.withDefault? "emitComments".toList true bool?
  let themeSpecificity ← record.withDefault? "themeSpecificity".toList 1 nat?
  return { unknownPolicy, emitComments, themeSpecificity }

def ofText? (t : Text) : Option Config :=
  (Json.parse? t).bind ofJson?

end Config

end UtilityCss
