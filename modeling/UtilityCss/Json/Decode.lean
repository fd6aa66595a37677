import UtilityCss.Json.Reader

/-!
# Decoding JSON values

Readers for the types that files are made of. A record is an object of its fields, or an array of
them in order; in an object, a field may be absent but not repeated.
-/

namespace UtilityCss.Json

def text? : Json → Option Text
  | string t => t
  | _ => none

def bool? : Json → Option Bool
  | bool b => some b
  | _ => none

def decimal (ds : List Char) : Nat :=
  ds.foldl (fun n d => 10 * n + (d.toNat - 48)) 0

/-- A number of decimal digits alone that fits 64 bits. -/
def nat? : Json → Option Nat
  | number literal =>
      if literal.all Char.isDigit ∧ decimal literal ≤ 0xFFFFFFFFFFFFFFFF then
        some (decimal literal)
      else none
  | _ => none

def list? {α : Type} (item? : Json → Option α) : Json → Option (List α)
  | array items => items.mapM item?
  | _ => none

def nullable? {α : Type} (value? : Json → Option α) : Json → Option (Option α)
  | null => some none
  | j => (value? j).map some

/-- One of several words, also as the only key of an object whose value is null. -/
def variant? : Json → Option Text
  | string t => t
  | object [(key, null)] => key
  | _ => none

structure RecordFormat where
  names : List Text
  /-- How many fields an array must hold at least. -/
  required : Nat
  /-- Whether an object may hold fields of other names. -/
  isOpen : Bool

/-- The fields of a record by name; a name without a field is absent. -/
abbrev Record := List (Text × Json)

/-- The fields of an object that a format knows, if no name is repeated or refused. -/
def knownFields? (format : RecordFormat) : List (Option Text × Json) → Option Record
  | [] => some []
  | (none, _) :: _ => none
  | (some name, value) :: rest =>
      match knownFields? format rest with
      | none => none
      | some record =>
          if name ∈ format.names then
            if (record.lookup name).isSome then none else some ((name, value) :: record)
          else if format.isOpen then some record
          else none

def record? (format : RecordFormat) : Json → Option Record
  | object fields => knownFields? format fields
  | array items =>
      if format.required ≤ items.length ∧ items.length ≤ format.names.length then
        some (format.names.zip items)
      else none
  | _ => none

namespace Record

def required? {α : Type} (r : Record) (name : Text) (value? : Json → Option α) : Option α :=
  (r.lookup name).bind value?

/-- A field that has a value of its own when it is absent, but is not null. -/
def withDefault? {α : Type} (r : Record) (name : Text) (absent : α) (value? : Json → Option α) :
    Option α :=
  match r.lookup name with
  | none => some absent
  | some j => value? j

def optional? {α : Type} (r : Record) (name : Text) (value? : Json → Option α) :
    Option (Option α) :=
  r.withDefault? name none (nullable? value?)

end Record

end UtilityCss.Json
