import UtilityCss.Json.Token
import UtilityCss.Json.Value

/-!
# Reading JSON

A text is read to a value by recursive descent over its tokens; each reader returns the value and
the tokens behind it, which are fewer.
-/

namespace UtilityCss.Json

/-- What is left of a list of tokens when at least one has been read. -/
abbrev Left (ts : List Token) :=
  { rest : List Token // rest.length < ts.length }

mutual

def readValue (ts : List Token) : Option (Json × Left ts) :=
  match ts with
  | [] => none
  | .null :: rest => some (.null, ⟨rest, Nat.lt_succ_self _⟩)
  | .bool b :: rest => some (.bool b, ⟨rest, Nat.lt_succ_self _⟩)
  | .number literal :: rest => some (.number literal, ⟨rest, Nat.lt_succ_self _⟩)
  | .string text :: rest => some (.string text, ⟨rest, Nat.lt_succ_self _⟩)
  | .openBracket :: .closeBracket :: rest =>
      some (.array [], ⟨rest, by simp only [List.length_cons]; omega⟩)
  | .openBracket :: rest =>
      match readItems rest with
      | none => none
      | some (items, ⟨left, h⟩) =>
          some (.array items, ⟨left, by simp only [List.length_cons]; omega⟩)
  | .openBrace :: .closeBrace :: rest =>
      some (.object [], ⟨rest, by simp only [List.length_cons]; omega⟩)
  | .openBrace :: rest =>
      match readFields rest with
      | none => none
      | some (fields, ⟨left, h⟩) =>
          some (.object fields, ⟨left, by simp only [List.length_cons]; omega⟩)
  | _ :: _ => none
termination_by (ts.length, 0)

def readItems (ts : List Token) : Option (List Json × Left ts) :=
  match readValue ts with
  | some (item, ⟨.closeBracket :: rest, h⟩) =>
      some ([item], ⟨rest, by simp only [List.length_cons] at h; omega⟩)
  | some (item, ⟨.comma :: rest, h⟩) =>
      have : rest.length < ts.length := by simp only [List.length_cons] at h; omega
      match readItems rest with
      | none => none
      | some (items, ⟨left, h'⟩) => some (item :: items, ⟨left, by omega⟩)
  | _ => none
termination_by (ts.length, 1)

def readFields (ts : List Token) : Option (List (Option Text × Json) × Left ts) :=
  match ts with
  | .string key :: .colon :: value =>
      match readValue value with
      | some (item, ⟨.closeBrace :: rest, h⟩) =>
          some ([(key, item)], ⟨rest, by simp only [List.length_cons] at h ⊢; omega⟩)
      | some (item, ⟨.comma :: rest, h⟩) =>
          have : rest.length < value.length := by simp only [List.length_cons] at h; omega
          match readFields rest with
          | none => none
          | some (fields, ⟨left, h'⟩) =>
              some ((key, item) :: fields, ⟨left, by simp only [List.length_cons]; omega⟩)
      | _ => none
  | _ => none
termination_by (ts.length, 1)

end

def parse? (t : Text) : Option Json :=
  match tokens? t with
  | none => none
  | some ts =>
      match readValue ts with
      | some (value, ⟨[], _⟩) => some value
      | _ => none

end UtilityCss.Json
