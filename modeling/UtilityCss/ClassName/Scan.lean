import UtilityCss.ClassName.Literal
import UtilityCss.Ruleset.Scan

/-!
# Cutting a class name by byte positions

The segments of a class name, cut with a position that moves over the bytes of the name. A backslash
moves it on by two bytes, so that it can come to stand inside a character or behind the end of the
name. A segment is a slice of the name; a reading that asks for one that begins or ends inside a
character fails.
-/

namespace UtilityCss.ClassName

open Text
open Ruleset (byteAt? slice?)

/-- What has been read in front of a position. -/
structure SegmentScan where
  depth : Nat := 0
  quote : Option Char := none
  /-- The position at which the segment begins that is being read. -/
  start : Nat := 0
  /-- The segments in front of it. -/
  parts : List Text := []
  deriving DecidableEq

namespace SegmentScan

/-- Takes the byte at a position, which is no backslash. -/
def take? (name : Text) (i : Nat) (b : Char) (s : SegmentScan) :
    Option (Except LiteralError SegmentScan) :=
  match s.quote with
  | some q => some (.ok { s with quote := if b = q then none else some q })
  | none =>
      if isQuote b then some (.ok { s with quote := some b })
      else if b = '(' ∨ b = '[' then some (.ok { s with depth := s.depth + 1 })
      else if b = ')' ∨ b = ']' then
        match s.depth with
        | 0 => some (.error (.unbalanced name))
        | depth + 1 => some (.ok { s with depth })
      else if b = ':' ∧ s.depth = 0 then
        (slice? name s.start i).map fun part =>
          .ok { s with start := i + 1, parts := s.parts ++ [part] }
      else some (.ok s)

/-- The segments at the end of the name. -/
def finish? (name : Text) (s : SegmentScan) : Option (Except LiteralError (List Text)) :=
  if s.depth ≠ 0 ∨ s.quote ≠ none then some (.error (.unbalanced name))
  else (slice? name (min s.start (size name)) (size name)).map fun part => .ok (s.parts ++ [part])

end SegmentScan

def scanFrom? (name : Text) (s : SegmentScan) (i : Nat) :
    Option (Except LiteralError (List Text)) :=
  if i < size name then
    match byteAt? name i with
    | none => none
    | some b =>
        if b = '\x5c' then scanFrom? name s (i + 2)
        else
          match s.take? name i b with
          | none => none
          | some (.error e) => some (.error e)
          | some (.ok next) => scanFrom? name next (i + 1)
  else s.finish? name
termination_by size name - i

def scan? (name : Text) : Option (Except LiteralError (List Text)) :=
  scanFrom? name {} 0

end UtilityCss.ClassName
