import UtilityCss.Text.Basic

/-!
# Class names as identifiers

A class name may hold any character, an identifier of a selector may not. Letters, digits, `_`
and `-` stand for themselves; any other character is escaped by a backslash. A digit where the
identifier starts and a control character take the hexadecimal form, which ends in a space.
-/

namespace UtilityCss.Css

open Text

/-- A character that an identifier holds unescaped, all of them ASCII. -/
def isPlain (c : Char) : Bool :=
  c.isAlphanum || c == '_' || c == '-'

/-- Backslash, code point in lower-case hexadecimal, space. -/
def hexEscape (c : Char) : Text :=
  '\x5c' :: Nat.toDigits 16 c.toNat ++ [' ']

/-- One character of an identifier; a digit cannot start one. -/
def escapeChar (startsIdentifier : Bool) (c : Char) : Text :=
  if c.isDigit && startsIdentifier then hexEscape c
  else if isPlain c then [c]
  else if isControl c then hexEscape c
  else ['\x5c', c]

/-- A text whose first character starts the identifier. -/
def escapeStart : Text → Text
  | [] => []
  | c :: rest => escapeChar true c ++ rest.flatMap (escapeChar false)

/-- The identifier that stands for a class name; a leading hyphen leaves its start open. -/
def escape : Text → Text
  | '-' :: rest => '-' :: escapeStart rest
  | name => escapeStart name

def classSelector (name : Text) : Text :=
  '.' :: escape name

end UtilityCss.Css
