import UtilityCss.Text.Basic

/-!
# Values of literal classes

A class name holds no space, so a value writes `~` for one. Inside quotes and behind a backslash
a tilde is itself.
-/

namespace UtilityCss.ClassName

open Text

def important : Text :=
  "!important".toList

/-- Turns the tildes of a rest that is read inside a quote, or outside any, into spaces. -/
def spacedFrom (quote : Option Char) : Text → Text
  | [] => []
  | ['\x5c'] => ['\x5c']
  | '\x5c' :: c :: rest => '\x5c' :: c :: spacedFrom quote rest
  | c :: rest =>
      match quote with
      | some q => c :: spacedFrom (if c = q then none else some q) rest
      | none =>
          if isQuote c then c :: spacedFrom (some c) rest
          else if c = '~' then ' ' :: spacedFrom none rest
          else c :: spacedFrom none rest

def spaced (raw : Text) : Text :=
  spacedFrom none raw

/-- The value as a declaration shows it, the important flag at its end. -/
def formatValue (raw : Text) (isImportant : Bool) : Text :=
  let value := trim (spaced raw)
  if isImportant then
    if value.isEmpty then important else value ++ ' ' :: important
  else value

end UtilityCss.ClassName
