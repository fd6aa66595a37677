import UtilityCss.Text.Basic

/-!
# Theme variables

A theme is a table of variables. Each has a value for light mode, for dark mode, or one for each;
a variable whose values agree should have a light value alone.
-/

namespace UtilityCss.Theme

open Text

structure Variable where
  name : Text
  light : Option Text := none
  dark : Option Text := none
  summary : Option Text := none
  deriving DecidableEq

inductive TableError where
  | invalidName (name : Text)
  | missingValue (name : Text)
  | identicalValues (name : Text)
  | duplicate (name : Text)
  deriving DecidableEq

namespace TableError

def name : TableError → Text
  | invalidName n => n
  | missingValue n => n
  | identicalValues n => n
  | duplicate n => n

def message : TableError → Text
  | invalidName n =>
      "Invalid theme variable name ".toList ++ quoted n ++
        (": use lowercase letters, digits and underscores, starting with a letter and not " ++
          "ending with '_'").toList
  | missingValue n =>
      "Theme variable ".toList ++ quoted n ++ " needs a light or dark value".toList
  | identicalValues n =>
      "Theme variable ".toList ++ quoted n ++
        " has identical light and dark values; use 'light' only".toList
  | duplicate n => "Theme variable ".toList ++ quoted n ++ " is defined more than once".toList

end TableError

namespace Variable

def isNameChar (c : Char) : Bool :=
  c.isLower || c.isDigit || c == '_'

/-- A lower-case letter, then letters, digits and underscores, the last no underscore. -/
def isValidName (name : Text) : Bool :=
  name.head?.any Char.isLower && name.all isNameChar && name.getLast? != some '_'

def problem? (v : Variable) : Option TableError :=
  if !isValidName v.name then some (.invalidName v.name)
  else if v.light = none ∧ v.dark = none then some (.missingValue v.name)
  else if v.light = v.dark then some (.identicalValues v.name)
  else none

/-- What is wrong first in a table, below rows of the given names. -/
def tableProblemBelow? (above : List Text) : List Variable → Option TableError
  | [] => none
  | v :: rest =>
      match v.problem? with
      | some e => some e
      | none =>
          if v.name ∈ above then some (.duplicate v.name)
          else tableProblemBelow? (v.name :: above) rest

def tableProblem? (table : List Variable) : Option TableError :=
  tableProblemBelow? [] table

end Variable

end UtilityCss.Theme
