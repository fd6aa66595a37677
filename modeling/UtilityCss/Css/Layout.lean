import UtilityCss.Text.Basic

/-!
# Layout of generated style sheets

A block is a header, an opening brace, its body indented by one level, and a closing brace on a
line of its own.
-/

namespace UtilityCss.Css

open Text

/-- A line one level deeper; a blank line becomes empty. -/
def indentLine (line : Text) : Text :=
  if (trim line).isEmpty then [] else ' ' :: ' ' :: line

def indent (t : Text) : Text :=
  join ['\n'] ((lines t).map indentLine)

/-- A block opened by `header`, which is a selector or an at-rule prelude. -/
def block (header body : Text) : Text :=
  header ++ [' ', '\x7b', '\n'] ++ indent (trimEnd body) ++ ['\n', '\x7d']

/-- Nested blocks; the first header opens the outermost one. -/
def blocks (headers : List Text) (body : Text) : Text :=
  headers.foldr block body

/-- The text with a space put into every comment terminator. -/
def disarm : Text → Text
  | '*' :: '/' :: t => '*' :: ' ' :: '/' :: disarm t
  | c :: t => c :: disarm t
  | [] => []

def comment (t : Text) : Text :=
  ['/', '*', ' '] ++ disarm (trim t) ++ [' ', '*', '/']

end UtilityCss.Css
