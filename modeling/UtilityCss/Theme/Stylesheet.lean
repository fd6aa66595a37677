import UtilityCss.Css.Layout
import UtilityCss.Theme.Graph

/-!
# The style sheet of a theme

Theme variables are declared in one block for light mode and one for dark mode. Repeating the
selector of a block makes it win over others.
-/

namespace UtilityCss.Theme

open Text Css

/-- The blocks of both modes; a mode without declarations has the empty text. -/
structure Stylesheet where
  light : Text
  dark : Text
  deriving DecidableEq

namespace Stylesheet

def isEmpty (s : Stylesheet) : Bool :=
  s.light.isEmpty && s.dark.isEmpty

def render (s : Stylesheet) : Text :=
  join ['\n', '\n'] ([s.light, s.dark].filter (!·.isEmpty))

end Stylesheet

def declaration (name value : Text) : Text :=
  '-' :: '-' :: name ++ ": ".toList ++ value ++ [';']

/-- A block of declarations whose selector is repeated, at least once. -/
def modeBlock (selector : Text) (specificity : Nat) (declarations : List Text) : Text :=
  if declarations.isEmpty then []
  else block (List.replicate (max 1 specificity) selector).flatten (join ['\n'] declarations)

/-- Declares those of the names that have an entry, each in the modes for which it has a value. -/
def Graph.stylesheet (g : Graph) (names : List Text) (specificity : Nat) : Stylesheet :=
  let nodes := (NameSet.ofList (names.map stripHyphens)).toList.filterMap g.get?
  let lines (value : Node → Option Text) : List Text :=
    nodes.filterMap fun n => (value n).map (declaration n.name)
  { light := modeBlock ":root".toList specificity (lines Node.light),
    dark := modeBlock ":root.dark".toList specificity (lines Node.dark) }

end UtilityCss.Theme
