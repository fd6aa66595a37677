import UtilityCss.Text.Basic

/-!
# Modifiers

A modifier is what a class name puts in front of its base: a media condition (`md`), an ancestor
(`dark`), a state (`hover`) or a pseudo-element (`before`), in this order.
-/

namespace UtilityCss

namespace Modifier

inductive Kind where
  | media
  | ancestor
  | state
  | pseudoElement
  deriving DecidableEq, Repr

namespace Kind

def rank : Kind → Nat
  | media => 0
  | ancestor => 1
  | state => 2
  | pseudoElement => 3

def label : Kind → Text
  | media => "media".toList
  | ancestor => "ancestor".toList
  | state => "state".toList
  | pseudoElement => "pseudo-element".toList

end Kind

end Modifier

/--
A modifier by its name in class names. Its `css` is an at-rule prelude for a media condition, a
selector for an ancestor, and the end of a selector for a state or a pseudo-element.
-/
structure Modifier where
  kind : Modifier.Kind
  name : Text
  css : Text
  deriving DecidableEq

end UtilityCss
