import UtilityCss.Selector.Compound
import UtilityCss.Text.Bytes

/-!
# A cursor on the bytes of a selector

Positions in a selector are byte positions, and a caller may ask about any of them, also about one
inside a character. A cursor therefore sees bytes, each as the character of its number: those of
ASCII characters are these characters, and all others count as parts of identifiers, so that the
scanners for texts serve for bytes too.
-/

namespace UtilityCss.Selector

open Text Css

/-- The bytes of a text, each as the character of its number. -/
def byteText (t : Text) : Text :=
  (bytes t).map fun b => Char.ofNat b.toNat

/-- A byte position with the bytes from there on. -/
structure Cursor where
  position : Nat
  ahead : Text
  deriving DecidableEq

namespace Cursor

/-- The cursor at a byte position, or at the end of a text that is shorter. -/
def ofPosition (t : Text) (n : Nat) : Cursor :=
  ⟨min n (byteText t).length, (byteText t).drop n⟩

def isAtEnd (c : Cursor) : Bool :=
  c.ahead.isEmpty

def peek? (c : Cursor) (offset : Nat) : Option Nat :=
  c.ahead[offset]?.map Char.toNat

def atCombinator (c : Cursor) : Bool :=
  c.ahead.head?.any isCombinator

/-- The cursor in front of a rest of what is ahead. -/
def moveTo (c : Cursor) (rest : Text) : Cursor :=
  ⟨c.position + (c.ahead.length - rest.length), rest⟩

/-- Whether a byte belongs to a character that an earlier byte begins. -/
def isContinuation (b : Char) : Bool :=
  0x80 ≤ b.toNat && b.toNat < 0xC0

/-- Behind an escape, which takes all bytes of an escaped character along. -/
def skipEscape (c : Cursor) : Cursor :=
  match c.ahead.drop 1 with
  | [] => c.moveTo []
  | b :: rest =>
      if isHexDigit b then c.moveTo (afterEscape (b :: rest))
      else c.moveTo (rest.dropWhile isContinuation)

def skipIdentifier (c : Cursor) : Cursor :=
  c.moveTo (afterIdentifier c.ahead)

/-- Behind a string whose quote is the byte at the cursor. -/
def skipString (c : Cursor) : Cursor :=
  match c.ahead with
  | [] => c
  | quote :: rest => c.moveTo (afterString quote rest)

def skipAttribute (c : Cursor) : Cursor :=
  c.moveTo (afterAttribute (c.ahead.drop 1))

def skipParentheses (c : Cursor) : Cursor :=
  c.moveTo (afterParentheses 0 c.ahead)

def skipPseudoClass? (c : Cursor) : Option Cursor :=
  (afterPseudoClass? (c.ahead.drop 1)).map c.moveTo

def skipCompound (c : Cursor) : Cursor :=
  c.moveTo (afterCompound c.ahead)

end Cursor

end UtilityCss.Selector
