import UtilityCss.Ruleset.Scan
import UtilityCss.Selector.Modify

/-!
# Changing a selector by byte positions

The scanners of a selector with a position that moves over its bytes, and the change of a selector
and the cut of a chain in slices of them. No scanner looks behind the end of the text, but most go
on byte by byte, so that a position can come to lie inside a character. A reading fails that asks
for a slice that begins or ends there, or behind the end of the text, or in front of its own start,
and so does one that does not move on.
-/

namespace UtilityCss.Selector

open Text Css
open Ruleset (byteAt? slice? stringEndFrom?)

/-! ## Walks -/

/-- What a walk does at a byte. -/
inductive Move (σ α : Type) where
  | stop (result : α)
  | go (state : σ) (next : Nat)

/-- Walks over the bytes from a position on. -/
def walk? {σ α : Type} (source : Text) (move? : σ → Nat → Char → Option (Move σ α))
    (atEnd : σ → Nat → α) (s : σ) (i : Nat) : Option α :=
  match byteAt? source i with
  | none => some (atEnd s i)
  | some b =>
      match move? s i b with
      | none => none
      | some (.stop result) => some result
      | some (.go next j) =>
          if i < j ∧ j ≤ size source then walk? source move? atEnd next j else none
termination_by size source - i

/-- A walk that comes to a position. -/
def walkTo? {σ : Type} (source : Text) (move? : σ → Nat → Char → Option (Move σ Nat)) (s : σ)
    (i : Nat) : Option Nat :=
  walk? source move? (fun _ i => i) s i

/-! ## Escapes, strings and identifiers -/

def hexDigitsEnd (source : Text) : (digits i : Nat) → Nat
  | 0, i => i
  | digits + 1, i =>
      if (byteAt? source i).any isHexDigit then hexDigitsEnd source digits (i + 1) else i

/-- The position behind the escape whose backslash stands at a position. -/
def escapeEnd? (source : Text) (i : Nat) : Option Nat :=
  match byteAt? source (i + 1) with
  | none => some (i + 1)
  | some b =>
      if isHexDigit b then
        let digitsEnd := hexDigitsEnd source 6 (i + 1)
        let ended := (byteAt? source digitsEnd).any fun b => b = ' ' ∨ b = '\t' ∨ b = '\n'
        some (if ended then digitsEnd + 1 else digitsEnd)
      else
        (slice? source (i + 1) (size source)).map fun rest =>
          i + 1 + (rest.head?.map Char.utf8Size).getD 1

/-- The position behind the string whose quote stands at a position. -/
def stringEnd? (source : Text) (i : Nat) (quote : Char) : Option Nat :=
  stringEndFrom? source quote (i + 1) (size source)

def identifierMove? (source : Text) (_ : Unit) (i : Nat) (b : Char) : Option (Move Unit Nat) :=
  if b = '\x5c' then (escapeEnd? source i).map (.go ())
  else if isIdentifierChar b then some (.go () (i + 1))
  else some (.stop i)

/-- The position behind the identifier that starts at a position. -/
def identifierEnd? (source : Text) (i : Nat) : Option Nat :=
  walkTo? source (identifierMove? source) () i

/-! ## Brackets -/

def attributeMove? (source : Text) (_ : Unit) (i : Nat) (b : Char) : Option (Move Unit Nat) :=
  if b = '\x5c' then (escapeEnd? source i).map (.go ())
  else if isQuote b then (stringEnd? source i b).map (.go ())
  else if b = ']' then some (.stop (i + 1))
  else some (.go () (i + 1))

/-- The position behind the attribute selector whose bracket stands at a position. -/
def attributeEnd? (source : Text) (i : Nat) : Option Nat :=
  walkTo? source (attributeMove? source) () (i + 1)

def parenthesesMove? (source : Text) (depth i : Nat) (b : Char) : Option (Move Nat Nat) :=
  if b = '\x5c' then (escapeEnd? source i).map (.go depth)
  else if isQuote b then (stringEnd? source i b).map (.go depth)
  else if b = '[' then (attributeEnd? source i).map (.go depth)
  else if b = '(' then some (.go (depth + 1) (i + 1))
  else if b = ')' then
    if depth - 1 = 0 then some (.stop (i + 1)) else some (.go (depth - 1) (i + 1))
  else some (.go depth (i + 1))

/-- The position behind the group whose parenthesis stands at a position. -/
def parenthesesEnd? (source : Text) (i : Nat) : Option Nat :=
  walkTo? source (parenthesesMove? source) 0 i

/-! ## Compounds and class tokens -/

/-- The position behind the pseudo-class whose colon stands at a position; none at a
pseudo-element. -/
def pseudoClassEnd? (source : Text) (i : Nat) : Option (Option Nat) :=
  if byteAt? source (i + 1) = some ':' then some none
  else do
    let nameEnd ← identifierEnd? source (i + 1)
    let name ← slice? source (i + 1) nameEnd
    if toLowerAscii name ∈ singleColonElements then some none
    else if byteAt? source nameEnd = some '(' then (parenthesesEnd? source nameEnd).map some
    else some (some nameEnd)

def compoundMove? (source : Text) (_ : Unit) (i : Nat) (b : Char) : Option (Move Unit Nat) :=
  if isCombinator b then some (.stop i)
  else if b = '.' ∨ b = '#' then (identifierEnd? source (i + 1)).map (.go ())
  else if b = '[' then (attributeEnd? source i).map (.go ())
  else if b = ':' then
    (pseudoClassEnd? source i).map fun behind => (behind.map (.go ())).getD (.stop i)
  else if b = '\x5c' then (escapeEnd? source i).map (.go ())
  else if b = '*' ∨ b = '&' then some (.go () (i + 1))
  else if isIdentifierChar b then (identifierEnd? source i).map (.go ())
  else some (.stop i)

/-- The position behind the compound that starts at a position. -/
def compoundEnd? (source : Text) (i : Nat) : Option Nat :=
  walkTo? source (compoundMove? source) () i

/-- Whether the name stands behind the dot at a position, and no byte of a name behind it. -/
def isTokenAt? (escaped source : Text) (i : Nat) : Option Bool :=
  (slice? source (i + 1) (size source)).map fun rest =>
    (after? escaped rest).isSome && !(byteAt? source (i + 1 + size escaped)).any fun b =>
      isIdentifierChar b || b == '\x5c'

def tokenMove? (escaped source : Text) (_ : Unit) (i : Nat) (b : Char) :
    Option (Move Unit (Option Nat)) :=
  if b = '\x5c' then (escapeEnd? source i).map (.go ())
  else if isQuote b then (stringEnd? source i b).map (.go ())
  else if b = '[' then (attributeEnd? source i).map (.go ())
  else if b = '(' then (parenthesesEnd? source i).map (.go ())
  else if b = '.' then do
    if ← isTokenAt? escaped source i then some (.stop (some i))
    else (identifierEnd? source (i + 1)).map (.go ())
  else some (.go () (i + 1))

/-- The position of the dot of the first class token of an escaped name, if there is one. -/
def tokenStart? (escaped source : Text) : Option (Option Nat) :=
  walk? source (tokenMove? escaped source) (fun _ _ => none) () 0

/-! ## Chains -/

/-- The links of a chain in front of a position, and where the one begins that is being read. -/
structure LinkScan where
  start : Nat := 0
  parts : List Text := []

/-- Whether the colon at a position begins another link than the one being read. -/
def beginsLink? (chain : Text) (start i : Nat) : Option Bool :=
  if start < i then (byteAt? chain (i - 1)).map (· ≠ ':') else some false

def linkMove? (chain : Text) (s : LinkScan) (i : Nat) (b : Char) :
    Option (Move LinkScan LinkScan) :=
  if b = '(' then (parenthesesEnd? chain i).map (.go s)
  else if b = ':' then do
    if ← beginsLink? chain s.start i then
      let part ← slice? chain s.start i
      some (.go ⟨i, s.parts ++ [part]⟩ (i + 1))
    else some (.go s (i + 1))
  else some (.go s (i + 1))

/-- The links, the one that is being read at the end of the chain among them. -/
def LinkScan.links? (chain : Text) (s : LinkScan) : Option (List Text) :=
  if s.start < size chain then
    (slice? chain s.start (size chain)).map fun part => s.parts ++ [part]
  else some s.parts

/-- The links of a chain as slices of it. -/
def slicedLinks? (chain : Text) : Option (List Text) :=
  (walk? chain (linkMove? chain) (fun s _ => s) {} 0).bind (·.links? chain)

/-! ## The change -/

/-- The change of a selector in slices of it. -/
def modifySlices? (change : Change) (selector : Text) : Option Modified := do
  match ← tokenStart? (escape change.className) selector with
  | none => some ⟨selector, false, []⟩
  | some start =>
      let nameEnd := start + 1 + size (escape change.className)
      let stop ← compoundEnd? selector start
      let compound ← slice? selector start stop
      let states ← slicedLinks? change.states
      let (present, added) := states.partition fun state => hasLink state compound
      let token ← slice? selector start (size selector)
      let rest ← slice? selector stop (size selector)
      let conflicts := present.map fun state => ⟨.stateConflict, selector, state⟩
      let front ← slice? selector 0 start
      let behindName ← slice? selector nameEnd stop
      let named := front ++ '.' :: change.newName ++ behindName ++ added.flatten
      if hasPseudoElement token rest change.pseudoElement then
        let conflict := ⟨.pseudoElementConflict, selector, change.pseudoElement⟩
        some ⟨named ++ rest, true, conflicts ++ [conflict]⟩
      else some ⟨named ++ change.pseudoElement ++ rest, true, conflicts⟩

end UtilityCss.Selector
