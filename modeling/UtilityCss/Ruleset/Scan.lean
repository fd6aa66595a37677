import UtilityCss.Ruleset.Parse
import UtilityCss.Selector.Cursor

/-!
# Reading a ruleset by byte positions

The reading of a ruleset with a position that moves over the bytes of the source. Bytes and slices
are asked for by position: there is no byte outside the source, and no slice that begins or ends
outside it or inside a character, and a reading that asks for one fails. A backslash moves the
position on by two bytes, so that it can come to stand inside a character or behind the end of the
block that is read; behind every block, the position is set again.
-/

namespace UtilityCss.Ruleset

open Text Css Selector

/-! ## The source -/

/-- A byte of the source, as the character of its number. -/
def byteAt? (source : Text) (n : Nat) : Option Char :=
  (byteText source)[n]?

def bytesBetween? (source : Text) (start stop : Nat) : Option Text :=
  if start ≤ stop ∧ stop ≤ (byteText source).length then
    some (((byteText source).take stop).drop start)
  else none

/-- The text between two positions of the source that lie between characters. -/
def slice? (source : Text) (start stop : Nat) : Option Text :=
  if start ≤ stop ∧ size (takeBytes start source) = start ∧ size (takeBytes stop source) = stop then
    some (slice start stop source)
  else none

/-! ## Constructs -/

/-- The position behind the string that the quote has begun, or the end of the block. -/
def stringEndFrom? (source : Text) (quote : Char) (i stop : Nat) : Option Nat :=
  if i < stop then
    match byteAt? source i with
    | none => none
    | some b =>
        if b = '\x5c' then stringEndFrom? source quote (i + 2) stop
        else if b = quote then some (i + 1)
        else stringEndFrom? source quote (i + 1) stop
  else some stop
termination_by stop - i

/-- The position behind the comment that starts at a position, if one does. -/
def commentEnd? (source : Text) (start stop : Nat) : Option (Option Nat) := do
  let bytes ← bytesBetween? source start stop
  if (after? ['/', '*'] bytes).isSome then
    let inside ← slice? source (start + 2) stop
    return some (start + 2 + (size inside - size (afterComment inside)))
  else return none

/-- The position behind an escape, a string or a comment that starts at a position, if one does. -/
def constructEnd? (source : Text) (start stop : Nat) : Option (Option Nat) := do
  let b ← byteAt? source start
  if b = '\x5c' then return some (start + 2)
  else if isQuote b then return some (← stringEndFrom? source b (start + 1) stop)
  else if b = '/' then commentEnd? source start stop
  else return none

theorem le_of_stringEndFrom? {source : Text} {quote : Char} {i stop j : Nat}
    (h : stringEndFrom? source quote i stop = some j) : min i stop ≤ j := by
  fun_induction stringEndFrom? source quote i stop with
  | case1 => cases h
  | case2 i _ _ ih =>
      have hle := ih h
      omega
  | case3 i =>
      rw [Option.some.injEq] at h
      omega
  | case4 i _ b _ _ _ ih =>
      have hle := ih h
      omega
  | case5 =>
      rw [Option.some.injEq] at h
      omega

theorem lt_of_commentEnd? {source : Text} {start stop j : Nat}
    (h : commentEnd? source start stop = some (some j)) : start < j := by
  obtain ⟨bytes, -, h⟩ := Option.bind_eq_some_iff.mp h
  split at h
  · obtain ⟨inside, -, h⟩ := Option.bind_eq_some_iff.mp h
    rw [Option.pure_def, Option.some.injEq, Option.some.injEq] at h
    omega
  · cases h

theorem lt_of_constructEnd? {source : Text} {start stop j : Nat} (hstart : start < stop)
    (h : constructEnd? source start stop = some (some j)) : start < j := by
  obtain ⟨b, -, h⟩ := Option.bind_eq_some_iff.mp h
  split at h
  · rw [Option.pure_def, Option.some.injEq, Option.some.injEq] at h
    omega
  · split at h
    · obtain ⟨i, hstring, h⟩ := Option.bind_eq_some_iff.mp h
      rw [Option.pure_def, Option.some.injEq, Option.some.injEq] at h
      have hle := le_of_stringEndFrom? hstring
      omega
    · split at h
      · exact lt_of_commentEnd? h
      · cases h

/-! ## Searches -/

/-- The position of the first byte outside all constructs that ends the search, whose `depth` every
such byte changes. Where there is none, the position that the search has come to; it may lie behind
`stop`. -/
def seek? (source : Text) (ends : Nat → Char → Bool) (deeper : Nat → Char → Nat)
    (depth i stop : Nat) : Option Nat :=
  if _hi : i < stop then
    match _h : constructEnd? source i stop with
    | none => none
    | some (some j) => seek? source ends deeper depth j stop
    | some none =>
        match byteAt? source i with
        | none => none
        | some b =>
            if ends depth b then some i
            else seek? source ends deeper (deeper depth b) (i + 1) stop
  else some i
termination_by stop - i
decreasing_by
  · have := lt_of_constructEnd? _hi _h
    omega
  · omega

/-- A brace or a semicolon outside brackets ends a prelude. -/
def endsPrelude (depth : Nat) (b : Char) : Bool :=
  depth == 0 && (b == '\x7b' || b == ';' || b == '\x7d')

def deeperInPrelude (depth : Nat) (b : Char) : Nat :=
  if b = '(' ∨ b = '[' then depth + 1 else if b = ')' ∨ b = ']' then depth - 1 else depth

def endsBody (depth : Nat) (b : Char) : Bool :=
  depth == 0 && b == '\x7d'

def deeperInBody (depth : Nat) (b : Char) : Nat :=
  if b = '\x7b' then depth + 1 else if b = '\x7d' then depth - 1 else depth

theorem le_of_seek? {source : Text} {ends : Nat → Char → Bool} {deeper : Nat → Char → Nat}
    {depth i stop j : Nat} (h : seek? source ends deeper depth i stop = some j) : i ≤ j := by
  fun_induction seek? source ends deeper depth i stop with
  | case1 => cases h
  | case2 depth i hi k hk ih =>
      have hlt := lt_of_constructEnd? hi hk
      have hle := ih h
      omega
  | case3 => cases h
  | case4 =>
      rw [Option.some.injEq] at h
      omega
  | case5 depth i hi _ b _ _ ih =>
      have hle := ih h
      omega
  | case6 =>
      rw [Option.some.injEq] at h
      omega

/-! ## Blocks -/

/-- What stands at a position of a block. -/
inductive Item where
  /-- Nothing that is read, in front of position `next`. -/
  | filler (next : Nat)
  /-- A prelude up to the opening brace, with a body. -/
  | block (brace bodyStop : Nat)
  /-- A prelude without a body, which takes the rest. -/
  | rest (last : Nat)

def item? (source : Text) (start stop : Nat) : Option Item := do
  let b ← byteAt? source start
  if b = '\x7d' then return .filler (start + 1)
  else
    let found ← seek? source endsPrelude deeperInPrelude 0 start stop
    if stop ≤ found then return .rest found
    else
      let b ← byteAt? source found
      if b = '\x7b' then
        let close ← seek? source endsBody deeperInBody 0 (found + 1) stop
        return .block found (min close stop)
      else return .filler (found + 1)

theorem lt_of_item? {source : Text} {start stop : Nat} {item : Item}
    (h : item? source start stop = some item) :
    match item with
    | .filler next => start < next
    | .block brace bodyStop => start ≤ brace ∧ brace < bodyStop + 1 ∧ bodyStop ≤ stop
    | .rest last => stop ≤ last := by
  obtain ⟨b, -, h⟩ := Option.bind_eq_some_iff.mp h
  split at h
  · cases h
    exact Nat.lt_succ_self start
  · obtain ⟨found, hfound, h⟩ := Option.bind_eq_some_iff.mp h
    have hle := le_of_seek? hfound
    split at h
    next hstop =>
      cases h
      exact hstop
    next hstop =>
      obtain ⟨b, -, h⟩ := Option.bind_eq_some_iff.mp h
      split at h
      · obtain ⟨close, hclose, h⟩ := Option.bind_eq_some_iff.mp h
        have hbody := le_of_seek? hclose
        cases h
        exact ⟨hle, by omega, by omega⟩
      · cases h
        exact Nat.lt_succ_of_le hle

/-- A position of the source and what has been found in front of it. -/
structure Reader where
  position : Nat
  found : Ruleset

namespace Reader

def moveTo (s : Reader) (position : Nat) : Reader :=
  { s with position }

def addRule (s : Reader) (r : Rule) : Reader :=
  { s with found := { s.found with rules := s.found.rules ++ [r] } }

/-- A comment in front of the first rule. -/
def addComment (s : Reader) (t : Text) : Reader :=
  { s with found := { s.found with leadingComments := s.found.leadingComments ++ [t] } }

variable (s : Reader) (position : Nat)

@[simp] theorem position_moveTo : (s.moveTo position).position = position := rfl

@[simp] theorem found_moveTo : (s.moveTo position).found = s.found := rfl

end Reader

/-- Behind blanks and comments. The comments are kept if `recorded`. -/
def skipTrivia? (source : Text) (recorded : Bool) (stop : Nat) (s : Reader) : Option Reader :=
  if s.position < stop then
    match byteAt? source s.position with
    | none => none
    | some b =>
        if isAsciiBlank b then skipTrivia? source recorded stop (s.moveTo (s.position + 1))
        else
          match _h : commentEnd? source s.position stop with
          | none => none
          | some none => some s
          | some (some j) =>
              if recorded then
                match slice? source s.position j with
                | none => none
                | some t => skipTrivia? source recorded stop ((s.addComment t).moveTo j)
              else skipTrivia? source recorded stop (s.moveTo j)
  else some s
termination_by stop - s.position
decreasing_by
  · rw [Reader.position_moveTo]
    omega
  all_goals
    have := lt_of_commentEnd? _h
    simp only [Reader.position_moveTo]
    omega

theorem le_of_skipTrivia? {source : Text} {recorded : Bool} {stop : Nat} {s s' : Reader}
    (h : skipTrivia? source recorded stop s = some s') : s.position ≤ s'.position := by
  fun_induction skipTrivia? source recorded stop s with
  | case1 => cases h
  | case2 s _ _ _ _ ih => exact Nat.le_of_succ_le (ih h)
  | case3 => cases h
  | case4 =>
      rw [Option.some.injEq] at h
      exact Nat.le_of_eq (congrArg Reader.position h)
  | case5 => cases h
  | case6 s _ _ _ _ j hj _ _ _ ih => exact Nat.le_trans (Nat.le_of_lt (lt_of_commentEnd? hj)) (ih h)
  | case7 s _ _ _ _ j hj _ ih => exact Nat.le_trans (Nat.le_of_lt (lt_of_commentEnd? hj)) (ih h)
  | case8 =>
      rw [Option.some.injEq] at h
      exact Nat.le_of_eq (congrArg Reader.position h)

/-- The rule with the given selector, whose prelude and body stand between the positions. -/
def rule? (source : Text) (atRules : List Text) (selector : Text) (start brace bodyStop : Nat) :
    Option Rule := do
  let body ← slice? source (brace + 1) bodyStop
  return { selector, declarations := trim body, selectorSpan := ⟨start, start + size selector⟩,
           bodySpan := ⟨brace + 1, bodyStop⟩, atRules }

/-- Reads what is left of a block that ends at `stop`; the position may come to lie behind it. -/
def scanBlock? (source : Text) (atRules : List Text) (stop : Nat) (s : Reader) : Option Reader :=
  match _hs : skipTrivia? source (s.found.rules.isEmpty && atRules.isEmpty) stop s with
  | none => none
  | some s' =>
      if _hstop : s'.position < stop then
        match _hitem : item? source s'.position stop with
        | none => none
        | some (.rest last) => some (s'.moveTo last)
        | some (.filler next) => scanBlock? source atRules stop (s'.moveTo next)
        | some (.block brace bodyStop) =>
            match slice? source s'.position brace with
            | none => none
            | some prelude =>
                let selector := trimEnd prelude
                let inner :=
                  if selector.head? = some '@' then
                    if Rule.isGrouping selector then
                      scanBlock? source (atRules ++ [selector]) bodyStop (s'.moveTo (brace + 1))
                    else some s'
                  else (rule? source atRules selector s'.position brace bodyStop).map s'.addRule
                match inner with
                | none => none
                | some s'' => scanBlock? source atRules stop (s''.moveTo (min (bodyStop + 1) stop))
      else some s'
termination_by stop - s.position
decreasing_by
  all_goals
    have := le_of_skipTrivia? _hs
    have := lt_of_item? _hitem
    simp only [Reader.position_moveTo]
    omega

def scan? (css : Text) : Option Ruleset :=
  (scanBlock? css [] (size css) ⟨0, ⟨[], []⟩⟩).map Reader.found

end UtilityCss.Ruleset
