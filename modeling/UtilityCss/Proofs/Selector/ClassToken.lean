import UtilityCss.Proofs.Selector.Escape

/-!
# Class tokens by their whole names

A selector that is put together from the tokens of any class names, with separators behind them, is
searched for one name. What is found is the first token of this name: an escaped name is cut off
from what follows it, so that no other name passes for it.
-/

namespace UtilityCss.Selector

open Text Css

/-- White space, a combinator, a comma, or any other character that belongs to no name and begins
no unit of a selector. Blanks beyond ASCII belong to names. -/
def isSeparator (c : Char) : Bool :=
  !isIdentifierChar c && c != '\x5c' && c != '.' && !isQuote c && c != '[' && c != '('

def written (tokens : List (Text × Text)) : Text :=
  tokens.flatMap fun (name, gap) => classSelector name ++ gap

def continuesName (t : Text) : Bool :=
  t.head?.any fun c => isIdentifierChar c || c == '\x5c'

variable {c : Char} {t gap : Text}

theorem isSeparator_iff : isSeparator c = true ↔ isIdentifierChar c = false ∧ c ≠ '\x5c' ∧
    c ≠ '.' ∧ isQuote c = false ∧ c ≠ '[' ∧ c ≠ '(' := by
  simp only [isSeparator, Bool.and_eq_true, Bool.not_eq_true', bne_iff_ne, and_assoc]

theorem isSeparator_of_isCombinator (h : isCombinator c = true ∨ c = ',') :
    isSeparator c = true := by
  rcases h with h | rfl
  · simp only [isCombinator, isAsciiBlank, Bool.or_eq_true, beq_iff_eq] at h
    rcases h with ((((((rfl | rfl) | rfl) | rfl) | rfl) | rfl) | rfl) | rfl <;> decide
  · decide

theorem continuesName_append (hgap : ∀ c ∈ gap, isSeparator c = true)
    (ht : continuesName t = false) : continuesName (gap ++ t) = false := by
  cases gap with
  | nil => exact ht
  | cons c gap =>
      obtain ⟨hname, hescape, -⟩ := isSeparator_iff.mp (hgap c List.mem_cons_self)
      simp [continuesName, hname, hescape]

theorem continuesName_written (tokens : List (Text × Text)) :
    continuesName (written tokens) = false := by
  cases tokens with
  | nil => rfl
  | cons token tokens => rfl

/-- Separators hold no class token. -/
theorem findClassToken_separators (escaped : Text) (hgap : ∀ c ∈ gap, isSeparator c = true)
    (t : Text) : findClassToken escaped (gap ++ t) = findClassToken escaped t := by
  induction gap with
  | nil => rfl
  | cons c gap ih =>
      obtain ⟨hc, hgap⟩ := List.forall_mem_cons.mp hgap
      obtain ⟨-, hescape, hdot, hquote, hsquare, hround⟩ := isSeparator_iff.mp hc
      have hunit : afterUnit (c :: (gap ++ t)) = gap ++ t := by
        rw [afterUnit, if_neg hescape, if_neg (by rw [hquote]; exact Bool.false_ne_true),
          if_neg hsquare, if_neg hround]
      rw [List.cons_append, findClassToken, if_neg hdot, hunit]
      exact ih hgap

theorem afterIdentifier_eq_self (h : continuesName t = false) : afterIdentifier t = t := by
  cases t with
  | nil => rw [afterIdentifier]
  | cons c t =>
      simp only [continuesName, List.head?_cons, Option.any_some, Bool.or_eq_false_iff,
        beq_eq_false_iff_ne] at h
      rw [afterIdentifier, if_neg h.2, h.1, if_neg Bool.false_ne_true]

theorem afterIdentifier_escape (name : Text) (h : continuesName t = false) :
    afterIdentifier (escape name ++ t) = t := by
  rw [afterIdentifier_escape_append, afterIdentifier_eq_self h]

theorem startsWithName_iff {escaped : Text} : startsWithName escaped t = true ↔
    ∃ rest, t = escaped ++ rest ∧ continuesName rest = false := by
  unfold startsWithName
  rw [Option.any_eq_true]
  constructor
  · rintro ⟨rest, hafter, hrest⟩
    exact ⟨rest, eq_append_of_after? hafter, Bool.not_eq_true' _ ▸ hrest⟩
  · rintro ⟨rest, rfl, hrest⟩
    exact ⟨rest, after?_append escaped rest, Bool.not_eq_true' _ ▸ hrest⟩

/-- A token passes for a name if it is the token of this name. -/
theorem startsWithName_escape (name other : Text) (h : continuesName t = false) :
    startsWithName (escape name) (escape other ++ t) = true ↔ other = name := by
  rw [startsWithName_iff]
  constructor
  · rintro ⟨rest, heq, hrest⟩
    -- The scanner of identifiers finds the end of both readings.
    have hend : t = rest := by
      rw [← afterIdentifier_escape other h, heq, afterIdentifier_escape name hrest]
    rw [hend] at heq
    exact escape_injective (List.append_cancel_right heq)
  · rintro rfl
    exact ⟨t, rfl, h⟩

theorem findClassToken_token (name other : Text) (h : continuesName t = false) :
    findClassToken (escape name) (classSelector other ++ t) =
      if other = name then some (classSelector other ++ t) else findClassToken (escape name) t := by
  have hstarts := startsWithName_escape name other h
  rw [classSelector, List.cons_append, findClassToken, if_pos rfl, afterIdentifier_escape other h]
  by_cases heq : other = name
  · rw [if_pos (hstarts.mpr heq), if_pos heq]
  · rw [if_neg (mt hstarts.mp heq), if_neg heq]

theorem findClassToken_written (name : Text) {tokens : List (Text × Text)}
    (hgaps : ∀ token ∈ tokens, ∀ c ∈ token.2, isSeparator c = true) :
    findClassToken (escape name) (written tokens) =
      (tokens.findIdx? fun token => token.1 = name).map fun i => written (tokens.drop i) := by
  induction tokens with
  | nil =>
      show findClassToken (escape name) [] = none
      rw [findClassToken]
  | cons token tokens ih =>
      obtain ⟨other, gap⟩ := token
      obtain ⟨hgap, hgaps⟩ := List.forall_mem_cons.mp hgaps
      have hbehind := continuesName_append hgap (continuesName_written tokens)
      have hwritten : written ((other, gap) :: tokens) =
          classSelector other ++ (gap ++ written tokens) := by
        rw [written, List.flatMap_cons, List.append_assoc]
        rfl
      rw [hwritten, findClassToken_token name other hbehind, findClassToken_separators _ hgap,
        ih hgaps, List.findIdx?_cons]
      by_cases heq : other = name
      · rw [if_pos heq, if_pos (decide_eq_true heq), Option.map_some, List.drop_zero, hwritten]
      · rw [if_neg heq, if_neg (by simpa using heq), Option.map_map]
        rfl

theorem size_written_drop (tokens : List (Text × Text)) (i : Nat) :
    size (written tokens) - size (written (tokens.drop i)) = size (written (tokens.take i)) := by
  have hsplit : written (tokens.take i) ++ written (tokens.drop i) = written tokens := by
    rw [written, written, ← List.flatMap_append, List.take_append_drop, written]
  rw [← hsplit, size_append, Nat.add_sub_cancel]

/-- The class token of a name in a selector of class tokens is the first one of this very name, at
the position behind all that is written before it; there is none if no token has the name. -/
theorem classTokenStart?_written (name : Text) {tokens : List (Text × Text)}
    (hgaps : ∀ token ∈ tokens, ∀ c ∈ token.2, isSeparator c = true) :
    classTokenStart? (escape name) (written tokens) =
      (tokens.findIdx? fun token => token.1 = name).map fun i => size (written (tokens.take i)) := by
  rw [classTokenStart?, findClassToken_written name hgaps, Option.map_map]
  congr 1
  funext i
  exact size_written_drop tokens i

/-- Names of which one begins, or is escaped almost as, another. -/
theorem classTokenStart?_lookalikes :
    let tokens : List (Text × Text) :=
      [("hover:a".toList, []), (['\x11'], " > ".toList), ("11".toList, ['\t']), ("é".toList, []),
        ("1".toList, [',']), ("hover".toList, ['~']), ("1".toList, [])]
    (∀ token ∈ tokens, ∀ c ∈ token.2, isSeparator c = true) ∧
      written tokens =
        ".hover\x5c:a.\x5c11  > .\x5c31 1\t.\x5cé.\x5c31 ,.hover~.\x5c31 ".toList ∧
      classTokenStart? (escape "1".toList) (written tokens) = some 28 ∧
      classTokenStart? (escape "hover".toList) (written tokens) = some 34 ∧
      classTokenStart? (escape ['\x01']) (written tokens) = none := by
  intro tokens
  have hgaps : ∀ token ∈ tokens, ∀ c ∈ token.2, isSeparator c = true := by
    have hcombinators : tokens.all (·.2.all fun c => isCombinator c || c == ',') = true := by
      decide +kernel
    intro token htoken c hc
    have hall := List.all_eq_true.mp (List.all_eq_true.mp hcombinators token htoken) c hc
    exact isSeparator_of_isCombinator (by simpa using hall)
  refine ⟨hgaps, by decide +kernel, ?_, ?_, ?_⟩
  · rw [classTokenStart?_written _ hgaps]
    decide +kernel
  · rw [classTokenStart?_written _ hgaps]
    decide +kernel
  · rw [classTokenStart?_written _ hgaps]
    decide +kernel

end UtilityCss.Selector
