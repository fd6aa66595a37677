import UtilityCss.Proofs.ClassName.Scan

/-!
# The brackets of a class name

A class name is accepted if its quotes are closed and its brackets, outside quotes and escapes,
close each other in pairs. The reading counts brackets and does not look at their shape, so that a
round bracket can be closed by a square one. Names without such a pair are accepted only if their
brackets are nested as they should be.
-/

namespace UtilityCss.ClassName

open Text

inductive Shape where
  | round
  | square
  deriving DecidableEq

inductive Bracket where
  | opening (shape : Shape)
  | closing (shape : Shape)
  deriving DecidableEq

def bracket? (c : Char) : Option Bracket :=
  if c = '(' then some (.opening .round)
  else if c = '[' then some (.opening .square)
  else if c = ')' then some (.closing .round)
  else if c = ']' then some (.closing .square)
  else none

/-- Brackets that close each other in pairs, each pair around nested brackets and of shapes that
fit. -/
inductive Nested (Fits : Shape → Shape → Prop) : List Bracket → Prop where
  | nil : Nested Fits []
  | pair {a b : Shape} {inner rest : List Bracket} : Fits a b → Nested Fits inner →
      Nested Fits rest → Nested Fits (.opening a :: (inner ++ .closing b :: rest))

def AnyShape (_ _ : Shape) : Prop :=
  True

instance (a b : Shape) : Decidable (AnyShape a b) :=
  inferInstanceAs (Decidable True)

def Mismatched (bs : List Bracket) : Prop :=
  ∃ front a inner b rest, bs = front ++ .opening a :: (inner ++ .closing b :: rest) ∧
    Nested AnyShape inner ∧ a ≠ b

section Unwinding

variable {Fits Fits' : Shape → Shape → Prop} {bs rest : List Bracket} {opened opened' : List Shape}

/-- Brackets that close all that is open in front of them. -/
def Unwinds (Fits : Shape → Shape → Prop) : List Shape → List Bracket → Prop
  | [], bs => Nested Fits bs
  | a :: opened, bs => ∃ inner b rest, bs = inner ++ .closing b :: rest ∧ Fits a b ∧
      Nested Fits inner ∧ Unwinds Fits opened rest

theorem Unwinds.pair {a b : Shape} {inner : List Bracket} (hfits : Fits a b)
    (hinner : Nested Fits inner) (hrest : Unwinds Fits opened rest) :
    Unwinds Fits opened (.opening a :: (inner ++ .closing b :: rest)) := by
  cases opened with
  | nil => exact .pair hfits hinner hrest
  | cons a' opened =>
      obtain ⟨inner', b', rest, rfl, hfits', hinner', hrest⟩ := hrest
      refine ⟨.opening a :: (inner ++ .closing b :: inner'), b', rest, ?_, hfits',
        .pair hfits hinner hinner', hrest⟩
      simp only [List.cons_append, List.append_assoc]

variable [DecidableRel Fits] [DecidableRel Fits']

/-- The brackets that are open behind some brackets, the innermost first; none if one of the
brackets has nothing to close. -/
def unwind? (Fits : Shape → Shape → Prop) [DecidableRel Fits] :
    List Shape → List Bracket → Option (List Shape)
  | opened, [] => some opened
  | opened, .opening a :: bs => unwind? Fits (a :: opened) bs
  | [], .closing _ :: _ => none
  | a :: opened, .closing b :: bs => if Fits a b then unwind? Fits opened bs else none

theorem unwind?_append (bs rest : List Bracket) (opened : List Shape) :
    unwind? Fits opened (bs ++ rest) = (unwind? Fits opened bs).bind (unwind? Fits · rest) := by
  fun_induction unwind? Fits opened bs with
  | case1 opened => rfl
  | case2 opened a bs ih => rw [List.cons_append, unwind?, ih]
  | case3 => rfl
  | case4 a opened b bs hfits ih => rw [List.cons_append, unwind?, if_pos hfits, ih]
  | case5 a opened b bs hfits =>
      rw [List.cons_append, unwind?, if_neg hfits]
      rfl

theorem unwind?_mono (hmono : ∀ a b, Fits a b → Fits' a b)
    (h : unwind? Fits opened bs = some opened') : unwind? Fits' opened bs = some opened' := by
  fun_induction unwind? Fits opened bs with
  | case1 opened => exact h
  | case2 opened a bs ih => rw [unwind?, ih h]
  | case3 => cases h
  | case4 a opened b bs hfits ih => rw [unwind?, if_pos (hmono a b hfits), ih h]
  | case5 => cases h

/-- Nested brackets leave open what is open in front of them. -/
theorem Nested.unwind? (h : Nested Fits bs) (opened : List Shape) :
    unwind? Fits opened bs = some opened := by
  induction h generalizing opened with
  | nil => rfl
  | pair hfits _ _ ihInner ihRest =>
      rw [ClassName.unwind?, unwind?_append, ihInner, Option.bind_some, ClassName.unwind?,
        if_pos hfits, ihRest]

theorem unwinds_of_unwind? (h : unwind? Fits opened bs = some []) : Unwinds Fits opened bs := by
  fun_induction unwind? Fits opened bs with
  | case1 opened =>
      obtain rfl := Option.some.inj h
      exact .nil
  | case2 opened a bs ih =>
      obtain ⟨inner, b, rest, rfl, hfits, hinner, hrest⟩ := ih h
      exact .pair hfits hinner hrest
  | case3 => cases h
  | case4 a opened b bs hfits ih => exact ⟨[], b, bs, rfl, hfits, .nil, ih h⟩
  | case5 => cases h

theorem nested_iff : Nested Fits bs ↔ unwind? Fits [] bs = some [] :=
  ⟨fun h => h.unwind? [], unwinds_of_unwind?⟩

instance (bs : List Bracket) : Decidable (Nested Fits bs) :=
  decidable_of_iff _ nested_iff.symm

end Unwinding

/-- Where the shapes do not matter, brackets are nested as they should be unless some pair is
mismatched. -/
theorem nested_iff_not_mismatched {bs : List Bracket} (h : Nested AnyShape bs) :
    Nested (· = ·) bs ↔ ¬ Mismatched bs := by
  constructor
  · rintro hnested ⟨front, a, inner, b, rest, rfl, hinner, hne⟩
    have hall := hnested.unwind? []
    rw [unwind?_append] at hall
    obtain ⟨opened, -, hall⟩ := Option.bind_eq_some_iff.mp hall
    rw [unwind?, unwind?_append] at hall
    obtain ⟨opened', hread, hall⟩ := Option.bind_eq_some_iff.mp hall
    have hsame : unwind? AnyShape (a :: opened) inner = some opened' :=
      unwind?_mono (fun _ _ _ => trivial) hread
    rw [hinner.unwind?, Option.some.injEq] at hsame
    rw [← hsame, unwind?, if_neg hne] at hall
    cases hall
  · intro hpairs
    induction h with
    | nil => exact .nil
    | @pair a b inner rest _ hinner _ ihInner ihRest =>
        have hab : a = b := Classical.byContradiction fun hne =>
          hpairs ⟨[], a, inner, b, rest, rfl, hinner, hne⟩
        refine .pair hab (ihInner ?_) (ihRest ?_)
        · rintro ⟨front, a', inner', b', rest', rfl, hmismatch⟩
          refine hpairs ⟨.opening a :: front, a', inner', b', rest' ++ .closing b :: rest, ?_,
            hmismatch⟩
          simp only [List.cons_append, List.append_assoc]
        · rintro ⟨front, a', inner', b', rest', rfl, hmismatch⟩
          refine hpairs ⟨.opening a :: (inner ++ .closing b :: front), a', inner', b', rest', ?_,
            hmismatch⟩
          simp only [List.cons_append, List.append_assoc]

/-! ## The brackets that count -/

/-- The characters of a rest that stand outside quotes and escapes, the rest being read inside a
quote or outside any. -/
def bareFrom (quote : Option Char) : Text → Text
  | [] => []
  | ['\x5c'] => []
  | '\x5c' :: _ :: rest => bareFrom quote rest
  | c :: rest =>
      match quote with
      | some q => bareFrom (if c = q then none else some q) rest
      | none => if isQuote c then bareFrom (some c) rest else c :: bareFrom none rest

def quoteAfter (quote : Option Char) : Text → Option Char
  | [] => quote
  | ['\x5c'] => quote
  | '\x5c' :: _ :: rest => quoteAfter quote rest
  | c :: rest =>
      match quote with
      | some q => quoteAfter (if c = q then none else some q) rest
      | none => quoteAfter (if isQuote c then some c else none) rest

def bracketsFrom (quote : Option Char) (t : Text) : List Bracket :=
  (bareFrom quote t).filterMap bracket?

def brackets (name : Text) : List Bracket :=
  bracketsFrom none name

variable {quote : Option Char} {c : Char} {t : Text}

theorem bareFrom_cons (hc : c ≠ '\x5c') :
    bareFrom quote (c :: t) =
      match quote with
      | some q => bareFrom (if c = q then none else some q) t
      | none => if isQuote c then bareFrom (some c) t else c :: bareFrom none t := by
  rw [bareFrom.eq_def]
  split
  next h => cases h
  next h => exact absurd (List.cons.inj h).1 hc
  next h => exact absurd (List.cons.inj h).1 hc
  next h =>
    obtain ⟨rfl, rfl⟩ := List.cons.inj h
    rfl

theorem quoteAfter_cons (hc : c ≠ '\x5c') :
    quoteAfter quote (c :: t) =
      match quote with
      | some q => quoteAfter (if c = q then none else some q) t
      | none => quoteAfter (if isQuote c then some c else none) t := by
  rw [quoteAfter.eq_def]
  split
  next h => cases h
  next h => exact absurd (List.cons.inj h).1 hc
  next h => exact absurd (List.cons.inj h).1 hc
  next h =>
    obtain ⟨rfl, rfl⟩ := List.cons.inj h
    rfl

theorem bracketsFrom_bracket {b : Bracket} (hc : c ≠ '\x5c') (hquote : isQuote c = false)
    (hb : bracket? c = some b) : bracketsFrom none (c :: t) = b :: bracketsFrom none t := by
  simp only [bracketsFrom, bareFrom_cons hc, hquote, Bool.false_eq_true, if_false,
    List.filterMap_cons_some hb]

theorem bracketsFrom_other (hc : c ≠ '\x5c') (hquote : isQuote c = false) (hb : bracket? c = none) :
    bracketsFrom none (c :: t) = bracketsFrom none t := by
  simp only [bracketsFrom, bareFrom_cons hc, hquote, Bool.false_eq_true, if_false,
    List.filterMap_cons_none hb]

theorem exists_opening (h : c = '(' ∨ c = '[') : ∃ a, bracket? c = some (.opening a) := by
  rcases h with rfl | rfl
  · exact ⟨.round, rfl⟩
  · exact ⟨.square, rfl⟩

theorem exists_closing (h : c = ')' ∨ c = ']') : ∃ a, bracket? c = some (.closing a) := by
  rcases h with rfl | rfl
  · exact ⟨.round, rfl⟩
  · exact ⟨.square, rfl⟩

theorem bracket?_eq_none (hopening : ¬ (c = '(' ∨ c = '[')) (hclosing : ¬ (c = ')' ∨ c = ']')) :
    bracket? c = none := by
  rw [not_or] at hopening hclosing
  rw [bracket?, if_neg hopening.1, if_neg hopening.2, if_neg hclosing.1, if_neg hclosing.2]

/-! ## Accepted names -/

theorem segmentsFrom_nil_isSome_iff (quote : Option Char) (opened : List Shape) :
    (segmentsFrom opened.length quote []).isSome = true ↔
      quote = none ∧ unwind? AnyShape opened [] = some [] := by
  rw [segmentsFrom, unwind?]
  cases opened <;> cases quote <;> simp

/-- Of the brackets, the reading only counts those that are open. -/
theorem segmentsFrom_isSome_iff (quote : Option Char) (opened : List Shape) (t : Text) :
    (segmentsFrom opened.length quote t).isSome = true ↔
      quoteAfter quote t = none ∧ unwind? AnyShape opened (bracketsFrom quote t) = some [] := by
  induction t using pairedInduction generalizing quote opened with
  | nil => exact segmentsFrom_nil_isSome_iff quote opened
  | lone =>
      change ((segmentsFrom opened.length quote []).map _).isSome = true ↔ _
      rw [Option.isSome_map]
      exact segmentsFrom_nil_isSome_iff quote opened
  | pair c t ih =>
      rw [segmentsFrom_pair, Option.isSome_map, Option.isSome_map]
      exact ih quote opened
  | plain c t hc ih =>
      rw [segmentsFrom_cons hc, quoteAfter_cons hc]
      cases quote with
      | some q =>
          rw [bracketsFrom, bareFrom_cons hc]
          simp only [Option.isSome_map]
          exact ih _ opened
      | none =>
          by_cases hquote : isQuote c = true
          · rw [bracketsFrom, bareFrom_cons hc]
            simp only [hquote, if_true, Option.isSome_map]
            exact ih _ opened
          · rw [Bool.not_eq_true] at hquote
            simp only [hquote, Bool.false_eq_true, if_false]
            by_cases hopening : c = '(' ∨ c = '['
            · obtain ⟨a, ha⟩ := exists_opening hopening
              rw [if_pos hopening, Option.isSome_map, bracketsFrom_bracket hc hquote ha, unwind?]
              exact ih none (a :: opened)
            · rw [if_neg hopening]
              by_cases hclosing : c = ')' ∨ c = ']'
              · obtain ⟨b, hb⟩ := exists_closing hclosing
                rw [if_pos hclosing, bracketsFrom_bracket hc hquote hb]
                cases opened with
                | nil => simp [unwind?]
                | cons a opened =>
                    rw [unwind?, if_pos (show AnyShape a b from trivial)]
                    simp only [List.length_cons, Option.isSome_map]
                    exact ih none opened
              · rw [if_neg hclosing,
                  bracketsFrom_other hc hquote (bracket?_eq_none hopening hclosing)]
                split
                next hcolon =>
                  rw [Option.isSome_map, ← hcolon.2]
                  exact ih none opened
                next =>
                  rw [Option.isSome_map]
                  exact ih none opened

theorem segments?_isSome_iff (name : Text) :
    (segments? name).isSome = true ↔
      quoteAfter none name = none ∧ Nested AnyShape (brackets name) := by
  rw [nested_iff]
  exact segmentsFrom_isSome_iff none [] name

theorem accepted_iff (name : Text) :
    (∃ parts, scan? name = some (.ok parts)) ↔ (segments? name).isSome = true := by
  rw [scan?_eq]
  cases segments? name <;> simp [answer]

theorem refused_iff (name : Text) :
    scan? name = some (.error (.unbalanced name)) ↔ ¬ (segments? name).isSome = true := by
  rw [scan?_eq]
  cases segments? name <;> simp [answer]

/-- A name is accepted if its quotes are closed and its brackets close each other in pairs, and
refused as unbalanced otherwise. The brackets of an accepted name are nested, each closed by one of
its shape, unless one is closed by one of the other shape. -/
theorem accepts_nested (name : Text) :
    ((∃ parts, scan? name = some (.ok parts)) ↔
      quoteAfter none name = none ∧ Nested AnyShape (brackets name)) ∧
    (scan? name = some (.error (.unbalanced name)) ↔
      ¬ (quoteAfter none name = none ∧ Nested AnyShape (brackets name))) ∧
    ((∃ parts, scan? name = some (.ok parts)) →
      (Nested (· = ·) (brackets name) ↔ ¬ Mismatched (brackets name))) := by
  rw [accepted_iff, refused_iff, segments?_isSome_iff]
  exact ⟨Iff.rfl, Iff.rfl, fun h => nested_iff_not_mismatched h.2⟩

theorem accepts_nested_quoted :
    let name := "a[b(c)]:\x5c):\x22(\x22".toList
    (∃ parts, scan? name = some (.ok parts)) ∧ ¬ Mismatched (brackets name) := by
  intro name
  have hnested : quoteAfter none name = none ∧ Nested AnyShape (brackets name) := by decide +kernel
  obtain ⟨haccepted, -, hshapes⟩ := accepts_nested name
  exact ⟨haccepted.mpr hnested, (hshapes (haccepted.mpr hnested)).mp (by decide +kernel)⟩

/-- A square bracket closes the round one of a function. -/
theorem accepts_mismatched :
    scan? "width:calc(1px]".toList =
        some (.ok (["width", "calc(1px]"].map String.toList)) ∧
      ¬ Nested (· = ·) (brackets "width:calc(1px]".toList) := by
  have hread : segments? "width:calc(1px]".toList =
      some (["width", "calc(1px]"].map String.toList) := by decide +kernel
  rw [scan?_eq, hread]
  exact ⟨rfl, by decide +kernel⟩

end UtilityCss.ClassName
