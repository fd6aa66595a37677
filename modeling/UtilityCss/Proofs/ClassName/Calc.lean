import UtilityCss.ClassName.Calc

/-!
# Which sums are taken for ambiguous

A sum in `calc(…)` has decimal numbers and references as operands, and any number of spaces on
each side of an operator. Read from left to right, the search for ambiguous signs holds the text
in front of it backwards; `CalcSum.behind` says what that text is behind a sum. From it follows
which operators are noticed: those with no space on their left, but for the ones behind a number
with a unit of letters that itself stands right behind a hyphen. The space on the right is never
looked at.
-/

namespace UtilityCss.ClassName

open Text

inductive Sign
  | plus
  | minus

def Sign.char : Sign → Char
  | .plus => '+'
  | .minus => '-'

inductive IsDecimal : Text → Prop
  | whole {digits : Text} (hdigits : ∀ c ∈ digits, c.isDigit = true) (hne : digits ≠ []) :
      IsDecimal digits
  | point {digits fraction : Text} (hdigits : ∀ c ∈ digits, c.isDigit = true)
      (hfraction : ∀ c ∈ fraction, c.isDigit = true) (hne : fraction ≠ []) :
      IsDecimal (digits ++ '.' :: fraction)

inductive IsMeasure : Text → Prop
  | bare : IsMeasure []
  | percent : IsMeasure ['%']
  | letters {unit : Text} (hunit : ∀ c ∈ unit, c.isAlpha = true) (hne : unit ≠ []) : IsMeasure unit

/-- A number such as `-1.5rem`. -/
structure Number where
  sign : Option Sign
  digits : Text
  unit : Text
  isDecimal_digits : IsDecimal digits
  isMeasure_unit : IsMeasure unit

namespace Number

def magnitude (n : Number) : Text :=
  n.digits ++ n.unit

def signText (n : Number) : Text :=
  (n.sign.map Sign.char).toList

def text (n : Number) : Text :=
  n.signText ++ n.magnitude

def HasLetters (n : Number) : Prop :=
  n.unit ≠ [] ∧ n.unit ≠ ['%']

end Number

def IsFlat (t : Text) : Prop :=
  ∀ c ∈ t, c ≠ '(' ∧ c ≠ ')'

/-- A number, or a reference such as `var(--gap-2)`, whose name has its hyphens with it. -/
inductive Operand
  | number (n : Number)
  | reference (name : Text) (hname : IsFlat name)

namespace Operand

def text : Operand → Text
  | number n => n.text
  | reference name _ => "var(".toList ++ name ++ [')']

/-- What the search holds backwards behind an operand that it reaches with `before`. -/
def behind (before : Text) : Operand → Text
  | number n => n.magnitude.reverse ++ (n.signText.reverse ++ before)
  | reference _ _ => [')']

/-- The operand is a number with a unit of letters whose digits stand right behind a hyphen, its own
sign or else the character in front of it. -/
def IsHidden (front : Option Char) : Operand → Prop
  | number n => n.HasLetters ∧ (n.sign.map Sign.char).or front = some '-'
  | reference _ _ => False

end Operand

structure Operator where
  left : Nat
  sign : Sign
  right : Nat

def Operator.text (o : Operator) : Text :=
  List.replicate o.left ' ' ++ o.sign.char :: List.replicate o.right ' '

def Operator.front (o : Operator) : Char :=
  if o.right = 0 then o.sign.char else ' '

inductive CalcSum
  | operand (x : Operand)
  | add (lead : CalcSum) (o : Operator) (x : Operand)

namespace CalcSum

def text : CalcSum → Text
  | operand x => x.text
  | add lead o x => lead.text ++ o.text ++ x.text

def value (s : CalcSum) : Text :=
  "calc(".toList ++ s.text ++ [')']

def behind : CalcSum → Text
  | operand x => x.behind []
  | add lead o x => x.behind (o.text.reverse ++ lead.behind)

/-- Some operator fits `P`, which is also told the sum on its left. -/
def HasOperator (P : CalcSum → Operator → Prop) : CalcSum → Prop
  | operand _ => False
  | add lead o _ => lead.HasOperator P ∨ P lead o

def EndsHidden : CalcSum → Prop
  | operand x => x.IsHidden none
  | add _ o x => x.IsHidden (some o.front)

def LacksSpace (s : CalcSum) : Prop :=
  s.HasOperator fun _ o => o.left = 0 ∨ o.right = 0

/-- Some operator has no space on its left, and the operand there is not hidden. -/
def IsNoticed (s : CalcSum) : Prop :=
  s.HasOperator fun lead o => o.left = 0 ∧ ¬ lead.EndsHidden

theorem HasOperator.mono {P Q : CalcSum → Operator → Prop} (hPQ : ∀ lead o, P lead o → Q lead o)
    {s : CalcSum} (h : s.HasOperator P) : s.HasOperator Q := by
  induction s with
  | operand x => exact h
  | add lead o x ih => exact h.imp ih (hPQ lead o)

theorem lacksSpace_of_isNoticed {s : CalcSum} (h : s.IsNoticed) : s.LacksSpace :=
  h.mono fun _ _ ho => .inl ho.1

end CalcSum

variable {c : Char} {word rest before : Text}

def IsInert (t : Text) : Prop :=
  ∀ c ∈ t, (c ≠ '+' ∧ c ≠ '-') ∧ c ≠ '(' ∧ c ≠ ')'

/-- A text that goes on with neither `var(` nor `calc(`, if one has begun in front of it. -/
def IsApart (t : Text) : Prop :=
  ∀ c ∈ t.head?, c ∉ ['a', 'r', '('] ∧ c ∉ ['a', 'l', 'c', '(']

theorem isApart_sign (sign : Sign) (rest : Text) : IsApart (sign.char :: rest) := by
  rintro _ ⟨⟩
  cases sign <;> decide

theorem IsInert.isFlat (h : IsInert word) : IsFlat word :=
  fun c hc => (h c hc).2

theorem isFlat_cons : IsFlat (c :: word) ↔ (c ≠ '(' ∧ c ≠ ')') ∧ IsFlat word :=
  List.forall_mem_cons

theorem isFlat_append : IsFlat (word ++ rest) ↔ IsFlat word ∧ IsFlat rest :=
  List.forall_mem_append

theorem isInert_spaces (n : Nat) : IsInert (List.replicate n ' ') := by
  intro c hc
  rw [List.eq_of_mem_replicate hc]
  decide

theorem insideGroup_append (hword : IsFlat word) (depth : Nat) (rest : Text) :
    insideGroup depth (word ++ rest) = word ++ insideGroup depth rest := by
  induction word with
  | nil => rfl
  | cons c word ih =>
      obtain ⟨⟨hopen, hclose⟩, hword⟩ := isFlat_cons.mp hword
      simp only [List.cons_append, insideGroup, if_neg hopen, if_neg hclose, ih hword]

theorem afterGroup_append (hword : IsFlat word) (depth : Nat) (rest : Text) :
    afterGroup depth (word ++ rest) = afterGroup depth rest := by
  induction word with
  | nil => rfl
  | cons c word ih =>
      obtain ⟨⟨hopen, hclose⟩, hword⟩ := isFlat_cons.mp hword
      simp only [List.cons_append, afterGroup, if_neg hopen, if_neg hclose, ih hword]

/-- A call that begins in a word without parentheses goes on behind the word. -/
theorem after?_flat {lead : Text} (hword : IsFlat word) (hne : word ≠ []) (hlead : '(' ∈ lead)
    (hrest : ∀ c ∈ rest.head?, c ∉ lead.tail) : after? lead (word ++ rest) = none := by
  have hopen : '(' ∉ word := fun hmem => (hword _ hmem).1 rfl
  refine Option.eq_none_iff_forall_ne_some.mpr fun behind hread => ?_
  rcases List.append_eq_append_iff.mp (eq_append_of_after? hread) with
    ⟨ahead, rfl, rfl⟩ | ⟨ahead, rfl, -⟩
  · obtain ⟨first, word, rfl⟩ := List.exists_cons_of_ne_nil hne
    cases ahead with
    | nil => exact hopen (by simpa using hlead)
    | cons c ahead => exact hrest c rfl (by simp)
  · exact hopen (List.mem_append_left _ hlead)

theorem ambiguousFrom_cons (h : after? ['v', 'a', 'r', '('] (c :: rest) = none) :
    ambiguousFrom before (c :: rest) =
      if (c = '+' ∨ c = '-') ∧ endsOperand before then true
      else ambiguousFrom (c :: before) rest := by
  rw [ambiguousFrom]
  split
  case h_1 hread => rw [h] at hread; cases hread
  case h_2 => rfl

theorem ambiguousFrom_var (before reference : Text) :
    ambiguousFrom before ("var(".toList ++ reference) =
      ambiguousFrom [')'] (afterGroup 0 reference) := by
  have hread := after?_append "var(".toList reference
  rw [show "var(".toList = 'v' :: ['a', 'r', '('] from rfl, List.cons_append] at hread ⊢
  rw [ambiguousFrom]
  split
  case h_1 hread' => rw [hread] at hread'; cases hread'; rfl
  case h_2 hread' => rw [hread] at hread'; cases hread'

theorem ambiguousFrom_append (hword : IsInert word) (hrest : IsApart rest) :
    ambiguousFrom before (word ++ rest) = ambiguousFrom (word.reverse ++ before) rest := by
  induction word generalizing before with
  | nil => rfl
  | cons c word ih =>
      have hread : after? ['v', 'a', 'r', '('] ((c :: word) ++ rest) = none :=
        after?_flat hword.isFlat (List.cons_ne_nil _ _) (by decide) fun c hc => (hrest c hc).1
      obtain ⟨⟨⟨hplus, hminus⟩, -⟩, hword⟩ := List.forall_mem_cons.mp hword
      rw [List.cons_append] at hread ⊢
      rw [ambiguousFrom_cons hread, if_neg (by simp [hplus, hminus]), ih hword,
        List.reverse_cons, List.append_assoc, List.singleton_append]

theorem ambiguousFrom_sign (sign : Sign) :
    ambiguousFrom before (sign.char :: rest) =
      (endsOperand before || ambiguousFrom (sign.char :: before) rest) := by
  have hsign : sign.char = '+' ∨ sign.char = '-' := by cases sign <;> decide
  have hread : after? ['v', 'a', 'r', '('] (sign.char :: rest) = none := by cases sign <;> rfl
  rw [ambiguousFrom_cons hread]
  cases endsOperand before <;> simp [hsign]

theorem hasAmbiguousCalc_append (hword : IsFlat word) (hrest : IsApart rest) :
    hasAmbiguousCalc (word ++ rest) = hasAmbiguousCalc rest := by
  induction word with
  | nil => rfl
  | cons c word ih =>
      have hread : after? ['c', 'a', 'l', 'c', '('] ((c :: word) ++ rest) = none :=
        after?_flat hword (List.cons_ne_nil _ _) (by decide) fun c hc => (hrest c hc).2
      rw [List.cons_append] at hread ⊢
      rw [hasAmbiguousCalc, hread, ih (isFlat_cons.mp hword).2]
      rfl

/-! ## Operands -/

theorem isInert_of_isDimensionChar (h : ∀ c ∈ word, isDimensionChar c = true ∨ c = '%') :
    IsInert word := by
  intro c hc
  refine ⟨⟨?_, ?_⟩, ?_, ?_⟩ <;> rintro rfl <;> exact absurd (h _ hc) (by decide)

theorem exists_reverse_eq_cons {P : Char → Prop} (h : ∀ c ∈ word, P c) (hne : word ≠ []) :
    ∃ c front, word.reverse = c :: front ∧ P c := by
  obtain ⟨c, front, heq⟩ := List.exists_cons_of_ne_nil (mt List.reverse_eq_nil_iff.mp hne)
  exact ⟨c, front, heq, h c (List.mem_reverse.mp (heq ▸ List.mem_cons_self))⟩

theorem IsDecimal.reverse_eq_cons (h : IsDecimal word) :
    ∃ c front, word.reverse = c :: front ∧ c.isDigit = true := by
  cases h with
  | whole hdigits hne => exact exists_reverse_eq_cons hdigits hne
  | @point digits fraction _ hfraction hne =>
      obtain ⟨c, front, heq, hc⟩ := exists_reverse_eq_cons hfraction hne
      exact ⟨c, front ++ '.' :: digits.reverse, by simp [heq], hc⟩

theorem IsDecimal.isDigit_or_point (h : IsDecimal word) :
    ∀ c ∈ word, c.isDigit = true ∨ c = '.' := by
  intro c hc
  cases h with
  | whole hdigits _ => exact .inl (hdigits c hc)
  | point hdigits hfraction _ =>
      rcases List.mem_append.mp hc with hc | hc
      · exact .inl (hdigits c hc)
      · rcases List.mem_cons.mp hc with rfl | hc
        · exact .inr rfl
        · exact .inl (hfraction c hc)

theorem IsDecimal.eq_cons (h : IsDecimal word) :
    ∃ c behind, word = c :: behind ∧ (c.isDigit = true ∨ c = '.') := by
  have hne : word ≠ [] := by cases h <;> simp_all
  obtain ⟨c, behind, rfl⟩ := List.exists_cons_of_ne_nil hne
  exact ⟨c, behind, rfl, h.isDigit_or_point c List.mem_cons_self⟩

theorem isDimensionChar_of_isDigit_or_point (h : c.isDigit = true ∨ c = '.') :
    isDimensionChar c = true := by
  rcases h with hdigit | rfl
  · simp [isDimensionChar, Char.isAlphanum, hdigit]
  · rfl

theorem isDimensionChar_of_isAlpha (h : c.isAlpha = true) : isDimensionChar c = true := by
  simp [isDimensionChar, Char.isAlphanum, h]

theorem isDigit_eq_false_of_isAlpha (h : c.isAlpha = true) : c.isDigit = false := by
  refine Bool.eq_false_iff.mpr fun hdigit => ?_
  have hnine : c ≤ '9' := of_decide_eq_true (Bool.and_eq_true_iff.mp hdigit).2
  rcases Bool.or_eq_true_iff.mp h with hupper | hlower
  · have hfirst : 'A' ≤ c := (of_decide_eq_true hupper).1
    exact absurd (Char.le_trans hfirst hnine) (by decide)
  · have hfirst : 'a' ≤ c := of_decide_eq_true (Bool.and_eq_true_iff.mp hlower).1
    exact absurd (Char.le_trans hfirst hnine) (by decide)

theorem endsOperand_of_end (h : c = ')' ∨ c = '%' ∨ c.isDigit = true) :
    endsOperand (c :: before) = true := by
  rw [endsOperand, if_pos h]

theorem endsOperand_spaces (n : Nat) (before : Text) :
    endsOperand (List.replicate n ' ' ++ before) = true ↔ n = 0 ∧ endsOperand before = true := by
  cases n <;> simp [List.replicate_succ, endsOperand]

/-- A word of digits and letters ends an operand unless it stands right behind a hyphen. -/
theorem endsOperand_word (hword : ∀ c ∈ word, isDimensionChar c = true)
    (hfirst : ∀ c ∈ word.getLast?, c.isDigit = true ∨ c = '.')
    (hlast : ∀ c ∈ word.head?, c.isAlpha = true) (hne : word ≠ [])
    (hbefore : ∀ c ∈ before.head?, isDimensionChar c = false) :
    endsOperand (word ++ before) = true ↔ before.head? ≠ some '-' := by
  have htake := takeWhile_append_exact hword hbefore
  have hdrop := dropWhile_append_exact hword hbefore
  obtain ⟨c, word, rfl⟩ := List.exists_cons_of_ne_nil hne
  have hletter : c.isAlpha = true := hlast c rfl
  have hend : ¬ (c = ')' ∨ c = '%' ∨ c.isDigit = true) := by
    rw [isDigit_eq_false_of_isAlpha hletter]
    rintro (rfl | rfl | h)
    · exact absurd hletter (by decide)
    · exact absurd hletter (by decide)
    · cases h
  have hhead : (c :: word).getLast?.any (fun first => first.isDigit || first == '.') = true := by
    simpa [List.getLast?_eq_some_getLast hne] using hfirst _ (List.getLast?_eq_some_getLast hne)
  rw [List.cons_append] at htake hdrop ⊢
  simp only [endsOperand, if_neg hend, hletter, if_true, htake, hdrop, hhead, Bool.true_and,
    bne_iff_ne]

namespace Number

variable (n : Number)

theorem isInert_magnitude : IsInert n.magnitude := by
  refine isInert_of_isDimensionChar fun c hc => ?_
  obtain ⟨sign, digits, unit, hdigits, hunit⟩ := n
  rcases List.mem_append.mp hc with hc | hc
  · exact .inl (isDimensionChar_of_isDigit_or_point (hdigits.isDigit_or_point c hc))
  · cases hunit with
    | bare => cases hc
    | percent => exact .inr (List.mem_singleton.mp hc)
    | letters hletters _ => exact .inl (isDimensionChar_of_isAlpha (hletters c hc))

theorem endsOperand_magnitude (hbefore : ∀ c ∈ before.head?, isDimensionChar c = false) :
    endsOperand (n.magnitude.reverse ++ before) = true ↔
      ¬ (n.HasLetters ∧ before.head? = some '-') := by
  obtain ⟨sign, digits, unit, hdigits, hunit⟩ := n
  cases hunit with
  | bare =>
      obtain ⟨c, front, heq, hc⟩ := hdigits.reverse_eq_cons
      simp [magnitude, HasLetters, heq, endsOperand_of_end (.inr (.inr hc))]
  | percent => simp [magnitude, HasLetters, endsOperand_of_end]
  | letters hletters hne =>
      have hunit : unit ≠ ['%'] := by
        rintro rfl
        exact absurd (hletters '%' List.mem_cons_self) (by decide)
      obtain ⟨first, behind, hstart, hfirst⟩ := hdigits.eq_cons
      obtain ⟨last, front, hend, hlast⟩ := exists_reverse_eq_cons hletters hne
      have hword : ∀ c ∈ (digits ++ unit).reverse, isDimensionChar c = true := by
        intro c hc
        rcases List.mem_append.mp (List.mem_reverse.mp hc) with hc | hc
        · exact isDimensionChar_of_isDigit_or_point (hdigits.isDigit_or_point c hc)
        · exact isDimensionChar_of_isAlpha (hletters c hc)
      rw [magnitude, endsOperand_word hword (by simp [hstart, hfirst]) (by simp [hend, hlast])
        (by simp [hne]) hbefore]
      simp [HasLetters, hne, hunit]

theorem isFlat_text : IsFlat n.text := by
  refine isFlat_append.mpr ⟨?_, n.isInert_magnitude.isFlat⟩
  rw [signText]
  cases n.sign with
  | none => exact List.forall_mem_nil _
  | some sign => exact List.forall_mem_singleton.mpr (by cases sign <;> decide)

theorem isApart_append (rest : Text) : IsApart (n.text ++ rest) := by
  obtain ⟨_ | sign, digits, unit, hdigits, hunit⟩ := n
  · obtain ⟨c, behind, rfl, hc⟩ := hdigits.eq_cons
    rintro _ ⟨⟩
    simp only [List.mem_cons, List.not_mem_nil, or_false]
    constructor
    · rintro (rfl | rfl | rfl) <;> exact absurd hc (by decide)
    · rintro (rfl | rfl | rfl | rfl) <;> exact absurd hc (by decide)
  · exact isApart_sign sign _

end Number

namespace Operand

variable (x : Operand)

theorem isApart_append (rest : Text) : IsApart (x.text ++ rest) := by
  cases x with
  | number n => exact n.isApart_append rest
  | reference name _ =>
      rintro _ ⟨⟩
      decide

theorem insideGroup_text (rest : Text) :
    insideGroup 0 (x.text ++ rest) = x.text ++ insideGroup 0 rest := by
  cases x with
  | number n => exact insideGroup_append n.isFlat_text 0 rest
  | reference name hname =>
      have hopen : insideGroup 0 ("var(".toList ++ (name ++ ')' :: rest)) =
          "var(".toList ++ insideGroup 1 (name ++ ')' :: rest) := rfl
      have hclose : insideGroup 1 (')' :: rest) = ')' :: insideGroup 0 rest := rfl
      simp only [text, List.append_assoc, List.singleton_append]
      rw [hopen, insideGroup_append hname, hclose]

theorem hasAmbiguousCalc_text (hrest : IsApart rest) :
    hasAmbiguousCalc (x.text ++ rest) = hasAmbiguousCalc rest := by
  cases x with
  | number n => exact hasAmbiguousCalc_append n.isFlat_text hrest
  | reference name hname =>
      have hopen : hasAmbiguousCalc ("var(".toList ++ (name ++ ')' :: rest)) =
          hasAmbiguousCalc (name ++ ')' :: rest) := rfl
      have hclose : hasAmbiguousCalc (')' :: rest) = hasAmbiguousCalc rest := rfl
      have happart : IsApart (')' :: rest) := by
        rintro _ ⟨⟩
        decide
      simp only [text, List.append_assoc, List.singleton_append]
      rw [hopen, hasAmbiguousCalc_append hname happart, hclose]

theorem ambiguousFrom_text (hbefore : endsOperand before = false) (hrest : IsApart rest) :
    ambiguousFrom before (x.text ++ rest) = ambiguousFrom (x.behind before) rest := by
  cases x with
  | number n =>
      have hsign : ambiguousFrom before (n.signText ++ (n.magnitude ++ rest)) =
          ambiguousFrom (n.signText.reverse ++ before) (n.magnitude ++ rest) := by
        rw [Number.signText]
        cases n.sign with
        | none => rfl
        | some sign => exact (ambiguousFrom_sign sign).trans (by rw [hbefore]; rfl)
      rw [text, Number.text, List.append_assoc, hsign,
        ambiguousFrom_append n.isInert_magnitude hrest]
      rfl
  | reference name hname =>
      have hclose : afterGroup 0 (')' :: rest) = rest := rfl
      simp only [text, List.append_assoc, List.singleton_append]
      rw [ambiguousFrom_var, afterGroup_append hname, hclose]
      rfl

theorem endsOperand_behind (hbefore : ∀ c ∈ before.head?, isDimensionChar c = false) :
    endsOperand (x.behind before) = true ↔ ¬ x.IsHidden before.head? := by
  cases x with
  | number n =>
      have hfront : (n.signText.reverse ++ before).head? = (n.sign.map Sign.char).or before.head? := by
        rw [Number.signText]
        cases n.sign <;> rfl
      have hfree : ∀ c ∈ (n.signText.reverse ++ before).head?, isDimensionChar c = false := by
        rw [hfront]
        cases n.sign with
        | none => exact hbefore
        | some sign =>
            rintro _ ⟨⟩
            cases sign <;> rfl
      rw [behind, n.endsOperand_magnitude hfree, hfront]
      rfl
  | reference name hname => exact iff_of_true rfl not_false

end Operand

/-! ## Sums -/

namespace Operator

variable (o : Operator)

theorem isFlat_text : IsFlat o.text := by
  refine isFlat_append.mpr ⟨(isInert_spaces o.left).isFlat, isFlat_cons.mpr ⟨?_, ?_⟩⟩
  · cases o.sign <;> decide
  · exact (isInert_spaces o.right).isFlat

theorem isApart_append (rest : Text) : IsApart (o.text ++ rest) := by
  obtain ⟨_ | left, sign, right⟩ := o
  · exact isApart_sign sign _
  · rintro _ ⟨⟩
    decide

theorem reverse_text_append (before : Text) :
    o.text.reverse ++ before =
      List.replicate o.right ' ' ++ o.sign.char :: (List.replicate o.left ' ' ++ before) := by
  simp [text]

theorem head?_reverse_append (before : Text) :
    (o.text.reverse ++ before).head? = some o.front := by
  rw [reverse_text_append]
  obtain ⟨left, sign, _ | right⟩ := o <;> rfl

/-- No operand ends at an operator and the spaces behind it. -/
theorem not_isDimensionChar_front : isDimensionChar o.front = false := by
  rw [front]
  split
  · cases o.sign <;> rfl
  · rfl

theorem endsOperand_reverse_append (before : Text) :
    endsOperand (o.text.reverse ++ before) = false := by
  have hsign (before : Text) : endsOperand (o.sign.char :: before) = false := by
    cases o.sign <;> rfl
  rw [reverse_text_append, Bool.eq_false_iff, Ne, endsOperand_spaces, hsign]
  exact fun h => Bool.false_ne_true h.2

/-- An operator is noticed if an operand ends right in front of it. -/
theorem ambiguousFrom_text (hrest : IsApart rest) :
    ambiguousFrom before (o.text ++ rest) = true ↔
      (o.left = 0 ∧ endsOperand before = true) ∨
        ambiguousFrom (o.text.reverse ++ before) rest = true := by
  have hsign : IsApart (o.sign.char :: (List.replicate o.right ' ' ++ rest)) :=
    isApart_sign o.sign _
  simp only [text, List.append_assoc, List.cons_append]
  rw [ambiguousFrom_append (isInert_spaces o.left) hsign, ambiguousFrom_sign,
    ambiguousFrom_append (isInert_spaces o.right) hrest, Bool.or_eq_true, List.reverse_replicate,
    endsOperand_spaces]
  simp

end Operator

namespace CalcSum

variable (s : CalcSum)

theorem insideGroup_text (rest : Text) :
    insideGroup 0 (s.text ++ rest) = s.text ++ insideGroup 0 rest := by
  induction s generalizing rest with
  | operand x => exact x.insideGroup_text rest
  | add lead o x ih =>
      simp only [text, List.append_assoc]
      rw [ih, insideGroup_append o.isFlat_text, x.insideGroup_text]

theorem hasAmbiguousCalc_text (hrest : IsApart rest) :
    hasAmbiguousCalc (s.text ++ rest) = hasAmbiguousCalc rest := by
  induction s generalizing rest with
  | operand x => exact x.hasAmbiguousCalc_text hrest
  | add lead o x ih =>
      simp only [text, List.append_assoc]
      rw [ih (o.isApart_append _), hasAmbiguousCalc_append o.isFlat_text (x.isApart_append rest),
        x.hasAmbiguousCalc_text hrest]

theorem endsOperand_behind : endsOperand s.behind = true ↔ ¬ s.EndsHidden := by
  cases s with
  | operand x => exact x.endsOperand_behind fun c hc => nomatch hc
  | add lead o x =>
      rw [behind, x.endsOperand_behind ?_, o.head?_reverse_append]
      · rfl
      · rw [o.head?_reverse_append]
        rintro _ ⟨⟩
        exact o.not_isDimensionChar_front

/-- The search notices the operators of a sum and goes on behind it. -/
theorem ambiguousFrom_text (hrest : IsApart rest) :
    ambiguousFrom [] (s.text ++ rest) = true ↔ s.IsNoticed ∨ ambiguousFrom s.behind rest = true := by
  -- The sum in front of an operator is read first, and what it leaves behind decides whether the
  -- operator is noticed.
  induction s generalizing rest with
  | operand x =>
      rw [text, x.ambiguousFrom_text rfl hrest]
      exact (or_iff_right id).symm
  | add lead o x ih =>
      simp only [text, List.append_assoc]
      rw [ih (o.isApart_append _), o.ambiguousFrom_text (x.isApart_append rest),
        x.ambiguousFrom_text (o.endsOperand_reverse_append _) hrest, endsOperand_behind]
      exact or_assoc.symm

end CalcSum

/-- A sum is taken for ambiguous exactly if some operator in it has no space on its left, unless the
operand there is hidden; then that operator lacks a space. -/
theorem hasAmbiguousCalc_sum (s : CalcSum) :
    (hasAmbiguousCalc s.value = true ↔ s.IsNoticed) ∧ (s.IsNoticed → s.LacksSpace) := by
  refine ⟨?_, CalcSum.lacksSpace_of_isNoticed⟩
  have happart : IsApart [')'] := by
    rintro _ ⟨⟩
    decide
  have hnil : IsApart [] := fun _ hc => (Option.not_mem_none _ hc).elim
  have hopen : hasAmbiguousCalc ("calc(".toList ++ (s.text ++ [')'])) =
      (ambiguousFrom [] (insideGroup 0 (s.text ++ [')'])) ||
        hasAmbiguousCalc (s.text ++ [')'])) := rfl
  have hinside : insideGroup 0 (s.text ++ [')']) = s.text ++ [] := s.insideGroup_text [')']
  have hend : hasAmbiguousCalc [')'] = false := rfl
  rw [CalcSum.value, List.append_assoc, hopen, hinside, s.hasAmbiguousCalc_text happart, hend,
    Bool.or_false, s.ambiguousFrom_text hnil]
  have hstop : ambiguousFrom s.behind [] = false := by rw [ambiguousFrom]
  rw [hstop]
  exact or_iff_left Bool.false_ne_true

/-- The operand `2px` is hidden behind the operator in front of it. -/
example : hasAmbiguousCalc "calc(1px -2px-3px)".toList = false := by decide +kernel

/-- The spaces on the right are not looked at. -/
theorem hasAmbiguousCalc_gluedRight :
    let px : Operand := .number
      { sign := none, digits := ['1'], unit := ['p', 'x'],
        isDecimal_digits := .whole (by simp) (by simp),
        isMeasure_unit := .letters (by simp) (by simp) }
    let s : CalcSum := .add (.operand px) { left := 1, sign := .minus, right := 0 } px
    s.value = "calc(1px -1px)".toList ∧ s.LacksSpace ∧ hasAmbiguousCalc s.value = false := by
  intro px s
  exact ⟨by decide, .inr (.inr rfl), by decide +kernel⟩

end UtilityCss.ClassName
