import UtilityCss.Proofs.Selector.Units
import UtilityCss.Proofs.Stylesheet.Written

/-!
# Selector lists

A selector list is written as its members with a comma, and any blanks around it, between them. To
cut it at its commas gives the members back, as a comma inside brackets belongs to a member.
-/

namespace UtilityCss.Selector

open Text Css Stylesheet

def isBracket (c : Char) : Bool :=
  c == '(' || c == ')' || c == '[' || c == ']'

def isOrdinary (c : Char) : Bool :=
  isBare c && c != ';' && !isBracket c

/-- Text whose brackets nest: parentheses hold nested text, square brackets ordinary characters.
Outside of them there is a comma only where `commas` lets it be. -/
inductive Nested : Bool → Text → Prop where
  | nil {commas : Bool} : Nested commas []
  | char {commas : Bool} {c : Char} {t : Text} (hc : isOrdinary c = true)
      (hcomma : c = ',' → commas = true) (ht : Nested commas t) : Nested commas (c :: t)
  | round {commas : Bool} {inner t : Text} (hinner : Nested true inner)
      (ht : Nested commas t) : Nested commas ('(' :: (inner ++ ')' :: t))
  | square {commas : Bool} {inner t : Text} (hinner : ∀ c ∈ inner, isOrdinary c = true)
      (ht : Nested commas t) : Nested commas ('[' :: (inner ++ ']' :: t))

structure IsMember (m : Text) : Prop where
  nonempty : m ≠ []
  trimmed : trim m = m
  nested : Nested false m
  uncommented : ¬ ['/', '*'] <:+: m
  atFree : m.head? ≠ some '@'

inductive IsSelectorList : List Text → Text → Prop where
  | single {m : Text} (hm : IsMember m) : IsSelectorList [m] m
  | cons {m before behind s : Text} {ms : List Text} (hm : IsMember m) (hbefore : IsBlanks before)
      (hbehind : IsBlanks behind) (hrest : IsSelectorList ms s) :
      IsSelectorList (m :: ms) (m ++ before ++ ',' :: (behind ++ s))

variable {c : Char} {t : Text}

theorem isOrdinary_iff : isOrdinary c = true ↔
    isBare c = true ∧ c ≠ ';' ∧ c ≠ '(' ∧ c ≠ ')' ∧ c ≠ '[' ∧ c ≠ ']' := by
  simp only [isOrdinary, isBracket, Bool.and_eq_true, Bool.not_eq_true', Bool.or_eq_false_iff,
    beq_eq_false_iff_ne, bne_iff_ne, and_assoc]

theorem ne_of_isBare (h : isBare c = true) : c ≠ '\x5c' ∧ isQuote c = false := by
  simp only [isBare, Bool.not_eq_true', Bool.or_eq_false_iff, beq_eq_false_iff_ne] at h
  exact ⟨h.1.2, h.2⟩

theorem bracketDepth?_ordinary (h : isOrdinary c = true) (depth : Nat) (t : Text) :
    bracketDepth? depth (c :: t) = bracketDepth? depth t := by
  obtain ⟨-, -, hround, hround', hsquare, hsquare'⟩ := isOrdinary_iff.mp h
  rw [bracketDepth?, if_neg (not_or.mpr ⟨hround, hsquare⟩),
    if_neg (not_or.mpr ⟨hround', hsquare'⟩)]

theorem bracketDepth?_ordinary_append {s : Text} (h : ∀ c ∈ s, isOrdinary c = true) (depth : Nat)
    (t : Text) : bracketDepth? depth (s ++ t) = bracketDepth? depth t := by
  induction s with
  | nil => rfl
  | cons c s ih =>
      rw [List.cons_append, bracketDepth?_ordinary (h c List.mem_cons_self)]
      exact ih fun x hx => h x (List.mem_cons_of_mem c hx)

theorem afterUnit_ordinary (h : isOrdinary c = true) (t : Text) : afterUnit (c :: t) = t := by
  obtain ⟨hbare, -, hround, -, hsquare, -⟩ := isOrdinary_iff.mp h
  obtain ⟨hescape, hquote⟩ := ne_of_isBare hbare
  rw [afterUnit, if_neg hescape, if_neg (by rw [hquote]; exact Bool.false_ne_true),
    if_neg hsquare, if_neg hround]

theorem isOrdinary_of_isBlanks {ws : Text} (h : IsBlanks ws) (hc : c ∈ ws) :
    isOrdinary c = true ∧ c ≠ ',' := by
  refine ⟨isOrdinary_iff.mpr ⟨h.isBare c hc, ?_⟩, h.ne hc (by decide)⟩
  exact ⟨h.ne hc (by decide), h.ne hc (by decide), h.ne hc (by decide), h.ne hc (by decide),
    h.ne hc (by decide)⟩

theorem afterAttribute_ordinary {inner : Text} (h : ∀ c ∈ inner, isOrdinary c = true) (t : Text) :
    afterAttribute (inner ++ ']' :: t) = t := by
  induction inner with
  | nil =>
      rw [List.nil_append, afterAttribute, if_neg (by decide), if_neg (by decide), if_pos rfl]
  | cons c inner ih =>
      obtain ⟨hbare, -, -, -, -, hsquare⟩ := isOrdinary_iff.mp (h c List.mem_cons_self)
      obtain ⟨hescape, hquote⟩ := ne_of_isBare hbare
      rw [List.cons_append, afterAttribute, if_neg hescape,
        if_neg (by rw [hquote]; exact Bool.false_ne_true), if_neg hsquare]
      exact ih fun x hx => h x (List.mem_cons_of_mem c hx)

namespace Nested

variable {commas : Bool} {s : Text}

theorem append (h : Nested commas s) (h' : Nested commas t) : Nested commas (s ++ t) := by
  induction h with
  | nil => exact h'
  | char hc hcomma _ ih => exact .char hc hcomma (ih h')
  | round hinner _ _ ih =>
      rw [List.cons_append, List.append_assoc, List.cons_append]
      exact .round hinner (ih h')
  | square hinner _ ih =>
      rw [List.cons_append, List.append_assoc, List.cons_append]
      exact .square hinner (ih h')

theorem of_ordinary (h : ∀ c ∈ s, isOrdinary c = true ∧ c ≠ ',') : Nested commas s := by
  induction s with
  | nil => exact .nil
  | cons c s ih =>
      obtain ⟨hc, hcomma⟩ := h c List.mem_cons_self
      exact .char hc (fun heq => absurd heq hcomma) (ih fun x hx => h x (List.mem_cons_of_mem c hx))

theorem mono {commas' : Bool} (h : Nested commas s) (hcommas : commas = true → commas' = true) :
    Nested commas' s := by
  induction h with
  | nil => exact .nil
  | char hc hcomma _ ih => exact .char hc (fun heq => hcommas (hcomma heq)) (ih hcommas)
  | round hinner _ _ ih => exact .round hinner (ih hcommas)
  | square hinner _ ih => exact .square hinner (ih hcommas)

/-- All characters are bare, and none is a semicolon. -/
theorem isBare (h : Nested commas s) : ∀ c ∈ s, isBare c = true ∧ c ≠ ';' := by
  have hordinary : ∀ c, isOrdinary c = true → Css.isBare c = true ∧ c ≠ ';' := fun c hc =>
    ⟨(isOrdinary_iff.mp hc).1, (isOrdinary_iff.mp hc).2.1⟩
  induction h with
  | nil => exact fun c hc => absurd hc List.not_mem_nil
  | char hc _ _ ih => exact List.forall_mem_cons.mpr ⟨hordinary _ hc, ih⟩
  | round _ _ ihinner ih =>
      refine List.forall_mem_cons.mpr ⟨by decide, List.forall_mem_append.mpr ⟨ihinner, ?_⟩⟩
      exact List.forall_mem_cons.mpr ⟨by decide, ih⟩
  | square hinner _ ih =>
      refine List.forall_mem_cons.mpr ⟨by decide, List.forall_mem_append.mpr ⟨?_, ?_⟩⟩
      · exact fun c hc => hordinary c (hinner c hc)
      · exact List.forall_mem_cons.mpr ⟨by decide, ih⟩

theorem bracketDepth?_append (h : Nested commas s) (depth : Nat) (t : Text) :
    bracketDepth? depth (s ++ t) = bracketDepth? depth t := by
  have hopen : ∀ c, c = '(' ∨ c = '[' → ∀ depth t,
      bracketDepth? depth (c :: t) = bracketDepth? (depth + 1) t := by
    intro c hc depth t
    rw [bracketDepth?, if_pos hc]
  have hclose : ∀ c, c = ')' ∨ c = ']' → ∀ depth t,
      bracketDepth? (depth + 1) (c :: t) = bracketDepth? depth t := by
    intro c hc depth t
    have hleft : ¬ (c = '(' ∨ c = '[') := by rcases hc with rfl | rfl <;> decide
    rw [bracketDepth?, if_neg hleft, if_pos hc, if_neg (Nat.succ_ne_zero depth),
      Nat.add_sub_cancel]
  induction h generalizing depth t with
  | nil => rfl
  | char hc _ _ ih => rw [List.cons_append, bracketDepth?_ordinary hc, ih]
  | round _ _ ihinner ih =>
      rw [List.cons_append, hopen _ (Or.inl rfl), List.append_assoc, ihinner, List.cons_append,
        hclose _ (Or.inl rfl), ih]
  | square hinner _ ih =>
      rw [List.cons_append, hopen _ (Or.inr rfl), List.append_assoc,
        bracketDepth?_ordinary_append hinner, List.cons_append,
        hclose _ (Or.inr rfl), ih]

/-- A parenthesis that is open in front of nested text is so behind it. -/
theorem afterParentheses_append (h : Nested commas s) {depth : Nat} (hdepth : 1 ≤ depth)
    (t : Text) : afterParentheses depth (s ++ t) = afterParentheses depth t := by
  induction h generalizing depth t with
  | nil => rfl
  | @char commas c s hc _ _ ih =>
      obtain ⟨hbare, -, hround, hround', hsquare, -⟩ := isOrdinary_iff.mp hc
      obtain ⟨hescape, hquote⟩ := ne_of_isBare hbare
      rw [List.cons_append, afterParentheses, if_neg hescape,
        if_neg (by rw [hquote]; exact Bool.false_ne_true), if_neg hsquare, if_neg hround,
        if_neg hround', ih hdepth]
  | round _ _ ihinner ih =>
      rw [List.cons_append, afterParentheses, if_neg (by decide), if_neg (by decide),
        if_neg (by decide), if_pos rfl, List.append_assoc, ihinner (by omega), List.cons_append,
        afterParentheses, if_neg (by decide), if_neg (by decide), if_neg (by decide),
        if_neg (by decide), if_pos rfl, if_neg (by omega), Nat.add_sub_cancel, ih hdepth]
  | square hinner _ ih =>
      rw [List.cons_append, afterParentheses, if_neg (by decide), if_neg (by decide), if_pos rfl,
        List.append_assoc, List.cons_append, afterAttribute_ordinary hinner, ih hdepth]

/-- The parenthesis behind nested text closes the one in front of it. -/
theorem afterParentheses_closing (h : Nested commas s) (t : Text) :
    afterParentheses 1 (s ++ ')' :: t) = t := by
  rw [h.afterParentheses_append (Nat.le_refl 1), afterParentheses, if_neg (by decide),
    if_neg (by decide), if_neg (by decide), if_neg (by decide), if_pos rfl,
    if_pos (Nat.le_refl 1)]

end Nested

/-! ## Cutting at commas -/

/-- Unit by unit, nested text is passed. -/
theorem Nested.leads {commas : Bool} {s : Text} (h : Nested commas s) (t : Text) :
    Leads commas (s ++ t) t := by
  induction h with
  | nil => exact .refl
  | char hc hcomma _ ih => exact .unit hcomma (by rw [afterUnit_ordinary hc]; exact ih)
  | @round commas inner s hinner _ _ ih =>
      have hgroup : '(' :: (inner ++ ')' :: s) ++ t = '(' :: (inner ++ ')' :: (s ++ t)) := by simp
      have hunit : afterUnit ('(' :: (inner ++ ')' :: (s ++ t))) = s ++ t :=
        hinner.afterParentheses_closing (s ++ t)
      rw [hgroup]
      exact .unit (fun heq => absurd heq (by decide)) (by rw [hunit]; exact ih)
  | @square commas inner s hinner _ ih =>
      have hunit : afterUnit ('[' :: (inner ++ ']' :: s) ++ t) = s ++ t := by
        rw [List.cons_append, afterUnit, if_neg (by decide), if_neg (by decide), if_pos rfl,
          List.append_assoc, List.cons_append, afterAttribute_ordinary hinner]
      rw [List.cons_append] at hunit ⊢
      exact .unit (fun heq => absurd heq (by decide)) (by rw [hunit]; exact ih)

theorem nested_of_isBlanks {ws : Text} (h : IsBlanks ws) : Nested false ws :=
  .of_ordinary fun _ hc => isOrdinary_of_isBlanks h hc

theorem members_blanks_append {ws : Text} (h : IsBlanks ws) (t : Text) :
    members (ws ++ t) = members t := by
  obtain ⟨part, parts, heq⟩ := exists_splitAtCommas t
  rw [members, ((nested_of_isBlanks h).leads t).splitAtCommas_append, members, heq, appendHead,
    List.map_cons, List.map_cons, trim_blanks_append h.isBlank]

/-- A part gives a member if it is not blank. -/
theorem members_of_single (h : splitAtCommas t = [t]) :
    members t = if trim t = [] then [] else [trim t] := by
  rw [members, h, List.map_singleton]
  split
  next hnil => rw [hnil]; rfl
  next hne => exact List.filter_cons_of_pos (by simp [hne])

theorem members_of_comma {part rest : Text} (h : splitAtCommas t = part :: splitAtCommas rest) :
    members t = if trim part = [] then members rest else trim part :: members rest := by
  rw [members, h, List.map_cons]
  split
  next hnil => rw [hnil, members]; rfl
  next hne => exact List.filter_cons_of_pos (by simp [hne])

/-- To cut a list at its commas gives its members. -/
theorem members_eq {ms : List Text} {s : Text} (h : IsSelectorList ms s) : members s = ms := by
  induction h with
  | @single m hm =>
      have hend := hm.nested.leads []
      rw [List.append_nil] at hend
      rw [members_of_single hend.splitAtCommas_eq, hm.trimmed, if_neg hm.nonempty]
  | @cons m before behind s ms hm hbefore hbehind hrest ih =>
      have hfirst : Nested false (m ++ before) := hm.nested.append (nested_of_isBlanks hbefore)
      rw [members_of_comma (hfirst.leads _).splitAtCommas_comma,
        trim_append_blanks hbefore.isBlank, hm.trimmed, if_neg hm.nonempty,
        members_blanks_append hbehind, ih]

end UtilityCss.Selector
