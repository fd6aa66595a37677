import UtilityCss.Proofs.Selector.Cursor

/-!
# Compound selectors by their grammar

A compound selector is written as classes, ids, attribute selectors and pseudo-classes. Whatever
they hold in strings, brackets and escapes, the scanner goes on to the end of the compound, and
stops there: at the end of the text, a comma, a combinator or a pseudo-element.
-/

namespace UtilityCss.Selector

open Text Css

variable {s t : Text}

inductive Bracket where
  | square
  | round

def Bracket.holds : Bracket → Char → Bool
  | square, c => c != '\x5c' && !isQuote c && c != '[' && c != ']'
  | round, c => c != '\x5c' && !isQuote c && !isBracket c

/-- Text between brackets. Arguments hold attribute selectors and parentheses in turn; an attribute
selector has brackets in strings and escapes only. -/
inductive Enclosed : Bracket → Text → Prop where
  | nil {b : Bracket} : Enclosed b []
  | char {b : Bracket} {c : Char} {t : Text} (hc : b.holds c = true) (ht : Enclosed b t) :
      Enclosed b (c :: t)
  | escape {b : Bracket} {c : Char} {t : Text} (ht : Enclosed b t) : Enclosed b ('\x5c' :: c :: t)
  | string {b : Bracket} {quote : Char} {body t : Text} (hquote : isQuote quote = true)
      (hbody : StringBody quote body) (ht : Enclosed b t) :
      Enclosed b (quote :: (body ++ quote :: t))
  | square {inner t : Text} (hinner : Enclosed .square inner) (ht : Enclosed .round t) :
      Enclosed .round ('[' :: (inner ++ ']' :: t))
  | round {inner t : Text} (hinner : Enclosed .round inner) (ht : Enclosed .round t) :
      Enclosed .round ('(' :: (inner ++ ')' :: t))

namespace Enclosed

theorem of_cons {b : Bracket} {c : Char} (h : Enclosed b (c :: t)) (hc : isOrdinary c = true) :
    Enclosed b t := by
  obtain ⟨hbare, -, hround, -, hsquare, -⟩ := isOrdinary_iff.mp hc
  obtain ⟨hescape, hquote⟩ := ne_of_isBare hbare
  cases h with
  | char _ ht => exact ht
  | escape => exact absurd rfl hescape
  | string hstring =>
      rw [hquote] at hstring
      cases hstring
  | square => exact absurd rfl hsquare
  | round => exact absurd rfl hround

/-- The digits of an escape may be followed by more of them. -/
theorem afterEscape {b : Bracket} (h : Enclosed b t) (c : Char) :
    Enclosed b (afterEscape (c :: t)) := by
  rw [Selector.afterEscape]
  split
  · exact of_dropEscapeEnd (fun _ _ hc ht => ht.of_cons hc) h 5
  · exact h

/-- The bracket behind the text of an attribute selector closes it. -/
theorem afterAttribute_eq (h : Enclosed .square s) (t : Text) :
    afterAttribute (s ++ ']' :: t) = t := by
  have hends : EndsEscape (']' :: t) := fun c hc => by
    cases hc
    decide
  induction hlength : s.length using Nat.strongRecOn generalizing s with
  | ind n ih =>
      cases h with
      | nil =>
          rw [List.nil_append, afterAttribute, if_neg (by decide), if_neg (by decide), if_pos rfl]
      | @char _ c s hc hs =>
          simp only [Bracket.holds, Bool.and_eq_true, bne_iff_ne, Bool.not_eq_true', and_assoc] at hc
          obtain ⟨hescape, hquote, -, hclose⟩ := hc
          rw [List.cons_append, afterAttribute, if_neg hescape,
            if_neg (by rw [hquote]; exact Bool.false_ne_true), if_neg hclose]
          exact ih s.length (by rw [← hlength]; exact Nat.lt_succ_self _) hs rfl
      | @escape _ c s hs =>
          have hshort := (afterEscape_suffix (c :: s)).length_le
          rw [List.cons_append, afterAttribute, if_pos rfl,
            hends.afterEscape_append (List.cons_ne_nil c s)]
          simp only [List.length_cons] at hshort hlength
          exact ih _ (by omega) (hs.afterEscape c) rfl
      | @string _ quote body s hquote hbody hs =>
          have hne := ne_backslash_of_isQuote hquote
          rw [List.cons_append, afterAttribute, if_neg hne, if_pos hquote, List.append_assoc,
            List.cons_append, afterString_body hbody hquote]
          simp only [List.length_cons, List.length_append] at hlength
          exact ih _ (by omega) hs rfl

/-- A parenthesis that is open in front of arguments is so behind them. -/
theorem afterParentheses_eq (h : Enclosed .round s) {depth : Nat} (hdepth : 1 ≤ depth) (t : Text) :
    afterParentheses depth (s ++ ')' :: t) = afterParentheses depth (')' :: t) := by
  induction hlength : s.length using Nat.strongRecOn generalizing s depth t with
  | ind n ih =>
      have hends : EndsEscape (')' :: t) := fun c hc => by
        cases hc
        decide
      cases h with
      | nil => rfl
      | @char _ c s hc hs =>
          simp only [Bracket.holds, isBracket, Bool.and_eq_true, bne_iff_ne, Bool.not_eq_true',
            Bool.or_eq_false_iff, beq_eq_false_iff_ne, and_assoc] at hc
          obtain ⟨hescape, hquote, hopen, hclose, hsquare, -⟩ := hc
          rw [List.cons_append, afterParentheses, if_neg hescape,
            if_neg (by rw [hquote]; exact Bool.false_ne_true), if_neg hsquare, if_neg hopen,
            if_neg hclose]
          exact ih s.length (by rw [← hlength]; exact Nat.lt_succ_self _) hs hdepth t rfl
      | @escape _ c s hs =>
          have hshort := (afterEscape_suffix (c :: s)).length_le
          rw [List.cons_append, afterParentheses, if_pos rfl,
            hends.afterEscape_append (List.cons_ne_nil c s)]
          simp only [List.length_cons] at hshort hlength
          exact ih _ (by omega) (hs.afterEscape c) hdepth t rfl
      | @string _ quote body s hquote hbody hs =>
          have hne := ne_backslash_of_isQuote hquote
          rw [List.cons_append, afterParentheses, if_neg hne, if_pos hquote, List.append_assoc,
            List.cons_append, afterString_body hbody hquote]
          simp only [List.length_cons, List.length_append] at hlength
          exact ih _ (by omega) hs hdepth t rfl
      | @square inner s hinner hs =>
          rw [List.cons_append, afterParentheses, if_neg (by decide), if_neg (by decide), if_pos rfl,
            List.append_assoc, List.cons_append, hinner.afterAttribute_eq]
          simp only [List.length_cons, List.length_append] at hlength
          exact ih _ (by omega) hs hdepth t rfl
      | @round inner s hinner hs =>
          simp only [List.length_cons, List.length_append] at hlength
          rw [List.cons_append, afterParentheses, if_neg (by decide), if_neg (by decide),
            if_neg (by decide), if_pos rfl, List.append_assoc, List.cons_append,
            ih _ (by omega) hinner (by omega) _ rfl, afterParentheses, if_neg (by decide),
            if_neg (by decide), if_neg (by decide), if_neg (by decide), if_pos rfl,
            if_neg (by omega), Nat.add_sub_cancel]
          exact ih _ (by omega) hs hdepth t rfl

/-- The parenthesis behind arguments closes them. -/
theorem afterParentheses_closing (h : Enclosed .round s) (t : Text) :
    afterParentheses 1 (s ++ ')' :: t) = t := by
  rw [h.afterParentheses_eq (Nat.le_refl 1), afterParentheses, if_neg (by decide),
    if_neg (by decide), if_neg (by decide), if_neg (by decide), if_pos rfl,
    if_pos (Nat.le_refl 1)]

end Enclosed

inductive IsSimple : Text → Prop where
  | named {c : Char} {name : Text} (hc : c = '.' ∨ c = '#') (hname : IsIdentifier name) :
      IsSimple (c :: name)
  | bracketed {body : Text} (hbody : Enclosed .square body) : IsSimple ('[' :: (body ++ [']']))
  | pseudoClass {name : Text} (hname : NamesPseudoClass name) : IsSimple (':' :: name)
  | call {name arguments : Text} (hname : NamesPseudoClass name)
      (harguments : Enclosed .round arguments) :
      IsSimple (':' :: (name ++ '(' :: (arguments ++ [')'])))

theorem isSimple_classSelector (name : Text) : IsSimple (classSelector name) :=
  .named (Or.inl rfl) (isIdentifier_escape name)

inductive EndsCompound : Text → Prop where
  | nil : EndsCompound []
  | comma {t : Text} : EndsCompound (',' :: t)
  | combinator {c : Char} {t : Text} (hc : isCombinator c = true) : EndsCompound (c :: t)
  | pseudoElement {t : Text} : EndsCompound (':' :: ':' :: t)
  | singleColon {name t : Text} (hname : toLowerAscii name ∈ singleColonElements)
      (ht : continuesName t = false) : EndsCompound (':' :: (name ++ t))

def Separates (t : Text) : Prop :=
  continuesName t = false ∧ t.head? ≠ some '('

theorem EndsCompound.separates (h : EndsCompound t) : Separates t := by
  have hne : ∀ (c : Char) (u : Text), c ≠ '(' → (c :: u).head? ≠ some '(' := fun c u hc heq =>
    hc (Option.some.inj heq)
  cases h with
  | nil => exact ⟨rfl, nofun⟩
  | comma => exact ⟨rfl, hne _ _ (by decide)⟩
  | @combinator c t hc =>
      obtain ⟨hname, hescape, -, -, -, hround⟩ :=
        isSeparator_iff.mp (isSeparator_of_isCombinator (Or.inl hc))
      exact ⟨by simp [continuesName, hname, hescape], hne _ _ hround⟩
  | pseudoElement => exact ⟨rfl, hne _ _ (by decide)⟩
  | singleColon => exact ⟨rfl, hne _ _ (by decide)⟩

theorem IsSimple.separates_append (h : IsSimple s) (t : Text) : Separates (s ++ t) := by
  have hchar : ∀ (c : Char) (u : Text), c = '.' ∨ c = '#' ∨ c = '[' ∨ c = ':' →
      Separates (c :: u) := by
    rintro c u (rfl | rfl | rfl | rfl) <;>
      exact ⟨rfl, fun heq => absurd (Option.some.inj heq) (by decide)⟩
  cases h with
  | named hc => exact hchar _ _ (hc.imp_right Or.inl)
  | bracketed => exact hchar _ _ (by simp)
  | pseudoClass => exact hchar _ _ (by simp)
  | call => exact hchar _ _ (by simp)

/-- A simple selector is read as a whole where nothing goes on behind it. -/
theorem IsSimple.afterSimple?_append (h : IsSimple s) (ht : Separates t) :
    afterSimple? (s ++ t) = some t := by
  cases h with
  | @named c name hc hname =>
      have hcombinator : ¬ isCombinator c = true := by rcases hc with rfl | rfl <;> decide
      rw [List.cons_append, afterSimple?, if_neg hcombinator, if_pos hc,
        hname.afterIdentifier_append, afterIdentifier_eq_self ht.1]
  | @bracketed body hbody =>
      rw [List.cons_append, afterSimple?, if_neg (by decide), if_neg (by decide), if_pos rfl,
        List.append_assoc, List.singleton_append, hbody.afterAttribute_eq]
  | pseudoClass hname => rw [afterSimple?_bare hname ht.1, if_neg ht.2]
  | call hname harguments => exact afterSimple?_call hname harguments.afterParentheses_closing t

theorem isIdentifierChar_of_toLower {c : Char} (h : isIdentifierChar c.toLower = true) :
    isIdentifierChar c = true := by
  by_cases hupper : c.val ≥ 'A'.val ∧ c.val ≤ 'Z'.val
  · have hletter : c.isAlpha = true := Bool.or_eq_true_iff.mpr (Or.inl (decide_eq_true hupper))
    have halphanum : c.isAlphanum = true := Bool.or_eq_true_iff.mpr (Or.inl hletter)
    rw [isIdentifierChar, halphanum]
    rfl
  · have hsame : c.toLower = c := dif_neg hupper
    rwa [hsame] at h

theorem isIdentifier_of_element {name : Text} (h : toLowerAscii name ∈ singleColonElements) :
    IsIdentifier name :=
  .of_chars fun _ hc => isIdentifierChar_of_toLower
    (isIdentifierChar_of_isPlain (isPlain_toLower_of_element h hc))

theorem EndsCompound.afterSimple?_eq (h : EndsCompound t) : afterSimple? t = none := by
  cases h with
  | nil => rfl
  | comma => rfl
  | combinator hc => exact if_pos hc
  | pseudoElement =>
      rw [afterSimple?_colon, afterPseudoClass?]
      exact if_pos rfl
  | @singleColon name t hname ht =>
      have hend : afterIdentifier (name ++ t) = t := by
        rw [(isIdentifier_of_element hname).afterIdentifier_append, afterIdentifier_eq_self ht]
      rw [afterSimple?_colon, afterPseudoClass?]
      simp only [hend, upTo_self_append, if_pos hname, ite_self]

/-! ## Compounds -/

theorem separates_flatten {qs : List Text} (hqs : ∀ q ∈ qs, IsSimple q) (ht : Separates t) :
    Separates (qs.flatten ++ t) := by
  cases qs with
  | nil => exact ht
  | cons q qs =>
      rw [List.flatten_cons, List.append_assoc]
      exact (hqs q List.mem_cons_self).separates_append _

theorem afterCompound_append {qs : List Text} (hqs : ∀ q ∈ qs, IsSimple q) (ht : EndsCompound t) :
    afterCompound (qs.flatten ++ t) = t := by
  induction qs with
  | nil =>
      rw [List.flatten_nil, List.nil_append, afterCompound_eq, ht.afterSimple?_eq]
  | cons q qs ih =>
      obtain ⟨hq, hqs⟩ := List.forall_mem_cons.mp hqs
      rw [List.flatten_cons, List.append_assoc, afterCompound_eq,
        hq.afterSimple?_append (separates_flatten hqs ht.separates)]
      exact ih hqs

/-- A compound that begins with a class token ends behind its last simple selector, in a text as well
as by bytes at the dot of the token. -/
theorem compound_end (className : Text) {qs : List Text} (hqs : ∀ q ∈ qs, IsSimple q)
    {rest : Text} (hrest : EndsCompound rest) (before : Text) :
    let compound := classSelector className ++ qs.flatten
    afterCompound (compound ++ rest) = rest ∧
      (Cursor.ofPosition (before ++ (compound ++ rest)) (size before)).skipCompound.position =
        size (before ++ compound) := by
  intro compound
  have hall := afterCompound_append
    (List.forall_mem_cons.mpr ⟨isSimple_classSelector className, hqs⟩) hrest
  rw [List.flatten_cons] at hall
  have hposition := Cursor.skipCompound_position before (compound ++ rest)
  rw [hall] at hposition
  simp only [size_append] at hposition ⊢
  exact ⟨hall, by omega⟩

/-- Brackets in a string, a string in brackets in parentheses, an escaped parenthesis, a pseudo-class
that begins as a pseudo-element does, and this pseudo-element. -/
theorem compound_end_nested :
    let qs : List Text :=
      [classSelector ['1'],
        ['[', 't', '=', '\x22', ']', '(', '>', '\x5c', '\x22', '\x22', ']'],
        [':', 'n', 'o', 't', '(', '(', 'a', '>', '[', 'u', '=', '\x27', ')', '\x27', ']', ')',
          '\x5c', ')', ')'],
        [':', 'f', 'i', 'r', 's', 't', '-', 'x']]
    let rest : Text := [':', 'F', 'I', 'R', 'S', 'T', '-', 'l', 'i', 'n', 'e', '>', 'b']
    let t := ['é', ' '] ++ (classSelector ['x', ':', 'y'] ++ qs.flatten ++ rest)
    (∀ q ∈ qs, IsSimple q) ∧ EndsCompound rest ∧
      t = ("é .x\x5c:y.\x5c31 [t=\x22](>\x5c\x22\x22]:not((a>[u=\x27)\x27])\x5c))".toList ++
        ":first-x:FIRST-line>b".toList) ∧
      (Cursor.ofPosition t 3).skipCompound.position = 51 := by
  intro qs rest t
  have hnames (name : Text) (hne : name ≠ []) (hchars : name.all isIdentifierChar = true)
      (hname : toLowerAscii name ∉ singleColonElements) : NamesPseudoClass name :=
    ⟨hne, .of_chars (List.all_eq_true.mp hchars), hname⟩
  have hvalue : Enclosed .square ['t', '=', '\x22', ']', '(', '>', '\x5c', '\x22', '\x22'] := by
    have hbody : StringBody '\x22' [']', '(', '>', '\x5c', '\x22'] :=
      .char (by decide) (by decide) (.char (by decide) (by decide)
        (.char (by decide) (by decide) (.escape .nil)))
    exact .char (by decide) (.char (by decide) (.string (by decide) hbody .nil))
  have harguments : Enclosed .round
      ['(', 'a', '>', '[', 'u', '=', '\x27', ')', '\x27', ']', ')', '\x5c', ')'] := by
    have hstring : Enclosed .square ['u', '=', '\x27', ')', '\x27'] :=
      .char (by decide) (.char (by decide)
        (.string (by decide) (.char (by decide) (by decide) .nil) .nil))
    have hinner : Enclosed .round ['a', '>', '[', 'u', '=', '\x27', ')', '\x27', ']'] :=
      .char (by decide) (.char (by decide) (.square hstring .nil))
    exact .round hinner (.escape .nil)
  have hqs : ∀ q ∈ qs, IsSimple q := by
    refine List.forall_mem_cons.mpr ⟨isSimple_classSelector _, List.forall_mem_cons.mpr
      ⟨.bracketed hvalue, List.forall_mem_cons.mpr ⟨?_, List.forall_mem_singleton.mpr ?_⟩⟩⟩
    · exact .call (hnames ['n', 'o', 't'] (by decide) (by decide) (by decide)) harguments
    · exact .pseudoClass (hnames _ (by decide) (by decide) (by decide))
  have hrest : EndsCompound rest :=
    @EndsCompound.singleColon ['F', 'I', 'R', 'S', 'T', '-', 'l', 'i', 'n', 'e'] ['>', 'b']
      (by decide) (by decide)
  refine ⟨hqs, hrest, by decide +kernel, ?_⟩
  obtain ⟨-, hposition⟩ := compound_end ['x', ':', 'y'] hqs hrest ['é', ' ']
  exact hposition.trans (by decide +kernel)

end UtilityCss.Selector
