import UtilityCss.Proofs.Selector.Simple
import UtilityCss.Selector.Members

/-!
# From unit to unit

All scanners of selectors go through a text by the same units, so that they meet at the same
places: identifiers and compounds end between two units, class tokens are found there, and a list
is cut there at its commas.
-/

namespace UtilityCss.Selector

open Text Css

/-- By whole units one comes from the first text to the second; over a comma only where `commas`
lets it be. -/
inductive Leads (commas : Bool) : Text → Text → Prop where
  | refl {t : Text} : Leads commas t t
  | unit {c : Char} {t rest : Text} (hc : c = ',' → commas = true)
      (h : Leads commas (afterUnit (c :: t)) rest) : Leads commas (c :: t) rest

variable {commas commas' : Bool} {s t u rest rest' : Text}

namespace Leads

theorem trans (h : Leads commas t rest) (h' : Leads commas rest rest') : Leads commas t rest' := by
  induction h with
  | refl => exact h'
  | unit hc _ ih => exact .unit hc (ih h')

theorem suffix (h : Leads commas t rest) : rest <:+ t := by
  induction h with
  | refl => exact List.suffix_refl _
  | @unit c t rest _ _ ih => exact (ih.trans (afterUnit_suffix c t)).trans (List.suffix_cons c t)

theorem eq_of_length (h : Leads commas t rest) (hlength : t.length ≤ rest.length) : t = rest :=
  (h.suffix.eq_of_length_le hlength).symm

/-- Of two places that are come to, one lies on the way to the other. -/
theorem linear (h : Leads commas t rest) (h' : Leads commas' t rest') :
    Leads commas' t rest ∧ Leads commas' rest rest' ∨
      Leads commas t rest' ∧ Leads commas rest' rest := by
  induction h with
  | refl => exact Or.inl ⟨.refl, h'⟩
  | unit hc h ih =>
      cases h' with
      | refl => exact Or.inr ⟨.refl, .unit hc h⟩
      | unit hc' h' =>
          rcases ih h' with ⟨hto, hfrom⟩ | ⟨hto, hfrom⟩
          · exact Or.inl ⟨.unit hc' hto, hfrom⟩
          · exact Or.inr ⟨.unit hc hto, hfrom⟩

/-- The place further behind is come to from the other one. -/
theorem between (h : Leads commas t rest) (h' : Leads commas' t rest')
    (hlength : rest'.length ≤ rest.length) : Leads commas' t rest ∧ Leads commas' rest rest' := by
  rcases h.linear h' with hbefore | ⟨hto, hfrom⟩
  · exact hbefore
  · obtain rfl := hfrom.eq_of_length hlength
    exact ⟨h', .refl⟩

theorem of_cons {c : Char} (h : Leads commas (c :: t) rest) (hlength : rest.length ≤ t.length) :
    (c = ',' → commas = true) ∧ Leads commas (afterUnit (c :: t)) rest := by
  cases h with
  | refl =>
      rw [List.length_cons] at hlength
      omega
  | unit hc h => exact ⟨hc, h⟩

/-- The first of the units ends in front of the place that they lead to. -/
theorem exists_unit {c : Char} (h : Leads commas (c :: (s ++ t)) t) :
    (c = ',' → commas = true) ∧ ∃ front left, s = front ++ left ∧
      afterUnit (c :: (s ++ t)) = left ++ t ∧ Leads commas (left ++ t) t := by
  obtain ⟨hc, h⟩ := h.of_cons (by simp)
  obtain ⟨left, hleft⟩ := h.suffix
  obtain ⟨front, hfront⟩ := afterUnit_suffix c (s ++ t)
  rw [← hleft] at hfront h
  rw [← List.append_assoc] at hfront
  exact ⟨hc, front, left, (List.append_cancel_right hfront).symm, hleft.symm, h⟩

theorem of_char {c : Char} (hc : c ≠ ',') (hunit : afterUnit (c :: t) = t) :
    Leads commas (c :: t) t :=
  .unit (fun heq => absurd heq hc) (by rw [hunit]; exact .refl)

end Leads

theorem isIdentifierChar_spec {c : Char} : isIdentifierChar c = true →
    c ≠ '\x5c' ∧ isQuote c = false ∧ c ≠ '[' ∧ c ≠ '(' ∧ c ≠ ',' ∧ c ≠ '.' := by
  intro h
  have hne : ∀ d, isIdentifierChar d = false → c ≠ d := by
    rintro d hd rfl
    rw [h] at hd
    cases hd
  refine ⟨hne _ (by decide), ?_, hne _ (by decide), hne _ (by decide), hne _ (by decide),
    hne _ (by decide)⟩
  simp [isQuote, hne '\x22' (by decide), hne '\x27' (by decide)]

theorem afterUnit_identifierChar {c : Char} (h : isIdentifierChar c = true) (t : Text) :
    afterUnit (c :: t) = t := by
  obtain ⟨hescape, hquote, hsquare, hround, -⟩ := isIdentifierChar_spec h
  rw [afterUnit, if_neg hescape, if_neg (by rw [hquote]; exact Bool.false_ne_true),
    if_neg hsquare, if_neg hround]

theorem leads_afterIdentifier (t : Text) : Leads commas t (afterIdentifier t) := by
  fun_induction afterIdentifier t with
  | case1 => exact .refl
  | case2 rest ih => exact .unit (fun heq => absurd heq (by decide)) ih
  | case3 c rest _ hc ih =>
      have hcomma := (isIdentifierChar_spec hc).2.2.2.2.1
      exact (Leads.of_char hcomma (afterUnit_identifierChar hc rest)).trans ih
  | case4 => exact .refl

theorem IsIdentifier.leads (h : IsIdentifier s) (t : Text) : Leads commas (s ++ t) t := by
  have hescape : ∀ {u rest : Text}, afterEscape u = rest → Leads commas rest t →
      Leads commas ('\x5c' :: u) t := by
    rintro u _ rfl hrest
    exact .unit (fun heq => absurd heq (by decide)) hrest
  induction h with
  | nil => exact .refl
  | char hc _ ih =>
      have hcomma := (isIdentifierChar_spec hc).2.2.2.2.1
      exact (Leads.of_char hcomma (afterUnit_identifierChar hc _)).trans ih
  | escape hc _ ih =>
      rw [List.cons_append, List.cons_append]
      refine hescape ?_ ih
      rw [afterEscape, hc, if_neg Bool.false_ne_true]
  | code hne hdigits hlength hc _ ih =>
      rw [List.cons_append, List.append_assoc]
      exact hescape (afterEscape_code hne hdigits hlength hc _) ih

/-- An escaped name is passed whatever stands behind it. -/
theorem leads_escape (name t : Text) : Leads commas (escape name ++ t) t :=
  (isIdentifier_escape name).leads t

theorem leads_afterParentheses (t : Text) : Leads commas ('(' :: t) (afterParentheses 1 t) :=
  .unit (fun heq => absurd heq (by decide)) .refl

theorem leads_afterPseudoClass? (h : afterPseudoClass? t = some rest) : Leads commas t rest := by
  unfold afterPseudoClass? at h
  split at h
  · cases h
  · simp only at h
    split at h
    · cases h
    · split at h
      next hround =>
        obtain ⟨inner, hinner⟩ := List.head?_eq_some_iff.mp hround
        rw [hinner, afterParentheses_open, Option.some.injEq] at h
        refine (leads_afterIdentifier t).trans ?_
        rw [hinner, ← h]
        exact leads_afterParentheses inner
      next =>
        rw [← Option.some.inj h]
        exact leads_afterIdentifier t

theorem leads_afterSimple? (h : afterSimple? t = some rest) : Leads commas t rest := by
  have hname : ∀ c (tail : Text), isIdentifierChar c = true ∨ c = '.' ∨ c = '#' ∨ c = ':' ∨
      c = '*' ∨ c = '&' → Leads commas (c :: tail) tail := by
    rintro c tail (hc | rfl | rfl | rfl | rfl | rfl)
    · exact .of_char (isIdentifierChar_spec hc).2.2.2.2.1 (afterUnit_identifierChar hc tail)
    all_goals exact .of_char (by decide) rfl
  revert h
  fun_cases afterSimple? t with
  | case1 => exact fun h => absurd h (Option.some_ne_none _).symm
  | case2 => exact fun h => absurd h (Option.some_ne_none _).symm
  | case3 c tail _ hc =>
      intro h
      rw [← Option.some.inj h]
      refine (hname c tail ?_).trans (leads_afterIdentifier tail)
      rcases hc with rfl | rfl <;> simp
  | case4 tail =>
      intro h
      rw [← Option.some.inj h]
      exact .unit (fun heq => absurd heq (by decide)) .refl
  | case5 tail =>
      intro h
      exact (hname ':' tail (by simp)).trans (leads_afterPseudoClass? h)
  | case6 tail =>
      intro h
      rw [← Option.some.inj h]
      exact .unit (fun heq => absurd heq (by decide)) .refl
  | case7 c tail _ _ _ _ _ hc =>
      intro h
      rw [← Option.some.inj h]
      refine hname c tail ?_
      rcases hc with rfl | rfl <;> simp
  | case8 c tail _ _ _ _ _ _ hc =>
      intro h
      rw [← Option.some.inj h]
      exact (hname c tail (Or.inl hc)).trans (leads_afterIdentifier tail)
  | case9 => exact fun h => absurd h (Option.some_ne_none _).symm

theorem leads_afterCompound (t : Text) : Leads commas t (afterCompound t) := by
  fun_induction simples t with
  | case1 t rest h ih =>
      rw [afterCompound_eq, h]
      exact (leads_afterSimple? h).trans ih
  | case2 t h =>
      rw [afterCompound_eq, h]
      exact .refl

theorem findClassToken_afterIdentifier (escaped t : Text) :
    findClassToken escaped (afterIdentifier t) = findClassToken escaped t := by
  fun_induction afterIdentifier t with
  | case1 => rfl
  | case2 rest ih =>
      rw [ih, findClassToken.eq_def escaped ('\x5c' :: rest)]
      simp [afterUnit]
  | case3 c rest _ hc ih =>
      obtain ⟨-, -, -, -, -, hdot⟩ := isIdentifierChar_spec hc
      rw [ih, findClassToken.eq_def escaped (c :: rest)]
      simp only [if_neg hdot, afterUnit_identifierChar hc]
  | case4 => rfl

/-- Unit by unit one comes to the token that is found. -/
theorem leads_findClassToken {escaped token : Text} (h : findClassToken escaped t = some token) :
    Leads true t token ∧ ∃ behind, token = '.' :: behind ∧ startsWithName escaped behind = true := by
  fun_induction findClassToken escaped t with
  | case1 => cases h
  | case2 rest hname =>
      rw [← Option.some.inj h]
      exact ⟨.refl, rest, rfl, hname⟩
  | case3 rest _ ih =>
      have hdot : Leads true ('.' :: rest) rest := .of_char (by decide) rfl
      exact ⟨hdot.trans ((leads_afterIdentifier rest).trans (ih h).1), (ih h).2⟩
  | case4 c rest hdot ih => exact ⟨.unit (fun _ => rfl) (ih h).1, (ih h).2⟩

/-- The token of a class is in a text if unit by unit one comes to a dot with the name behind it. -/
theorem hasClassToken_iff_leads {escaped : Text} : hasClassToken escaped t = true ↔
    ∃ behind, Leads true t ('.' :: behind) ∧ startsWithName escaped behind = true := by
  unfold hasClassToken
  constructor
  · intro h
    obtain ⟨token, htoken⟩ := Option.isSome_iff_exists.mp h
    obtain ⟨hleads, behind, rfl, hname⟩ := leads_findClassToken htoken
    exact ⟨behind, hleads, hname⟩
  · rintro ⟨behind, hleads, hname⟩
    generalize hplace : '.' :: behind = place at hleads
    induction hleads with
    | refl =>
        rw [← hplace, findClassToken, if_pos rfl, if_pos hname]
        rfl
    | @unit c t rest _ _ ih =>
        rw [findClassToken]
        split
        next hdot =>
          split
          next => rfl
          next =>
            rw [findClassToken_afterIdentifier]
            rw [hdot] at ih
            exact ih hplace
        next => exact ih hplace

/-! ## Cutting at commas -/

theorem splitAtCommas_unit {c : Char} {u t : Text} (hc : c ≠ ',')
    (hunit : afterUnit (c :: u ++ t) = t) :
    splitAtCommas (c :: u ++ t) = appendHead (c :: u) (splitAtCommas t) := by
  have hupTo := upTo_self_append (c :: u) t
  rw [List.cons_append] at hunit hupTo ⊢
  rw [splitAtCommas, if_neg hc]
  simp only [hunit, hupTo]

theorem appendHead_append (s s' : Text) (parts : List Text) :
    appendHead s (appendHead s' parts) = appendHead (s ++ s') parts := by
  cases parts with
  | nil => rfl
  | cons part parts => rw [appendHead, appendHead, appendHead, List.append_assoc]

theorem exists_splitAtCommas (t : Text) : ∃ part parts, splitAtCommas t = part :: parts := by
  cases t with
  | nil => exact ⟨[], [], by rw [splitAtCommas]⟩
  | cons c rest =>
      rw [splitAtCommas]
      by_cases hc : c = ','
      · exact ⟨[], splitAtCommas rest, if_pos hc⟩
      · rw [if_neg hc]
        simp only
        cases splitAtCommas (afterUnit (c :: rest)) with
        | nil => exact ⟨_, [], rfl⟩
        | cons part parts => exact ⟨_, parts, rfl⟩

/-- What is passed without a comma belongs to the first part. -/
theorem Leads.splitAtCommas_append (h : Leads false (s ++ t) t) :
    splitAtCommas (s ++ t) = appendHead s (splitAtCommas t) := by
  induction hlength : s.length using Nat.strongRecOn generalizing s with
  | ind n ih =>
      cases s with
      | nil =>
          obtain ⟨part, parts, heq⟩ := exists_splitAtCommas t
          rw [List.nil_append, heq]
          rfl
      | cons c s =>
          obtain ⟨hc, front, left, rfl, hunit, hleft⟩ := Leads.exists_unit h
          have hcomma : c ≠ ',' := fun heq => absurd (hc heq) Bool.false_ne_true
          have hshort : left.length < n := by
            rw [← hlength, List.length_cons, List.length_append]
            omega
          rw [List.append_assoc, ← List.cons_append] at hunit
          rw [List.cons_append, List.append_assoc, ← List.cons_append,
            splitAtCommas_unit hcomma hunit, ih _ hshort hleft rfl, appendHead_append,
            List.cons_append]

theorem Leads.splitAtCommas_eq (h : Leads false t []) : splitAtCommas t = [t] := by
  rw [← List.append_nil t] at h
  have hsplit := h.splitAtCommas_append
  rwa [List.append_nil, splitAtCommas, appendHead, List.append_nil] at hsplit

theorem Leads.splitAtCommas_comma (h : Leads false (s ++ ',' :: t) (',' :: t)) :
    splitAtCommas (s ++ ',' :: t) = s :: splitAtCommas t := by
  rw [h.splitAtCommas_append, splitAtCommas, if_pos rfl, appendHead, List.append_nil]

/-- A text is one part, or its first part ends at a comma. -/
theorem splitAtCommas_cases (t : Text) :
    Leads false t [] ∧ splitAtCommas t = [t] ∨
      ∃ part rest, t = part ++ ',' :: rest ∧ Leads false t (',' :: rest) ∧
        splitAtCommas t = part :: splitAtCommas rest := by
  have hreach : Leads false t [] ∨ ∃ rest, Leads false t (',' :: rest) := by
    fun_induction splitAtCommas t with
    | case1 => exact Or.inl .refl
    | case2 rest => exact Or.inr ⟨rest, .refl⟩
    | case3 c rest hc left ih =>
        have hstep : ∀ {place}, Leads false left place → Leads false (c :: rest) place :=
          .unit fun heq => absurd heq hc
        exact ih.imp hstep fun ⟨behind, hbehind⟩ => ⟨behind, hstep hbehind⟩
  rcases hreach with hend | ⟨rest, hcomma⟩
  · exact Or.inl ⟨hend, hend.splitAtCommas_eq⟩
  · obtain ⟨part, rfl⟩ := hcomma.suffix
    exact Or.inr ⟨part, rest, rfl, hcomma, hcomma.splitAtCommas_comma⟩

end UtilityCss.Selector
