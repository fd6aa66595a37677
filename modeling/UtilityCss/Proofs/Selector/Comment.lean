import UtilityCss.Proofs.Ruleset.Mentioned

/-!
# Comments in selectors

The functions on selectors know no comments: what a comment says is read as part of the selector. It
makes no difference where the comment says nothing that they look for, and stands where a space may
stand.
-/

namespace UtilityCss.Selector

open Text Css

variable {name s t u front back body ws escaped : Text} {c x : Char}

/-- An escaped name has a character that needs it behind a backslash. -/
theorem getLast?_of_escape (hplain : isPlain x = false) (hspace : x ≠ ' ') (hescape : x ≠ '\x5c')
    (h : s ++ [x] <+: escape name) : s.getLast? = some '\x5c' := by
  obtain ⟨behind, hbehind⟩ := h
  rw [List.append_assoc, List.singleton_append] at hbehind
  refine escape_pieces (R := fun t _ => ∀ s behind, s ++ x :: behind = t →
    s.getLast? = some '\x5c') ?_ ?_ ?_ name s behind hbehind
  · intro s behind h
    exact absurd h (by simp)
  · intro t t' _ _ ht ht' s behind h
    rcases List.append_eq_append_iff.mp h with ⟨v, rfl, hv⟩ | ⟨v, rfl, hv⟩
    · cases v with
      | nil =>
          have hend := ht' [] behind hv
          cases hend
      | cons y v =>
          obtain ⟨rfl, -⟩ := List.cons.inj hv
          exact ht s v rfl
    · rw [List.getLast?_append, ht' v behind hv.symm, Option.some_or]
  · intro startsIdentifier c s behind h
    have hmem : x ∈ escapeChar startsIdentifier c := by
      rw [← h]
      exact List.mem_append_right _ List.mem_cons_self
    rcases escapeChar_cases startsIdentifier c with ⟨heq, hhex⟩ | ⟨heq, hown, -⟩ | ⟨heq, -, -⟩
    · rw [heq, hexEscape, List.mem_append, List.mem_cons, List.mem_singleton] at hmem
      rcases hmem with (rfl | hdigit) | rfl
      · exact absurd rfl hescape
      · rw [(isPlain_of_mem_toDigits hhex).2 x hdigit] at hplain
        cases hplain
      · exact absurd rfl hspace
    · rw [heq, List.mem_singleton] at hmem
      rw [hmem, hown] at hplain
      cases hplain
    · rw [heq] at h
      cases s with
      | nil =>
          obtain ⟨rfl, -⟩ := List.cons.inj h
          exact absurd rfl hescape
      | cons y s =>
          cases s with
          | nil =>
              obtain ⟨rfl, -⟩ := List.cons.inj h
              rfl
          | cons z s => simp at h

/-- A character that neither belongs to the name nor continues it ends the text that is searched. -/
theorem startsWithName_append (hends : continuesName (x :: t) = false)
    (hname : ¬ s ++ [x] <+: escaped) :
    startsWithName escaped (s ++ x :: t) = startsWithName escaped s := by
  rw [Bool.eq_iff_iff, startsWithName_iff, startsWithName_iff]
  constructor
  · rintro ⟨rest, heq, hrest⟩
    rcases List.append_eq_append_iff.mp heq with ⟨v, hv, hrest'⟩ | ⟨v, rfl, hv⟩
    · cases v with
      | nil => exact ⟨[], by rw [hv, List.append_nil, List.append_nil], rfl⟩
      | cons y v =>
          obtain ⟨rfl, -⟩ := List.cons.inj hrest'
          exact absurd ⟨v, by rw [hv]; simp⟩ hname
    · refine ⟨v, rfl, ?_⟩
      cases v with
      | nil => rfl
      | cons y v =>
          rw [hv] at hrest
          exact hrest
  · rintro ⟨rest, rfl, hrest⟩
    refine ⟨rest ++ x :: t, List.append_assoc .., ?_⟩
    cases rest with
    | nil => exact hends
    | cons y rest => exact hrest

/-- A token is looked for at each unit. -/
theorem hasClassToken_cons (escaped : Text) (c : Char) (t : Text) :
    hasClassToken escaped (c :: t) =
      (c == '.' && startsWithName escaped t || hasClassToken escaped (afterUnit (c :: t))) := by
  unfold hasClassToken
  rw [findClassToken]
  by_cases hdot : c = '.'
  · subst hdot
    rw [if_pos rfl]
    by_cases hname : startsWithName escaped t = true
    · rw [if_pos hname, hname]
      rfl
    · rw [if_neg hname, findClassToken_afterIdentifier, Bool.eq_false_iff.mpr hname]
      rfl
  · rw [if_neg hdot, beq_eq_false_iff_ne.mpr hdot]
    rfl

theorem hasClassToken_nil (escaped : Text) : hasClassToken escaped [] = false := by
  rw [hasClassToken, findClassToken]
  rfl

theorem hasClassToken_ordinary (hc : isOrdinary c = true) (hdot : c ≠ '.') (t : Text) :
    hasClassToken escaped (c :: t) = hasClassToken escaped t := by
  rw [hasClassToken_cons, afterUnit_ordinary hc, beq_eq_false_iff_ne.mpr hdot, Bool.false_and,
    Bool.false_or]

theorem hasClassToken_blanks_append (hws : ∀ c ∈ ws, isBlank c = true) (t : Text) :
    hasClassToken escaped (ws ++ t) = hasClassToken escaped t := by
  induction ws with
  | nil => rfl
  | cons c ws ih =>
      have hc : isBlank c = true := hws c List.mem_cons_self
      have hdot : c ≠ '.' := by
        rintro rfl
        exact absurd hc (by decide)
      rw [List.cons_append, hasClassToken_ordinary (isOrdinary_of_isBlank hc) hdot,
        ih fun x hx => hws x (List.mem_cons_of_mem c hx)]

theorem hasClassToken_blanks (hws : ∀ c ∈ ws, isBlank c = true) :
    hasClassToken escaped ws = false := by
  rw [← List.append_nil ws, hasClassToken_blanks_append hws, hasClassToken_nil]

/-- Text without a token that is passed in front of a character is passed in the search too. -/
theorem hasClassToken_append_of_leads {commas : Bool}
    (hleads : Leads commas (s ++ x :: t) (x :: t)) (hescape : EndsEscape (x :: t))
    (hends : continuesName (x :: t) = false) (hname : ∀ p, p <:+ s → ¬ p ++ [x] <+: escaped)
    (hfree : hasClassToken escaped s = false) :
    hasClassToken escaped (s ++ x :: t) = hasClassToken escaped (x :: t) := by
  induction s using unitInduction with
  | nil => rfl
  | stops c s hstops ih =>
      obtain ⟨-, hrest⟩ := hleads.of_unit_append (by simp)
      rw [hstops] at hrest
      rw [hasClassToken_cons, Bool.or_eq_false_iff] at hfree
      have hsuffix := (afterUnit_suffix c s).trans (List.suffix_cons c s)
      rw [List.cons_append, hasClassToken_cons,
        startsWithName_append hends (hname s (List.suffix_cons c s)), hfree.1, Bool.false_or,
        ← List.cons_append, hstops]
      exact ih hrest (fun p hp => hname p (hp.trans hsuffix)) hfree.2
  | passes c s hpasses =>
      obtain ⟨-, hrest⟩ := hleads.of_unit_append (by simp)
      have hshort := (hrest.suffix.trans (hpasses.suffix x t)).length_le
      rw [List.length_cons] at hshort
      omega
  | hex c s n hn =>
      rw [hasClassToken_cons, Bool.or_eq_false_iff] at hfree
      rw [List.cons_append, hasClassToken_cons,
        startsWithName_append hends (hname s (List.suffix_cons c s)), hfree.1, Bool.false_or,
        ← List.cons_append, hescape.afterUnit_eq hn]

/-! ## A comment and a space -/

/-- The comment says nothing that is looked for in a selector: its brackets nest, and it has no
attribute selector, no comma outside brackets and no token of the class. -/
structure IsQuiet (className body : Text) : Prop where
  nested : Nested false body
  squareFree : '[' ∉ body
  tokenFree : hasClassToken (escape className) body = false

/-- Behind the text a space is nothing but a space: it belongs neither to an escape nor to the name
of the class, and blanks in front of it continue no name. -/
structure IsGap (className front : Text) : Prop where
  escapeFree : front.getLast? ≠ some '\x5c'
  nameFree : ∀ p, p ++ [' '] <+: classSelector className → ¬ p <:+ front
  blanks : ∀ c ∈ front, isBlank c = true → isIdentifierChar c = false

theorem IsGap.of_suffix (h : IsGap name front) (hs : s <:+ front) : IsGap name s where
  escapeFree := getLast?_ne_of_suffix hs h.escapeFree
  nameFree p hp hsuffix := h.nameFree p hp (hsuffix.trans hs)
  blanks c hc := h.blanks c (hs.subset hc)

namespace IsQuiet

theorem nested_commentOf (h : IsQuiet name body) : Nested false (commentOf body) := by
  have hopen : Nested false ['/', '*'] := .char rfl nofun (.char rfl nofun .nil)
  have hclose : Nested false ['*', '/'] := .char rfl nofun (.char rfl nofun .nil)
  exact (hopen.append h.nested).append hclose

theorem isIdle (h : IsQuiet name body) : IsIdle (commentOf body) := by
  refine ⟨h.nested_commentOf.mono nofun, fun hin => ?_⟩
  have hbody : '[' ∈ body := by simpa [commentOf] using hin
  exact h.squareFree hbody

theorem endsEscape (body t : Text) : EndsEscape (commentOf body ++ t) := by
  rintro c ⟨⟩
  decide

theorem hasClassToken_append (h : IsQuiet name body) (t : Text) :
    hasClassToken (escape name) (commentOf body ++ t) = hasClassToken (escape name) t := by
  have htext : commentOf body ++ t = '/' :: '*' :: (body ++ '*' :: '/' :: t) := by simp [commentOf]
  have hends : continuesName ('*' :: '/' :: t) = false := rfl
  have hescape : EndsEscape ('*' :: '/' :: t) := by
    rintro c ⟨⟩
    decide
  have hname : ∀ p, p <:+ body → ¬ p ++ ['*'] <+: escape name := by
    intro p hp hprefix
    have hlast := getLast?_of_escape (by decide) (by decide) (by decide) hprefix
    exact absurd (h.nested.isBare _ (hp.subset (List.mem_of_getLast? hlast))).1 (by decide)
  rw [htext, hasClassToken_ordinary (by decide) (by decide),
    hasClassToken_ordinary (by decide) (by decide),
    hasClassToken_append_of_leads (h.nested.leads _) hescape hends hname h.tokenFree,
    hasClassToken_ordinary (by decide) (by decide), hasClassToken_ordinary (by decide) (by decide)]

end IsQuiet

/-- Of a name that a comment or a space follows the same is found. -/
theorem IsGap.startsWithName_eq (h : IsGap name front) (hs : '.' :: s <:+ front) (t u : Text) :
    startsWithName (escape name) (s ++ '/' :: t) = startsWithName (escape name) (s ++ ' ' :: u) := by
  have hslash : ¬ s ++ ['/'] <+: escape name := fun hprefix =>
    getLast?_ne_of_suffix ((List.suffix_cons '.' s).trans hs) h.escapeFree
      (getLast?_of_escape (by decide) (by decide) (by decide) hprefix)
  have hspace : ¬ s ++ [' '] <+: escape name := fun hprefix =>
    h.nameFree ('.' :: s) ((List.prefix_cons_inj '.').mpr hprefix) hs
  rw [startsWithName_append rfl hslash, startsWithName_append rfl hspace]

/-- The token of a class is found with the comment if it is found with a space in its place. -/
theorem hasClassToken_comment (hquiet : IsQuiet name body) (hgap : IsGap name front) (back : Text) :
    hasClassToken (escape name) (front ++ (commentOf body ++ back)) =
      hasClassToken (escape name) (front ++ ' ' :: back) := by
  have hspace : hasClassToken (escape name) (' ' :: back) = hasClassToken (escape name) back :=
    hasClassToken_ordinary (by decide) (by decide) back
  -- What is found at the dot of a unit.
  have hdot {c : Char} {s : Text} (hgap : IsGap name (c :: s)) :
      (c == '.' && startsWithName (escape name) (s ++ (commentOf body ++ back))) =
        (c == '.' && startsWithName (escape name) (s ++ ' ' :: back)) := by
    by_cases hc : c = '.'
    · subst hc
      exact congrArg _ (hgap.startsWithName_eq (List.suffix_refl _) _ back)
    · rw [beq_eq_false_iff_ne.mpr hc, Bool.false_and, Bool.false_and]
  induction front using unitInduction with
  | nil => rw [List.nil_append, List.nil_append, hquiet.hasClassToken_append, hspace]
  | stops c s hstops ih =>
      have hrest := hgap.of_suffix ((afterUnit_suffix c s).trans (List.suffix_cons c s))
      rw [List.cons_append, List.cons_append, hasClassToken_cons, hasClassToken_cons, hdot hgap,
        ← List.cons_append, ← List.cons_append, hstops, hstops, ih hrest]
  | passes c s hpasses =>
      rw [List.cons_append, List.cons_append, hasClassToken_cons, hasClassToken_cons, hdot hgap,
        ← List.cons_append, ← List.cons_append, hpasses.alike hgap.escapeFree _ back hquiet.isIdle
          (List.cons_ne_nil _ _) (by simpa using IsQuiet.endsEscape body [])]
  | hex c s n hn =>
      rw [List.cons_append, List.cons_append, hasClassToken_cons, hasClassToken_cons, hdot hgap,
        ← List.cons_append, ← List.cons_append, (IsQuiet.endsEscape body back).afterUnit_eq hn, hn,
        dropHexEnd_space, hquiet.hasClassToken_append]

theorem startsWithName_append_blanks (hname : trimEnd (escape name) = escape name)
    (hws : ∀ c ∈ ws, isBlank c = true ∧ isIdentifierChar c = false) (s : Text) :
    startsWithName (escape name) (s ++ ws) = startsWithName (escape name) s := by
  rw [Bool.eq_iff_iff, startsWithName_iff, startsWithName_iff]
  constructor
  · rintro ⟨rest, heq, hrest⟩
    rcases List.append_eq_append_iff.mp heq with ⟨v, hv, rfl⟩ | ⟨v, rfl, rfl⟩
    · -- The name does not end in one of the blanks.
      have hends : escape name = [] ∨ EndsSolid (escape name) := by
        rw [← hname]
        exact trimEnd_eq_nil_or _
      have hnil : v = [] := by
        rcases hends with hnil | hsolid
        · exact (List.append_eq_nil_iff.mp (hv.symm.trans hnil)).2
        · rw [hv] at hsolid
          refine (endsSolid_of_append hsolid).resolve_right ?_
          rintro ⟨w, c, rfl, hc⟩
          have hblank := (hws c (by simp)).1
          rw [hc] at hblank
          cases hblank
      subst hnil
      exact ⟨[], by rw [hv, List.append_nil, List.append_nil], rfl⟩
    · refine ⟨v, rfl, ?_⟩
      cases v with
      | nil => rfl
      | cons c v => exact hrest
  · rintro ⟨rest, rfl, hrest⟩
    refine ⟨rest ++ ws, List.append_assoc .., ?_⟩
    match rest, ws with
    | c :: rest, _ => exact hrest
    | [], [] => rfl
    | [], c :: ws =>
        obtain ⟨hblank, hident⟩ := hws c List.mem_cons_self
        have hescape : c ≠ '\x5c' := by
          rintro rfl
          exact absurd hblank (by decide)
        simp [continuesName, hident, hescape]

/-- Blanks behind the text make no token that is not there without them. -/
theorem hasClassToken_append_blanks (hname : trimEnd (escape name) = escape name)
    (hws : ∀ c ∈ ws, isBlank c = true ∧ isIdentifierChar c = false) (t : Text) :
    hasClassToken (escape name) (t ++ ws) = hasClassToken (escape name) t := by
  have hblank : ∀ c ∈ ws, isBlank c = true := fun c hc => (hws c hc).1
  have hnone {rest : Text} (hrest : rest <:+ ws) : hasClassToken (escape name) rest = false :=
    hasClassToken_blanks fun c hc => hblank c (hrest.subset hc)
  have hstarts := startsWithName_append_blanks hname hws
  induction t using unitInduction with
  | nil => rw [List.nil_append, hnone (List.suffix_refl ws), hasClassToken_nil]
  | stops c s hstops ih =>
      rw [List.cons_append, hasClassToken_cons, hasClassToken_cons _ c s, hstarts,
        ← List.cons_append, hstops, ih]
  | passes c s hpasses =>
      have hbehind := afterUnit_suffix_of_nil hpasses.whole ws
      rw [List.cons_append, hasClassToken_cons, hasClassToken_cons, hstarts, ← List.cons_append,
        hnone hbehind, hpasses.whole, hasClassToken_nil]
  | hex c s n hn =>
      have hwhole : afterUnit (c :: s) = [] := by
        have hend := endsEscape_nil.afterUnit_eq hn
        rwa [List.append_nil] at hend
      have hbehind := afterUnit_suffix_of_nil hwhole ws
      rw [List.cons_append, hasClassToken_cons, hasClassToken_cons, hstarts, ← List.cons_append,
        hnone hbehind, hwhole, hasClassToken_nil]

/-! ## Parts and members -/

/-- A unit that is no comma and ends in front of the text belongs to the first part. -/
theorem splitAtCommas_of_unit {r : Text} (hc : c ≠ ',') (hr : r <:+ s)
    (hunit : afterUnit (c :: s ++ t) = r ++ t) :
    ∃ u, c :: s = u ++ r ∧ splitAtCommas (c :: s ++ t) = appendHead u (splitAtCommas (r ++ t)) := by
  obtain ⟨u, rfl⟩ := hr
  have htext : c :: (u ++ r) ++ t = c :: u ++ (r ++ t) := by simp
  refine ⟨c :: u, rfl, ?_⟩
  rw [htext] at hunit ⊢
  exact splitAtCommas_unit hc hunit

theorem splitAtCommas_comma (t : Text) : splitAtCommas (',' :: t) = [] :: splitAtCommas t := by
  rw [splitAtCommas, if_pos rfl]

theorem PassesOver.ne_comma (h : PassesOver afterUnit (c :: s)) : c ≠ ',' := by
  rintro rfl
  have hshort := (h.suffix ' ' []).length_le
  rw [show afterUnit (',' :: s ++ [' ']) = s ++ [' '] from rfl, List.length_append] at hshort
  simp at hshort

theorem ne_comma_of_hex {n : Nat}
    (hn : ∀ t, afterUnit (c :: s ++ t) = dropHexEnd (dropHexDigits n t)) : c ≠ ',' := by
  rintro rfl
  have hend := hn [' ']
  rw [dropHexEnd_space, show afterUnit (',' :: s ++ [' ']) = s ++ [' '] from rfl] at hend
  simp at hend

/-- The part of a list that a stretch of text belongs to. What is cut off in front of it does not
depend on the stretch. -/
def CutAround (front stretch stretch' t t' : Text) : Prop :=
  ∃ before p q after, p <:+ front ∧ (before = [] → p = front) ∧
    splitAtCommas t = before ++ (p ++ (stretch ++ q)) :: after ∧
    splitAtCommas t' = before ++ (p ++ (stretch' ++ q)) :: after

theorem CutAround.unit {k k' : Text} {c : Char} {s r t t' : Text} (hr : r <:+ s) (hc : c ≠ ',')
    (ht : afterUnit (c :: s ++ t) = r ++ t) (ht' : afterUnit (c :: s ++ t') = r ++ t')
    (h : CutAround r k k' (r ++ t) (r ++ t')) :
    CutAround (c :: s) k k' (c :: s ++ t) (c :: s ++ t') := by
  obtain ⟨before, p, q, after, hp, hfirst, hsplit, hsplit'⟩ := h
  obtain ⟨u, hu, hcut⟩ := splitAtCommas_of_unit hc hr ht
  obtain ⟨u', hu', hcut'⟩ := splitAtCommas_of_unit hc hr ht'
  obtain rfl := List.append_cancel_right (hu.symm.trans hu')
  cases before with
  | nil =>
      obtain rfl := hfirst rfl
      refine ⟨[], c :: s, q, after, List.suffix_refl _, fun _ => rfl, ?_, ?_⟩
      · rw [hcut, hsplit, List.nil_append, appendHead, hu, List.append_assoc]
        rfl
      · rw [hcut', hsplit', List.nil_append, appendHead, hu, List.append_assoc]
        rfl
  | cons part before =>
      refine ⟨(u ++ part) :: before, p, q, after, hp.trans (hr.trans (List.suffix_cons c s)),
        fun hnil => absurd hnil (List.cons_ne_nil _ _), ?_, ?_⟩
      · rw [hcut, hsplit]
        rfl
      · rw [hcut', hsplit']
        rfl

/-- The stretch may stand in the first part. -/
theorem CutAround.first {k k' q r t t' : Text}
    (h : splitAtCommas t = appendHead (front ++ (k ++ q)) (splitAtCommas r))
    (h' : splitAtCommas t' = appendHead (front ++ (k' ++ q)) (splitAtCommas r)) :
    CutAround front k k' t t' := by
  obtain ⟨part, parts, hr⟩ := exists_splitAtCommas r
  refine ⟨[], front, q ++ part, parts, List.suffix_refl _, fun _ => rfl, ?_, ?_⟩
  · rw [h, hr]
    simp [appendHead]
  · rw [h', hr]
    simp [appendHead]

theorem splitAtCommas_of_end {k q r : Text} (hc : c ≠ ',')
    (hunit : afterUnit (c :: s ++ (k ++ (q ++ r))) = r) :
    splitAtCommas (c :: s ++ (k ++ (q ++ r))) =
      appendHead (c :: s ++ (k ++ q)) (splitAtCommas r) := by
  have htext : c :: s ++ (k ++ (q ++ r)) = c :: (s ++ (k ++ q)) ++ r := by simp
  rw [htext] at hunit ⊢
  exact splitAtCommas_unit hc hunit

/-- A list with the comment in it is cut as it is with a space there. -/
theorem cutAround_comment (hquiet : IsQuiet name body) (hgap : IsGap name front) (back : Text) :
    CutAround front (commentOf body) [' '] (front ++ (commentOf body ++ back))
      (front ++ ([' '] ++ back)) := by
  have hcomment : splitAtCommas (commentOf body ++ back) =
      appendHead (commentOf body) (splitAtCommas back) :=
    (hquiet.nested_commentOf.leads back).splitAtCommas_append
  induction front using unitInduction with
  | nil =>
      refine .first (q := []) (r := back) ?_ ?_
      · rwa [List.append_nil]
      · exact splitAtCommas_unit (by decide) rfl
  | stops c s hstops ih =>
      have hr := afterUnit_suffix c s
      have hrest := ih (hgap.of_suffix (hr.trans (List.suffix_cons c s)))
      by_cases hc : c = ','
      · subst hc
        obtain ⟨before, p, q, after, hp, -, hsplit, hsplit'⟩ := hrest
        refine ⟨[] :: before, p, q, after, hp.trans (List.suffix_cons ',' s),
          fun hnil => absurd hnil (List.cons_ne_nil _ _), ?_, ?_⟩
        · rw [List.cons_append, splitAtCommas_comma]
          exact congrArg ([] :: ·) hsplit
        · rw [List.cons_append, splitAtCommas_comma]
          exact congrArg ([] :: ·) hsplit'
      · exact .unit hr hc (hstops _) (hstops _) hrest
  | passes c s hpasses =>
      -- The construct that is open ends at the same place behind both.
      have hunit := hpasses.alike hgap.escapeFree _ back hquiet.isIdle (List.cons_ne_nil _ _)
        (by simpa using IsQuiet.endsEscape body [])
      obtain ⟨q, hq⟩ := hpasses.suffix ' ' back
      generalize hrest : afterUnit (c :: s ++ ' ' :: back) = rest at hq hunit
      subst hq
      exact .first (splitAtCommas_of_end hpasses.ne_comma hunit)
        (splitAtCommas_of_end hpasses.ne_comma hrest)
  | hex c s n hn =>
      have hc := ne_comma_of_hex hn
      refine .first (q := []) (r := back) ?_ ?_
      · have hunit : afterUnit (c :: s ++ (commentOf body ++ back)) = commentOf body ++ back :=
          (IsQuiet.endsEscape body back).afterUnit_eq hn
        rw [splitAtCommas_unit hc hunit, hcomment, appendHead_append, List.append_nil]
      · have hunit : afterUnit (c :: s ++ ([' '] ++ ([] ++ back))) = back :=
          (hn _).trans (dropHexEnd_space n back)
        exact splitAtCommas_of_end hc hunit

theorem trimEnd_comment (front body t : Text) :
    trimEnd (front ++ (commentOf body ++ t)) = front ++ (commentOf body ++ trimEnd t) := by
  have htext (t : Text) : front ++ (commentOf body ++ t) =
      (front ++ '/' :: '*' :: body ++ ['*']) ++ '/' :: t := by simp [commentOf]
  rw [htext, htext, trimEnd_append_cons (c := '/') _ (by decide)]

/-- What is trimmed off behind a gap makes no difference to the search. -/
theorem hasClassToken_trimEnd_gap (hname : trimEnd (escape name) = escape name)
    (hgap : IsGap name front) (back : Text) :
    hasClassToken (escape name) (trimEnd (front ++ ' ' :: back)) =
      hasClassToken (escape name) (front ++ ' ' :: trimEnd back) := by
  have hwhole : trimEnd (front ++ ' ' :: back) = trimEnd (front ++ ' ' :: trimEnd back) := by
    rw [List.append_cons, ← trimEnd_append_trimEnd, ← List.append_cons]
  rw [hwhole]
  rcases trimEnd_eq_nil_or back with hnil | hsolid
  · obtain ⟨ws, hfront, hws⟩ := exists_trimEnd_append front
    have hboth : ∀ c ∈ ws ++ [' '], isBlank c = true ∧ isIdentifierChar c = false := by
      refine List.forall_mem_append.mpr ⟨fun c hc => ⟨hws c hc, ?_⟩, ?_⟩
      · exact hgap.blanks c (by rw [hfront]; exact List.mem_append_right _ hc) (hws c hc)
      · rw [List.forall_mem_singleton]
        decide
    have hsearch := hasClassToken_append_blanks hname hboth (trimEnd front)
    rw [← List.append_assoc, ← hfront] at hsearch
    rw [hnil, trimEnd_append_blanks (by simp [isBlank]), hsearch]
  · exact congrArg _ ((hsolid.append [' ']).append front).trimEnd_eq

theorem hasClassToken_trimEnd_trim (escaped : Text) (h : trim t ≠ []) :
    hasClassToken escaped (trimEnd t) = hasClassToken escaped (trim t) := by
  obtain ⟨ws, ht, hws⟩ := exists_append_trimStart t
  have hne : trimStart t ≠ [] := by
    intro hnil
    rw [trim, hnil] at h
    exact h rfl
  obtain ⟨c, rest, hrest, hc⟩ := (trimStart_eq_nil_or t).resolve_left hne
  have hall : trimEnd t = ws ++ trim t := by
    rw [trim, hrest, ← List.nil_append (c :: rest), trimEnd_append_cons [] hc, List.nil_append]
    rw [hrest] at ht
    rw [ht, trimEnd_append_cons ws hc]
  rw [hall, hasClassToken_blanks_append hws]

/-- A part with the comment in it and more is the same part with a space there, for the search. -/
theorem hasClassToken_trim_comment (hquiet : IsQuiet name body) (hgap : IsGap name front)
    (hname : trimEnd (escape name) = escape name)
    (hmore : trim (front ++ (commentOf body ++ back)) ≠ commentOf body) :
    trim (front ++ ' ' :: back) ≠ [] ∧
      hasClassToken (escape name) (trim (front ++ (commentOf body ++ back))) =
        hasClassToken (escape name) (trim (front ++ ' ' :: back)) := by
  have hsolid : BeginsSolid (commentOf body ++ back) := ⟨'/', _, rfl, by decide⟩
  have hpart : trim (front ++ (commentOf body ++ back)) =
      trimStart front ++ (commentOf body ++ trimEnd back) := by
    rw [trim, trimStart_append_solid front hsolid, trimEnd_comment]
  rw [hpart] at hmore ⊢
  rcases trimStart_eq_nil_or front with hnil | hbegins
  · have hblanks := isBlank_of_trimStart_eq_nil hnil
    have hspace : ∀ c ∈ front ++ [' '], isBlank c = true :=
      List.forall_mem_append.mpr ⟨hblanks, by simp [isBlank]⟩
    have htrim : trim (front ++ ' ' :: back) = trim back := by
      rw [List.append_cons, trim_blanks_append hspace]
    rw [hnil, List.nil_append] at hmore ⊢
    have hback : trim back ≠ [] := by
      intro hback
      have hblank := isBlank_of_trim_eq_nil hback
      rw [← List.nil_append back, trimEnd_append_blanks hblank] at hmore
      exact hmore (List.append_nil _)
    rw [htrim, hquiet.hasClassToken_append, hasClassToken_trimEnd_trim _ hback]
    exact ⟨hback, rfl⟩
  · have hsuffix : trimStart front <:+ front := List.dropWhile_suffix isBlank
    have hgap' := hgap.of_suffix hsuffix
    obtain ⟨c, rest, hrest, hc⟩ := hbegins
    have htrim : trim (front ++ ' ' :: back) = trimEnd (trimStart front ++ ' ' :: back) := by
      rw [trim, trimStart_append (by rw [hrest]; exact List.cons_ne_nil _ _)]
    rw [htrim, hasClassToken_trimEnd_gap hname hgap', hasClassToken_comment hquiet hgap']
    refine ⟨?_, rfl⟩
    rw [hrest, List.cons_append, ← List.nil_append (c :: _), trimEnd_append_cons [] hc]
    exact List.cons_ne_nil _ _

/-- The members of a list, and which of them hold the class, are the same with a space in place of
the comment, unless the comment is a member by itself. -/
theorem members_comment (hquiet : IsQuiet name body) (hgap : IsGap name front)
    (hname : trimEnd (escape name) = escape name)
    (hmember : commentOf body ∉ members (front ++ (commentOf body ++ back))) :
    (members (front ++ (commentOf body ++ back))).map (hasClassToken (escape name)) =
      (members (front ++ ' ' :: back)).map (hasClassToken (escape name)) := by
  obtain ⟨before, p, q, after, hp, -, hsplit, hsplit'⟩ := cutAround_comment hquiet hgap back
  rw [List.singleton_append, List.singleton_append] at hsplit'
  rw [members, hsplit] at hmember ⊢
  rw [members, hsplit']
  have hsolid : trim (p ++ (commentOf body ++ q)) ≠ [] := by
    intro hnil
    have hblank := isBlank_of_trim_eq_nil hnil '/' (by simp [commentOf])
    exact absurd hblank (by decide)
  have hmore : trim (p ++ (commentOf body ++ q)) ≠ commentOf body := by
    intro heq
    refine hmember (List.mem_filter.mpr ⟨List.mem_map.mpr ⟨_, ?_, heq⟩, by simp [commentOf]⟩)
    exact List.mem_append_right _ List.mem_cons_self
  obtain ⟨hsolid', hsearch⟩ := hasClassToken_trim_comment hquiet (hgap.of_suffix hp) hname hmore
  have hkeep {t : Text} (ht : t ≠ []) : (!t.isEmpty) = true := by simpa using ht
  simp only [List.map_append, List.map_cons, List.filter_append, List.filter_cons, hkeep hsolid,
    hkeep hsolid', if_true, hsearch]

/-- Blanks behind a list belong to its last part. -/
theorem splitAtCommas_append_blanks (hws : ∀ c ∈ ws, isBlank c = true) (t : Text) :
    ∃ before last, splitAtCommas t = before ++ [last] ∧
      splitAtCommas (t ++ ws) = before ++ [last ++ ws] := by
  have hblank {rest : Text} (hrest : rest <:+ ws) : splitAtCommas rest = [rest] := by
    have hleads : Leads false (rest ++ []) [] :=
      Leads.blanks (fun c hc => hws c (hrest.subset hc)) []
    rw [List.append_nil] at hleads
    exact hleads.splitAtCommas_eq
  -- A unit that takes all of the text, with or without blanks behind it.
  have hwhole {c : Char} {s : Text} (hc : c ≠ ',') (hunit : afterUnit (c :: s) = []) :
      ∃ before last, splitAtCommas (c :: s) = before ++ [last] ∧
        splitAtCommas (c :: s ++ ws) = before ++ [last ++ ws] := by
    refine ⟨[], c :: s, ?_, ?_⟩
    · have hcut := splitAtCommas_unit (t := []) hc (by rw [List.append_nil, hunit])
      rwa [List.append_nil, splitAtCommas, appendHead, List.append_nil] at hcut
    · -- The unit takes some of the blanks along.
      have hbehind := afterUnit_suffix_of_nil hunit ws
      obtain ⟨taken, htaken⟩ := hbehind
      generalize hrest : afterUnit (c :: s ++ ws) = rest at htaken
      subst htaken
      have htext : c :: s ++ (taken ++ rest) = c :: (s ++ taken) ++ rest := by simp
      rw [htext] at hrest ⊢
      rw [splitAtCommas_unit hc hrest, hblank (List.suffix_append taken rest), appendHead]
      simp
  induction t using unitInduction with
  | nil =>
      refine ⟨[], [], ?_, ?_⟩
      · rw [splitAtCommas]
        rfl
      · rw [List.nil_append, hblank (List.suffix_refl ws)]
        rfl
  | stops c s hstops ih =>
      obtain ⟨before, last, hsplit, hsplit'⟩ := ih
      by_cases hc : c = ','
      · subst hc
        refine ⟨[] :: before, last, ?_, ?_⟩
        · rw [splitAtCommas_comma]
          exact congrArg ([] :: ·) hsplit
        · rw [List.cons_append, splitAtCommas_comma]
          exact congrArg ([] :: ·) hsplit'
      · have hr := afterUnit_suffix c s
        obtain ⟨u, hu, hcut⟩ := splitAtCommas_of_unit (t := []) hc hr (hstops [])
        obtain ⟨u', hu', hcut'⟩ := splitAtCommas_of_unit hc hr (hstops ws)
        obtain rfl := List.append_cancel_right (hu.symm.trans hu')
        rw [List.append_nil, List.append_nil, hsplit] at hcut
        rw [hsplit'] at hcut'
        cases before with
        | nil => exact ⟨[], u ++ last, hcut, by rw [hcut', List.append_assoc]; rfl⟩
        | cons part before => exact ⟨(u ++ part) :: before, last, hcut, hcut'⟩
  | passes c s hpasses => exact hwhole hpasses.ne_comma hpasses.whole
  | hex c s n hn =>
      have hend := endsEscape_nil.afterUnit_eq hn
      rw [List.append_nil] at hend
      exact hwhole (ne_comma_of_hex hn) hend

/-- Blanks behind a list are trimmed off its members. -/
theorem members_trimEnd (t : Text) : members (trimEnd t) = members t := by
  obtain ⟨ws, ht, hws⟩ := exists_trimEnd_append t
  obtain ⟨before, last, hsplit, hsplit'⟩ := splitAtCommas_append_blanks hws (trimEnd t)
  rw [← ht] at hsplit'
  rw [members, members, hsplit, hsplit', List.map_append, List.map_append, List.map_singleton,
    List.map_singleton, trim_append_blanks hws]

/-- The trimmed list with a space in it has the members of one that is trimmed behind the space. -/
theorem members_space (front back : Text) :
    members (trimEnd (front ++ ' ' :: back)) = members (front ++ ' ' :: trimEnd back) := by
  rw [List.append_cons, ← trimEnd_append_trimEnd, members_trimEnd, ← List.append_cons]

end UtilityCss.Selector
