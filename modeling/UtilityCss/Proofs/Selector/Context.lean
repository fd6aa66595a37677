import UtilityCss.Proofs.Selector.Members

/-!
# Units in front of other text

What stands behind a stretch of text hardly matters to a scanner. It stops inside the stretch, or
else it goes on behind it, and then it takes all of a text in which nothing closes what is open.
Only a hexadecimal escape at the end looks at the next characters. So a stretch that is passed in
front of one text is passed in front of another.
-/

namespace UtilityCss.Selector

open Text Css

variable {s s' t t' : Text} {scan scan' inner : Text → Text}

/-- A hexadecimal escape in front of the text does not go on in it. -/
def EndsEscape (t : Text) : Prop :=
  ∀ c ∈ t.head?, isHexDigit c = false ∧ c ≠ ' ' ∧ c ≠ '\t' ∧ c ≠ '\n'

theorem endsEscape_nil : EndsEscape [] := nofun

theorem EndsEscape.dropHexDigits_eq (h : EndsEscape t) (n : Nat) : dropHexDigits n t = t := by
  cases t with
  | nil => cases n <;> rfl
  | cons c t =>
      cases n with
      | zero => rfl
      | succ n => rw [dropHexDigits, (h c rfl).1, if_neg Bool.false_ne_true]

theorem EndsEscape.dropHexEnd_eq (h : EndsEscape t) : dropHexEnd t = t := by
  cases t with
  | nil => rfl
  | cons c t =>
      obtain ⟨-, hspace, htab, hfeed⟩ := h c rfl
      rw [dropHexEnd, if_neg (by simp [hspace, htab, hfeed])]

theorem EndsEscape.append (h : EndsEscape t) (hne : t ≠ []) (u : Text) : EndsEscape (t ++ u) := by
  obtain ⟨c, t, rfl⟩ := List.exists_cons_of_ne_nil hne
  exact h

/-- A space ends a hexadecimal escape and belongs to it. -/
theorem dropHexEnd_space (n : Nat) (t : Text) : dropHexEnd (dropHexDigits n (' ' :: t)) = t := by
  cases n <;> rfl

theorem EndsEscape.dropHexDigits_append (h : EndsEscape t) (n : Nat) (s : Text) :
    dropHexDigits n (s ++ t) = dropHexDigits n s ++ t := by
  induction s generalizing n with
  | nil => cases n <;> exact h.dropHexDigits_eq _
  | cons c s ih =>
      cases n with
      | zero => rfl
      | succ n =>
          rw [List.cons_append, dropHexDigits, dropHexDigits]
          split
          · exact ih n
          · rfl

theorem EndsEscape.afterEscape_append (h : EndsEscape t) (hs : s ≠ []) :
    afterEscape (s ++ t) = afterEscape s ++ t := by
  cases s with
  | nil => exact absurd rfl hs
  | cons c s =>
      rw [List.cons_append, afterEscape, afterEscape]
      split
      · rw [h.dropHexDigits_append]
        cases dropHexDigits 5 s with
        | nil => exact h.dropHexEnd_eq
        | cons d rest =>
            rw [List.cons_append, dropHexEnd, dropHexEnd]
            split <;> rfl
      · rfl

/-- Digits in a text end there, or all of it are digits. -/
theorem dropHexDigits_cases (n : Nat) (s : Text) :
    (∃ c u, ∀ t, dropHexDigits n (s ++ t) = c :: (u ++ t)) ∨
      ∃ k, ∀ t, dropHexDigits n (s ++ t) = dropHexDigits k t := by
  induction s generalizing n with
  | nil => exact Or.inr ⟨n, fun t => rfl⟩
  | cons c s ih =>
      cases n with
      | zero => exact Or.inl ⟨c, s, fun t => rfl⟩
      | succ n =>
          simp only [List.cons_append, dropHexDigits]
          split
          · exact ih n
          · exact Or.inl ⟨c, s, fun t => rfl⟩

/-- An escape ends in a text, or it is a hexadecimal one that can go on behind it. -/
theorem afterEscape_cases (hs : s ≠ []) :
    (∀ t, afterEscape (s ++ t) = afterEscape s ++ t) ∨
      ∃ n, ∀ t, afterEscape (s ++ t) = dropHexEnd (dropHexDigits n t) := by
  cases s with
  | nil => exact absurd rfl hs
  | cons c s =>
      simp only [List.cons_append, afterEscape]
      split
      · rcases dropHexDigits_cases 5 s with ⟨d, u, hu⟩ | ⟨n, hn⟩
        · left
          intro t
          have hself := hu []
          rw [List.append_nil, List.append_nil] at hself
          rw [hu, hself, dropHexEnd, dropHexEnd]
          split <;> rfl
        · exact Or.inr ⟨n, fun t => by rw [hn]⟩
      · exact Or.inl fun t => rfl

theorem afterEscape_cons_suffix (c : Char) (t : Text) : afterEscape (c :: t) <:+ t := by
  rw [afterEscape]
  split
  · exact (dropHexEnd_suffix _).trans (dropHexDigits_suffix 5 t)
  · exact List.suffix_refl t

theorem isOrdinary_of_isPlain {c : Char} (h : isPlain c = true) : isOrdinary c = true := by
  have hsteady := isSteady_of_isPlain h
  simp only [isSteady, Bool.and_eq_true, bne_iff_ne, and_assoc] at hsteady
  obtain ⟨hbare, hsemicolon, -, hbrackets⟩ := hsteady
  exact isOrdinary_iff.mpr ⟨hbare, hsemicolon, hbrackets⟩

/-- What stays true of a text without an ordinary character in front of it stays true without the end
of a hexadecimal escape. -/
theorem of_dropEscapeEnd {p : Text → Prop} (hp : ∀ c t, isOrdinary c = true → p (c :: t) → p t)
    (h : p t) (n : Nat) : p (dropHexEnd (dropHexDigits n t)) := by
  have hdigits : p (dropHexDigits n t) := by
    induction t generalizing n with
    | nil => cases n <;> exact h
    | cons c t ih =>
        cases n with
        | zero => exact h
        | succ n =>
            rw [dropHexDigits]
            split
            next hc => exact ih (hp c t (isOrdinary_of_isPlain (isPlain_of_isHexDigit hc)) h) n
            next => exact h
  cases hrest : dropHexDigits n t with
  | nil => rwa [hrest] at hdigits
  | cons c rest =>
      rw [hrest] at hdigits
      rw [dropHexEnd]
      split
      next hc => exact hp c rest (by rcases hc with rfl | rfl | rfl <;> decide) hdigits
      next => exact hdigits

/-- Text that closes no string, attribute selector or group that is open in front of it. -/
structure IsIdle (t : Text) : Prop where
  nested : Nested true t
  squareFree : '[' ∉ t

theorem Nested.not_mem_square {commas : Bool} (h : Nested commas t) (hopen : '[' ∉ t) :
    ']' ∉ t := by
  induction h with
  | nil => exact List.not_mem_nil
  | char hc _ _ ih =>
      rw [List.mem_cons, not_or] at hopen ⊢
      exact ⟨(isOrdinary_iff.mp hc).2.2.2.2.2.symm, ih hopen.2⟩
  | round _ _ ihinner ih =>
      simp only [List.mem_cons, List.mem_append, not_or] at hopen ⊢
      exact ⟨by decide, ihinner hopen.2.1, by decide, ih hopen.2.2.2⟩
  | square => exact absurd List.mem_cons_self hopen

namespace IsIdle

theorem nil : IsIdle [] := ⟨.nil, List.not_mem_nil⟩

theorem of_cons {c : Char} (h : IsIdle (c :: t)) (hc : isOrdinary c = true) : IsIdle t := by
  obtain ⟨hnested, hsquare⟩ := h
  refine ⟨?_, fun hin => hsquare (List.mem_cons_of_mem c hin)⟩
  cases hnested with
  | char _ _ ht => exact ht
  | round => exact absurd hc (by decide)
  | square => exact absurd hc (by decide)

theorem of_ordinary (h : ∀ c ∈ t, isOrdinary c = true) : IsIdle t := by
  refine ⟨?_, fun hin => absurd (h _ hin) (by decide)⟩
  induction t with
  | nil => exact .nil
  | cons c t ih =>
      exact .char (h c List.mem_cons_self) (fun _ => rfl)
        (ih fun x hx => h x (List.mem_cons_of_mem c hx))

theorem closes_nothing (h : IsIdle t) : ∀ c ∈ t, c ≠ '\x5c' ∧ isQuote c = false ∧ c ≠ ']' := by
  intro c hc
  obtain ⟨hescape, hquote⟩ := ne_of_isBare (h.nested.isBare c hc).1
  refine ⟨hescape, hquote, ?_⟩
  rintro rfl
  exact h.nested.not_mem_square h.squareFree hc

theorem dropEscapeEnd (h : IsIdle t) (n : Nat) : IsIdle (dropHexEnd (dropHexDigits n t)) :=
  of_dropEscapeEnd (fun _ _ hc ht => ht.of_cons hc) h n

end IsIdle

theorem isIdle_space : IsIdle [' '] :=
  .of_ordinary (by simp only [List.mem_singleton, forall_eq]; decide)

/-! ## Scanners that stop, and scanners that go on -/

def StopsIn (scan : Text → Text) (s : Text) : Prop :=
  ∀ t, scan (s ++ t) = scan s ++ t

/-- The scanner goes on behind the text: it takes one character at least, and idle text as a whole
where no backslash in front of it takes its first character along. Such text is then as good as a
space. -/
structure PassesOver (scan : Text → Text) (s : Text) : Prop where
  whole : scan s = []
  suffix : ∀ c t, scan (s ++ c :: t) <:+ t
  idle : s.getLast? ≠ some '\x5c' → ∀ t, IsIdle t → scan (s ++ t) = []
  alike : s.getLast? ≠ some '\x5c' → ∀ t u, IsIdle t → t ≠ [] → EndsEscape t →
    scan (s ++ (t ++ u)) = scan (s ++ ' ' :: u)

def Settled (scan : Text → Text) (s : Text) : Prop :=
  StopsIn scan s ∨ PassesOver scan s

theorem getLast?_ne_of_suffix {x : Char} (h : s' <:+ s) (hs : s.getLast? ≠ some x) :
    s'.getLast? ≠ some x := by
  obtain ⟨front, rfl⟩ := h
  intro hlast
  rw [List.getLast?_append, hlast, Option.some_or] at hs
  exact hs rfl

theorem PassesOver.suffix_of_nil (h : PassesOver scan []) (t : Text) : scan t <:+ t := by
  cases t with
  | nil => simp only [h.whole, List.suffix_refl]
  | cons c t => exact (h.suffix c t).trans (List.suffix_cons c t)

/-- A scanner that reads over idle text wherever it stands goes on behind it. -/
theorem PassesOver.of_idle (hwhole : scan [] = []) (hsuffix : ∀ c t, scan (c :: t) <:+ t)
    (hidle : ∀ t, IsIdle t → ∀ u, scan (t ++ u) = scan u) : PassesOver scan [] where
  whole := hwhole
  suffix := hsuffix
  idle _ t ht := by
    have hread := hidle t ht []
    rwa [List.append_nil, hwhole] at hread
  alike _ t u ht _ _ := (hidle t ht u).trans (hidle [' '] isIdle_space u).symm

theorem Settled.of_eq (h : Settled scan' s') (hscan : ∀ t, scan (s ++ t) = scan' (s' ++ t))
    (hs : s' <:+ s) : Settled scan s := by
  rcases h with hstops | hpasses
  · left
    intro t
    have hself := hscan []
    rw [List.append_nil, List.append_nil] at hself
    rw [hscan, hself, hstops]
  · right
    refine ⟨?_, fun c t => ?_, fun hlast t ht => ?_, fun hlast t u ht hne hends => ?_⟩
    · have hself := hscan []
      rw [List.append_nil, List.append_nil] at hself
      rw [hself, hpasses.whole]
    · rw [hscan]
      exact hpasses.suffix c t
    · rw [hscan]
      exact hpasses.idle (getLast?_ne_of_suffix hs hlast) t ht
    · rw [hscan, hscan]
      exact hpasses.alike (getLast?_ne_of_suffix hs hlast) t u ht hne hends

/-- A scanner that leaves what stands behind a construct to another one. -/
theorem Settled.construct {c : Char} (hscan : ∀ t, scan (c :: t) = scan (inner t))
    (hnil : PassesOver scan []) (hinner : Settled inner s) (hsuffix : inner s <:+ s)
    (h : Settled scan (inner s)) : Settled scan (c :: s) := by
  rcases hinner with hstops | hpasses
  · refine h.of_eq (fun t => ?_) (hsuffix.trans (List.suffix_cons c s))
    rw [List.cons_append, hscan, hstops]
  · right
    refine ⟨?_, fun d t => ?_, fun hlast t ht => ?_, fun hlast t u ht hne hends => ?_⟩
    · rw [hscan, hpasses.whole, hnil.whole]
    · rw [List.cons_append, hscan]
      exact (hnil.suffix_of_nil _).trans (hpasses.suffix d t)
    · have hs := getLast?_ne_of_suffix (List.suffix_cons c s) hlast
      rw [List.cons_append, hscan, hpasses.idle hs t ht, hnil.whole]
    · have hs := getLast?_ne_of_suffix (List.suffix_cons c s) hlast
      rw [List.cons_append, List.cons_append, hscan, hscan, hpasses.alike hs t u ht hne hends]

/-- A scanner that passes escapes. -/
theorem Settled.escape (hscan : ∀ t, scan ('\x5c' :: t) = scan (afterEscape t))
    (hspace : ∀ t, scan (' ' :: t) = scan t) (hnil : PassesOver scan [])
    (h : Settled scan (afterEscape s)) : Settled scan ('\x5c' :: s) := by
  by_cases hs : s = []
  · subst hs
    refine Or.inr ⟨(hscan []).trans hnil.whole, fun c t => ?_, fun hlast => absurd rfl hlast,
      fun hlast => absurd rfl hlast⟩
    have hdrop := afterEscape_cons_suffix c t
    rw [List.singleton_append, hscan]
    exact (hnil.suffix_of_nil _).trans hdrop
  · rcases afterEscape_cases hs with hstops | ⟨n, hn⟩
    · refine h.of_eq (fun t => ?_) ((afterEscape_suffix s).trans (List.suffix_cons _ s))
      rw [List.cons_append, hscan, hstops]
    · right
      refine ⟨?_, fun c t => ?_, fun _ t ht => ?_, fun _ t u ht hne hends => ?_⟩
      · have hend := endsEscape_nil
        rw [hscan, ← List.append_nil s, hn, hend.dropHexDigits_eq, hend.dropHexEnd_eq, hnil.whole]
      · rw [List.cons_append, hscan, hn]
        obtain ⟨front, hfront⟩ := (dropHexEnd_suffix _).trans (dropHexDigits_suffix n (c :: t))
        cases front with
        | nil =>
            rw [List.nil_append] at hfront
            rw [hfront]
            exact hnil.suffix c t
        | cons d front =>
            have hrest : dropHexEnd (dropHexDigits n (c :: t)) <:+ t :=
              ⟨front, (List.cons.inj hfront).2⟩
            exact (hnil.suffix_of_nil _).trans hrest
      · rw [List.cons_append, hscan, hn]
        exact hnil.idle nofun _ (ht.dropEscapeEnd n)
      · have hends' := hends.append hne u
        rw [List.cons_append, List.cons_append, hscan, hscan, hn, hn, hends'.dropHexDigits_eq,
          hends'.dropHexEnd_eq, dropHexEnd_space]
        exact (hnil.alike nofun t u ht hne hends).trans (hspace u)

/-! ## The scanners of strings and brackets -/

theorem afterString_of_ne {quote c : Char} (hc : c ≠ '\x5c') (t : Text) :
    afterString quote (c :: t) = if c = quote then t else afterString quote t := by
  rw [afterString]
  · exact fun heq _ => hc heq
  · exact fun _ _ heq _ => hc heq

theorem afterString_cons_suffix (quote c : Char) (t : Text) : afterString quote (c :: t) <:+ t := by
  by_cases hc : c = '\x5c'
  · rw [hc]
    cases t with
    | nil => exact List.nil_suffix
    | cons d t => exact (afterString_suffix quote t).trans (List.suffix_cons d t)
  · rw [afterString_of_ne hc]
    split
    · exact List.suffix_refl t
    · exact afterString_suffix quote t

theorem settled_afterString {quote : Char} (hquote : isQuote quote = true) (s : Text) :
    Settled (afterString quote) s := by
  have hidle : ∀ t, IsIdle t → ∀ u, afterString quote (t ++ u) = afterString quote u := by
    intro t ht u
    have hclosed := ht.closes_nothing
    clear ht
    induction t with
    | nil => rfl
    | cons c t ih =>
        obtain ⟨⟨hescape, hc, -⟩, hrest⟩ := List.forall_mem_cons.mp hclosed
        have hne : c ≠ quote := by
          rintro rfl
          rw [hquote] at hc
          cases hc
        rw [List.cons_append, afterString_of_ne hescape, if_neg hne]
        exact ih hrest
  have hnil : PassesOver (afterString quote) [] :=
    .of_idle rfl (afterString_cons_suffix quote) hidle
  fun_induction afterString quote s with
  | case1 => exact Or.inr hnil
  | case2 =>
      refine Or.inr ⟨rfl, fun c t => ?_, fun hlast => absurd rfl hlast,
        fun hlast => absurd rfl hlast⟩
      exact afterString_suffix quote t
  | case3 c rest ih => exact ih.of_eq (fun t => rfl) ⟨['\x5c', c], rfl⟩
  | case4 rest hlone hescape =>
      have hne := ne_backslash_of_cases hlone hescape
      refine Or.inl fun t => ?_
      rw [List.cons_append, afterString_of_ne hne, if_pos rfl, afterString_of_ne hne, if_pos rfl]
  | case5 c rest hlone hescape hc ih =>
      have hne := ne_backslash_of_cases hlone hescape
      refine ih.of_eq (fun t => ?_) (List.suffix_cons c rest)
      rw [List.cons_append, afterString_of_ne hne, if_neg hc]

theorem afterAttribute_cons_suffix (c : Char) (t : Text) : afterAttribute (c :: t) <:+ t := by
  rw [afterAttribute]
  split
  · exact (afterAttribute_suffix _).trans (afterEscape_suffix t)
  · split
    · exact (afterAttribute_suffix _).trans (afterString_suffix c t)
    · split
      · exact List.suffix_refl t
      · exact afterAttribute_suffix t

theorem settled_afterAttribute (s : Text) : Settled afterAttribute s := by
  have hidle : ∀ t, IsIdle t → ∀ u, afterAttribute (t ++ u) = afterAttribute u := by
    intro t ht u
    have hclosed := ht.closes_nothing
    clear ht
    induction t with
    | nil => rfl
    | cons c t ih =>
        obtain ⟨⟨hescape, hquote, hsquare⟩, hrest⟩ := List.forall_mem_cons.mp hclosed
        rw [List.cons_append, afterAttribute, if_neg hescape,
          if_neg (by rw [hquote]; exact Bool.false_ne_true), if_neg hsquare]
        exact ih hrest
  have hnil : PassesOver afterAttribute [] :=
    .of_idle (by rw [afterAttribute]) afterAttribute_cons_suffix hidle
  have hescaped : ∀ t, afterAttribute ('\x5c' :: t) = afterAttribute (afterEscape t) := by
    intro t
    rw [afterAttribute, if_pos rfl]
  fun_induction afterAttribute s with
  | case1 => exact Or.inr hnil
  | case2 rest ih => exact ih.escape hescaped (hidle [' '] isIdle_space) hnil
  | case3 c rest hescape hquote ih =>
      refine .construct (fun t => ?_) hnil (settled_afterString hquote rest)
        (afterString_suffix c rest) ih
      rw [afterAttribute, if_neg hescape, if_pos hquote]
  | case4 rest =>
      refine Or.inl fun t => ?_
      have hclose : ∀ u, afterAttribute (']' :: u) = u := fun u => by
        rw [afterAttribute, if_neg (by decide), if_neg (by decide), if_pos rfl]
      rw [List.cons_append, hclose, hclose]
  | case5 c rest hescape hquote hsquare ih =>
      refine ih.of_eq (fun t => ?_) (List.suffix_cons c rest)
      rw [List.cons_append, afterAttribute, if_neg hescape, if_neg hquote, if_neg hsquare]

theorem afterParentheses_cons_suffix (depth : Nat) (c : Char) (t : Text) :
    afterParentheses depth (c :: t) <:+ t := by
  rw [afterParentheses]
  split
  · exact (afterParentheses_suffix _ _).trans (afterEscape_suffix t)
  · split
    · exact (afterParentheses_suffix _ _).trans (afterString_suffix c t)
    · split
      · exact (afterParentheses_suffix _ _).trans (afterAttribute_suffix t)
      · split
        · exact afterParentheses_suffix _ t
        · split
          · split
            · exact List.suffix_refl t
            · exact afterParentheses_suffix _ t
          · exact afterParentheses_suffix _ t

theorem settled_afterParentheses {depth : Nat} (hdepth : 1 ≤ depth) (s : Text) :
    Settled (afterParentheses depth) s := by
  have hidle : ∀ {depth}, 1 ≤ depth → ∀ t, IsIdle t → ∀ u,
      afterParentheses depth (t ++ u) = afterParentheses depth u :=
    fun hdepth _ ht u => ht.nested.afterParentheses_append hdepth u
  have hnil : ∀ {depth}, 1 ≤ depth → PassesOver (afterParentheses depth) [] := fun hdepth =>
    .of_idle (by rw [afterParentheses]) (afterParentheses_cons_suffix _) (hidle hdepth)
  fun_induction afterParentheses depth s with
  | case1 => exact Or.inr (hnil hdepth)
  | case2 depth rest ih =>
      refine (ih hdepth).escape (fun t => ?_) (hidle hdepth [' '] isIdle_space) (hnil hdepth)
      rw [afterParentheses, if_pos rfl]
  | case3 depth c rest hescape hquote ih =>
      refine .construct (fun t => ?_) (hnil hdepth) (settled_afterString hquote rest)
        (afterString_suffix c rest) (ih hdepth)
      rw [afterParentheses, if_neg hescape, if_pos hquote]
  | case4 depth rest _ _ ih =>
      refine .construct (fun t => ?_) (hnil hdepth) (settled_afterAttribute rest)
        (afterAttribute_suffix rest) (ih hdepth)
      rw [afterParentheses, if_neg (by decide), if_neg (by decide), if_pos rfl]
  | case5 depth rest _ _ _ ih =>
      refine (ih (by omega)).of_eq (fun t => ?_) (List.suffix_cons _ rest)
      rw [List.cons_append, afterParentheses, if_neg (by decide), if_neg (by decide),
        if_neg (by decide), if_pos rfl]
  | case6 depth rest hone =>
      refine Or.inl fun t => ?_
      have hclose : ∀ u, afterParentheses depth (')' :: u) = u := fun u => by
        rw [afterParentheses, if_neg (by decide), if_neg (by decide), if_neg (by decide),
          if_neg (by decide), if_pos rfl, if_pos hone]
      rw [List.cons_append, hclose, hclose]
  | case7 depth rest hone _ _ _ _ ih =>
      refine (ih (by omega)).of_eq (fun t => ?_) (List.suffix_cons _ rest)
      rw [List.cons_append, afterParentheses, if_neg (by decide), if_neg (by decide),
        if_neg (by decide), if_neg (by decide), if_pos rfl, if_neg hone]
  | case8 depth c rest hescape hquote hsquare hround hclose ih =>
      refine (ih hdepth).of_eq (fun t => ?_) (List.suffix_cons c rest)
      rw [List.cons_append, afterParentheses, if_neg hescape, if_neg hquote, if_neg hsquare,
        if_neg hround, if_neg hclose]

/-- A unit ends in a text, or goes on behind it, or is a hexadecimal escape at the end of it. -/
theorem afterUnit_cases (c : Char) (s : Text) :
    Settled afterUnit (c :: s) ∨
      ∃ n, ∀ t, afterUnit (c :: s ++ t) = dropHexEnd (dropHexDigits n t) := by
  have hsettled : ∀ {scan : Text → Text}, (∀ t, afterUnit (c :: t) = scan t) → Settled scan s →
      Settled afterUnit (c :: s) := fun hscan h =>
    h.of_eq (fun t => by rw [List.cons_append, hscan]) (List.suffix_cons c s)
  by_cases hescape : c = '\x5c'
  · subst hescape
    have hscan : ∀ t, afterUnit ('\x5c' :: t) = afterEscape t := fun t => by
      rw [afterUnit, if_pos rfl]
    by_cases hs : s = []
    · subst hs
      refine Or.inl (Or.inr ⟨hscan [], fun d t => ?_, fun hlast => absurd rfl hlast,
        fun hlast => absurd rfl hlast⟩)
      rw [List.singleton_append, hscan]
      exact afterEscape_cons_suffix d t
    · rcases afterEscape_cases hs with hstops | ⟨n, hn⟩
      · refine Or.inl (Or.inl fun t => ?_)
        rw [List.cons_append, hscan, hscan, hstops]
      · exact Or.inr ⟨n, fun t => by rw [List.cons_append, hscan, hn]⟩
  · left
    by_cases hquote : isQuote c = true
    · refine hsettled (fun t => ?_) (settled_afterString hquote s)
      rw [afterUnit, if_neg hescape, if_pos hquote]
    · by_cases hsquare : c = '['
      · refine hsettled (fun t => ?_) (settled_afterAttribute s)
        rw [afterUnit, if_neg hescape, if_neg hquote, if_pos hsquare]
      · by_cases hround : c = '('
        · refine hsettled (fun t => ?_) (settled_afterParentheses (Nat.le_refl 1) s)
          rw [afterUnit, if_neg hescape, if_neg hquote, if_neg hsquare, if_pos hround]
        · refine Or.inl fun t => ?_
          simp only [List.cons_append, afterUnit, if_neg hescape, if_neg hquote, if_neg hsquare,
            if_neg hround]

theorem EndsEscape.afterUnit_eq {c : Char} {n : Nat} (h : EndsEscape t)
    (hn : ∀ t, afterUnit (c :: s ++ t) = dropHexEnd (dropHexDigits n t)) :
    afterUnit (c :: s ++ t) = t := by
  rw [hn, h.dropHexDigits_eq, h.dropHexEnd_eq]

/-- What a unit takes as a whole belongs to it in front of other text too. -/
theorem afterUnit_suffix_of_nil {c : Char} (h : afterUnit (c :: s) = []) (t : Text) :
    afterUnit (c :: s ++ t) <:+ t := by
  rcases afterUnit_cases c s with (hstops | hpasses) | ⟨n, hn⟩
  · rw [hstops, h]
    exact List.suffix_refl t
  · cases t with
    | nil => simp only [List.append_nil, h, List.suffix_refl]
    | cons d t => exact (hpasses.suffix d t).trans (List.suffix_cons d t)
  · rw [hn]
    exact (dropHexEnd_suffix _).trans (dropHexDigits_suffix n t)

/-- Induction over the units of a text, the last of which may go on behind it. -/
@[elab_as_elim]
theorem unitInduction {motive : Text → Prop} (nil : motive [])
    (stops : ∀ c s, StopsIn afterUnit (c :: s) → motive (afterUnit (c :: s)) → motive (c :: s))
    (passes : ∀ c s, PassesOver afterUnit (c :: s) → motive (c :: s))
    (hex : ∀ c s n, (∀ t, afterUnit (c :: s ++ t) = dropHexEnd (dropHexDigits n t)) →
      motive (c :: s)) (s : Text) : motive s := by
  induction hlength : s.length using Nat.strongRecOn generalizing s with
  | ind n ih =>
      cases s with
      | nil => exact nil
      | cons c s =>
          rcases afterUnit_cases c s with (hstops | hpasses) | ⟨k, hk⟩
          · have hshort := (afterUnit_suffix c s).length_le
            rw [List.length_cons] at hlength
            exact stops c s hstops (ih _ (by omega) _ rfl)
          · exact passes c s hpasses
          · exact hex c s k hk

/-! ## Stretches in front of other text -/

theorem isOrdinary_of_isBlank {c : Char} (h : isBlank c = true) : isOrdinary c = true := by
  have hsteady := isSteady_of_isBlank h
  simp only [isSteady, Bool.and_eq_true, bne_iff_ne, and_assoc] at hsteady
  obtain ⟨hbare, hsemicolon, -, hbrackets⟩ := hsteady
  exact isOrdinary_iff.mpr ⟨hbare, hsemicolon, hbrackets⟩

theorem getLast?_afterUnit_ne {c x : Char} (h : (c :: s).getLast? ≠ some x) :
    (afterUnit (c :: s)).getLast? ≠ some x :=
  getLast?_ne_of_suffix ((afterUnit_suffix c s).trans (List.suffix_cons c s)) h

namespace Leads

variable {commas commas' : Bool} {c : Char} {rest : Text}

theorem unit_append (hc : c = ',' → commas = true)
    (h : Leads commas (afterUnit (c :: s ++ t)) rest) : Leads commas (c :: s ++ t) rest :=
  .unit hc h

theorem of_unit_append (h : Leads commas (c :: s ++ t) rest)
    (hlength : rest.length ≤ (s ++ t).length) :
    (c = ',' → commas = true) ∧ Leads commas (afterUnit (c :: s ++ t)) rest :=
  of_cons h hlength

/-- What stands behind a stretch that is passed may be replaced. -/
theorem replace (h : Leads commas (s ++ t) t) (ht : t ≠ []) (ht' : EndsEscape t') :
    Leads commas (s ++ t') t' := by
  induction s using unitInduction with
  | nil => exact .refl
  | stops c s hstops ih =>
      obtain ⟨hc, hrest⟩ := h.of_unit_append (by simp)
      rw [hstops] at hrest
      exact .unit_append hc (by rw [hstops]; exact ih hrest)
  | passes c s hpasses =>
      obtain ⟨-, hrest⟩ := h.of_unit_append (by simp)
      obtain ⟨d, rest, rfl⟩ := List.exists_cons_of_ne_nil ht
      have hshort := (hrest.suffix.trans (hpasses.suffix d rest)).length_le
      rw [List.length_cons] at hshort
      omega
  | hex c s n hn =>
      obtain ⟨hc, -⟩ := h.of_unit_append (by simp)
      exact .unit_append hc (by rw [ht'.afterUnit_eq hn]; exact .refl)

/-- In front of a text to which the units lead, they are the same as without it. -/
theorem within (h : Leads commas s rest) (hall : Leads commas' (s ++ t) t) (ht : EndsEscape t) :
    Leads commas (s ++ t) (rest ++ t) := by
  induction h with
  | refl => exact .refl
  | @unit c s rest hc h ih =>
      have hrest := (hall.of_unit_append (by simp)).2
      rcases afterUnit_cases c s with (hstops | hpasses) | ⟨n, hn⟩
      · rw [hstops] at hrest
        exact .unit_append hc (by rw [hstops]; exact ih hrest)
      · cases t with
        | nil =>
            rw [List.append_nil, List.append_nil]
            exact .unit hc h
        | cons d t =>
            have hshort := (hrest.suffix.trans (hpasses.suffix d t)).length_le
            rw [List.length_cons] at hshort
            omega
      · have hend := endsEscape_nil.afterUnit_eq hn
        rw [List.append_nil] at hend
        rw [hend] at h
        rw [List.suffix_nil.mp h.suffix, List.nil_append]
        exact .unit_append hc (by rw [ht.afterUnit_eq hn]; exact .refl)

/-- Each blank is a unit. -/
theorem blanks {ws : Text} (h : ∀ c ∈ ws, isBlank c = true) (t : Text) :
    Leads commas (ws ++ t) t := by
  induction ws with
  | nil => exact .refl
  | cons c ws ih =>
      obtain ⟨hc, hws⟩ := List.forall_mem_cons.mp h
      have hcomma : c ≠ ',' := by
        rintro rfl
        exact absurd hc (by decide)
      exact (Leads.of_char hcomma (afterUnit_ordinary (isOrdinary_of_isBlank hc) _)).trans (ih hws)

/-- Blanks in front of a text may be left out. -/
theorem drop_front {ws : Text} (hws : ∀ c ∈ ws, isBlank c = true)
    (h : Leads commas (ws ++ t) rest) (hlength : rest.length ≤ t.length) : Leads commas t rest := by
  have hblanks : Leads commas (ws ++ t) t := blanks hws t
  exact (hblanks.between h hlength).2

/-- Blanks in front of a comma belong to no unit that begins in front of them, or to one that ends
without them too; behind a backslash this is not so. -/
theorem drop_blanks {blanks : Text} (h : Leads false (s ++ (blanks ++ ',' :: t)) (',' :: t))
    (hblanks : ∀ c ∈ blanks, isBlank c = true) (hs : s.getLast? ≠ some '\x5c')
    (ht' : EndsEscape t') : Leads false (s ++ t') t' := by
  have hlength : ∀ s : Text, (',' :: t).length ≤ (s ++ (blanks ++ ',' :: t)).length := by
    intro s
    simp only [List.length_append]
    omega
  induction s using unitInduction with
  | nil => exact .refl
  | stops c s hstops ih =>
      obtain ⟨hc, hrest⟩ := h.of_unit_append (hlength s)
      rw [hstops] at hrest
      exact .unit_append hc (by rw [hstops]; exact ih hrest (getLast?_afterUnit_ne hs))
  | passes c s hpasses =>
      -- A construct that is open goes on over the blanks and the comma.
      obtain ⟨-, hrest⟩ := h.of_unit_append (hlength s)
      have hidle : IsIdle (blanks ++ [',']) := by
        refine .of_ordinary (List.forall_mem_append.mpr ⟨fun d hd => ?_, ?_⟩)
        · exact isOrdinary_of_isBlank (hblanks d hd)
        · exact List.forall_mem_singleton.mpr (by decide)
      have htaken : afterUnit (c :: (s ++ (blanks ++ [',']))) = [] := hpasses.idle hs _ hidle
      have hbehind := afterUnit_suffix_of_nil htaken t
      have htext : c :: (s ++ (blanks ++ [','])) ++ t = c :: s ++ (blanks ++ ',' :: t) := by simp
      rw [htext] at hbehind
      have hshort := (hrest.suffix.trans hbehind).length_le
      rw [List.length_cons] at hshort
      omega
  | hex c s n hn =>
      obtain ⟨hc, -⟩ := h.of_unit_append (hlength s)
      exact .unit_append hc (by rw [ht'.afterUnit_eq hn]; exact .refl)

/-- A text without a comma to cut at has none in front either. -/
theorem front (h : Leads commas (s ++ t) []) (hs : s.getLast? ≠ some '\x5c') :
    Leads commas s [] := by
  induction s using unitInduction with
  | nil => exact .refl
  | stops c s hstops ih =>
      obtain ⟨hc, hrest⟩ := h.of_unit_append (Nat.zero_le _)
      rw [hstops] at hrest
      exact .unit hc (ih hrest (getLast?_afterUnit_ne hs))
  | passes c s hpasses =>
      obtain ⟨hc, -⟩ := h.of_unit_append (Nat.zero_le _)
      have htaken := hpasses.idle hs [] .nil
      rw [List.append_nil] at htaken
      exact .unit hc (by rw [htaken]; exact .refl)
  | hex c s n hn =>
      obtain ⟨hc, -⟩ := h.of_unit_append (Nat.zero_le _)
      have hend := endsEscape_nil.afterUnit_eq hn
      rw [List.append_nil] at hend
      exact .unit hc (by rw [hend]; exact .refl)

/-- Idle text at the end belongs to the last unit, or is read behind it. -/
theorem append_idle (h : Leads commas s []) (hs : s.getLast? ≠ some '\x5c') (ht : IsIdle t)
    (hends : EndsEscape t) (hleads : Leads commas t []) : Leads commas (s ++ t) [] := by
  induction s using unitInduction with
  | nil => exact hleads
  | stops c s hstops ih =>
      obtain ⟨hc, hrest⟩ := h.of_cons (Nat.zero_le _)
      exact .unit_append hc (by rw [hstops]; exact ih hrest (getLast?_afterUnit_ne hs))
  | passes c s hpasses =>
      obtain ⟨hc, -⟩ := h.of_cons (Nat.zero_le _)
      exact .unit_append hc (by rw [hpasses.idle hs t ht]; exact .refl)
  | hex c s n hn =>
      obtain ⟨hc, -⟩ := h.of_cons (Nat.zero_le _)
      exact .unit_append hc (by rw [hends.afterUnit_eq hn]; exact hleads)

end Leads

end UtilityCss.Selector
