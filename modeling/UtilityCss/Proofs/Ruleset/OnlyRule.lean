import UtilityCss.Proofs.Generator.StyleRule
import UtilityCss.Proofs.Ruleset.Reads
import UtilityCss.Ruleset.Check

/-!
# What stands around the only rule

A ruleset whose only rule selects its class and nothing else is advised to be a declaration. What
stands in front of that rule and behind it holds no other rule, but it need not be comments and white
space: statements, at-rules that group nothing and stray text are read over.
-/

namespace UtilityCss

open Text Css Selector

namespace Ruleset

variable {ls : List Lexeme} {start : Nat} {r : Rule}

inductive IsTrivia : Text → Prop where
  | nil : IsTrivia []
  | blank {c : Char} {t : Text} (hc : isBlank c = true) (ht : IsTrivia t) : IsTrivia (c :: t)
  | comment {body t : Text} (hbody : ¬ ['*', '/'] <:+: body) (ht : IsTrivia t) :
      IsTrivia (commentOf body ++ t)

theorem lexemes_blank_cons {c : Char} (h : isBlank c = true) (t : Text) :
    lexemes (c :: t) = .symbol c :: lexemes t := by
  obtain ⟨hbare, -, hslash, -⟩ := isSteady_spec (isSteady_of_isBlank h)
  exact lexemes_bare_cons hbare fun heq => absurd heq hslash

namespace IsTrivia

variable {t : Text}

theorem whole (h : IsTrivia t) : Whole t := by
  induction h with
  | nil => exact .nil
  | blank hc _ ih =>
      obtain ⟨hbare, -, hslash, -⟩ := isSteady_spec (isSteady_of_isBlank hc)
      exact .char hbare (fun heq => absurd heq hslash) ih
  | comment hbody _ ih => exact .comment hbody ih

theorem preludeDepth?_eq (h : IsTrivia t) : preludeDepth? 0 (lexemes t) = some 0 := by
  induction h with
  | nil =>
      rw [lexemes]
      rfl
  | blank hc _ ih =>
      obtain ⟨hbare, hsemicolon, -, hdepth⟩ := isSteady_spec (isSteady_of_isBlank hc)
      have hsymbol := preludeDepth?_symbols (t := [_]) (by simpa using ⟨hbare, hsemicolon⟩) 0
      rw [hdepth] at hsymbol
      rw [lexemes_blank_cons hc, ← List.singleton_append, preludeDepth?_append]
      exact (congrArg (Option.bind · _) hsymbol).trans ih
  | comment hbody _ ih =>
      rw [lexemes_comment hbody]
      exact ih

theorem fitsPrelude (h : IsTrivia t) : FitsPrelude t :=
  fitsPrelude_iff.mpr ⟨h.whole.stands, passed_of_preludeDepth? h.preludeDepth?_eq⟩

end IsTrivia

/-- The first rule behind comments and white space begins with its own prelude, or with a blank that
is no white space in a style sheet and so belongs to the prelude. -/
theorem exists_rule_of_isTrivia {lead P : Text} (hlead : IsTrivia lead)
    (hhead : P.head? = some '.') (hP : FitsPrelude P) (rest : Text) (start : Nat) :
    ∃ r rs, rulesFrom [] start (lexemes (lead ++ (P ++ '\x7b' :: rest))) = r :: rs ∧
      (r.selectorSpan.start = start + size lead ∨ r.selector.head? ≠ some '.') := by
  induction hlead generalizing start with
  | nil =>
      rw [List.nil_append, rulesFrom_prelude hhead (by decide) hP, blockRules,
        if_neg (by rw [hhead]; decide)]
      exact ⟨_, _, rfl, .inl rfl⟩
  | @blank b t hb ht ih =>
      by_cases hascii : isAsciiBlank b = true
      · obtain ⟨r, rs, hread, hplace⟩ := ih (start + size [b])
        refine ⟨r, rs, ?_, ?_⟩
        · rw [List.cons_append]
          exact (rulesFrom_blanks (by simpa using hascii : ∀ x ∈ [b], _) _).trans hread
        · rwa [Nat.add_assoc, ← size_append] at hplace
      · have hne {d : Char} (hd : isBlank d = false) : b ≠ d := ne_of_isBlank hb hd
        have hopener : isOpener b = true := by
          have hbare := (isSteady_spec (isSteady_of_isBlank hb)).1
          simp [isOpener, startsPrelude, hbare, @hne '/' (by decide), @hne ';' (by decide),
            @hne '\x7d' (by decide), hascii]
        have hfits : FitsPrelude (b :: t ++ P) :=
          (fitsPrelude_append (ht.blank hb).fitsPrelude (by rw [hhead]; decide)).mpr hP
        have hat : (b :: t ++ P).head? ≠ some '@' := fun heq =>
          hne (d := '@') (by decide) (Option.some.inj heq)
        obtain ⟨P, rfl⟩ := List.head?_eq_some_iff.mp hhead
        rw [← List.append_assoc, rulesFrom_prelude (c := b) rfl hopener hfits, blockRules, if_neg hat]
        refine ⟨_, _, rfl, .inr ?_⟩
        rw [ruleAt, trimEnd_append_cons _ (by decide)]
        exact fun heq => hne (d := '.') (by decide) (Option.some.inj heq)
  | @comment body t hbody _ ih =>
      obtain ⟨r, rs, hread, hplace⟩ := ih (start + size (commentOf body))
      refine ⟨r, rs, ?_, ?_⟩
      · rw [List.append_assoc, lexemes_comment hbody, rulesFrom, entries_comment,
          List.filterMap_append]
        exact hread
      · rwa [Nat.add_assoc, ← size_append] at hplace

theorem isTrivia_of_blanks {ws : Text} (h : ∀ c ∈ ws, isBlank c = true) : IsTrivia ws := by
  induction ws with
  | nil => exact .nil
  | cons c ws ih => exact .blank (h c List.mem_cons_self) (ih fun x hx => h x (.tail c hx))

/-! ## The only rule -/

/-- What stands behind an opening brace: a body, the brace that closes it and other text; or a body
that is open up to the end. -/
inductive IsBlock (body : Text) : Text → Text → Prop where
  | closed {tail : Text} (h : FitsBody body) : IsBlock body tail (body ++ '\x7d' :: tail)
  | unclosed (h : (splitBody 0 (lexemes body)).2 = []) : IsBlock body [] body

/-- Nothing but comments and white space, of which the last comment may be open. -/
def IsTail (t : Text) : Prop :=
  IsTrivia t ∨ IsTrivia (t ++ ['*', '/'])

/-- The text is one rule with the given selector. Only comments and white space are around it. -/
def IsLoneRule (selector t : Text) : Prop :=
  ∃ lead gap body tail rest, t = lead ++ (selector ++ gap ++ '\x7b' :: rest) ∧ IsTrivia lead ∧
    (∀ c ∈ gap, isBlank c = true) ∧ IsBlock body tail rest ∧ IsTail tail

theorem IsBlock.eq {body tail rest : Text} (h : IsBlock body tail rest) :
    body = textOf (splitBody 0 (lexemes rest)).1 ∧
      tail = textOf ((splitBody 0 (lexemes rest)).2.drop 1) := by
  cases h with
  | closed h =>
      obtain ⟨hstands, hclosed⟩ := fitsBody_iff.mp h
      rw [hstands.lexemes_append_brace (Or.inr rfl), hclosed.splitBody_eq, textOf_lexemes,
        List.drop_one, List.tail_cons, textOf_lexemes]
      exact ⟨rfl, rfl⟩
  | unclosed h =>
      have hbody := splitBody_append 0 (lexemes body)
      rw [h, List.append_nil] at hbody
      rw [h, hbody, textOf_lexemes]
      exact ⟨rfl, rfl⟩

theorem isBlock_of_lexemes (h : lexemes (textOf ls) = ls) :
    IsBlock (textOf (splitBody 0 ls).1) (textOf ((splitBody 0 ls).2.drop 1)) (textOf ls) := by
  have hls := splitBody_append 0 ls
  cases hsplit : splitBody 0 ls with
  | mk body ending =>
      rw [hsplit] at hls
      cases ending with
      | nil =>
          rw [List.append_nil] at hls
          change body = ls at hls
          subst hls
          exact .unclosed (by rw [h, hsplit])
      | cons close behind =>
          obtain rfl := splitBody_stop hsplit
          rw [← h] at hsplit
          have hfits := (fitsBody_of_split hsplit).1
          rw [← hls, textOf_append, textOf_cons]
          exact .closed hfits

theorem eq_of_brace {gap gap' rest rest' : Text} (hgap : ∀ c ∈ gap, isBlank c = true)
    (hgap' : ∀ c ∈ gap', isBlank c = true) (h : gap ++ '\x7b' :: rest = gap' ++ '\x7b' :: rest') :
    gap = gap' ∧ rest = rest' := by
  have hbrace {ws : Text} (hws : ∀ c ∈ ws, isBlank c = true) : '\x7b' ∉ ws := fun hin =>
    absurd (hws _ hin) (by decide)
  obtain ⟨u, rfl, hu⟩ := exists_append_of_not_mem h (hbrace hgap')
  cases u with
  | nil => exact ⟨List.append_nil _, (List.cons.inj hu).2⟩
  | cons c u =>
      obtain ⟨rfl, -⟩ := List.cons.inj hu
      exact absurd (List.mem_append_right _ List.mem_cons_self) (hbrace hgap)

theorem onlyRule?_spec {ruleset : Ruleset} {className : Text}
    (h : ruleset.onlyRule? className = some r) :
    ruleset.rules = [r] ∧ r.atRules = [] ∧ r.selector = classSelector className := by
  unfold onlyRule? at h
  split at h
  next r' hrules =>
    split at h
    next hboth =>
      obtain rfl := Option.some.inj h
      exact ⟨hrules, List.isEmpty_iff.mp hboth.1, hboth.2⟩
    next => cases h
  next => cases h

theorem check_eq_ok_iff {className css : Text} {ruleset : Ruleset} :
    check className css = .ok ruleset ↔
      trim css ≠ [] ∧ ruleset = parse (trim css) ∧ ruleset.mentions className = true := by
  unfold check
  by_cases hnil : trim css = []
  · rw [hnil]
    simp
  · by_cases hmentions : (parse (trim css)).mentions className = true
    · simp only [List.isEmpty_iff, hnil, hmentions, if_true, if_false, Except.ok.injEq, ne_eq,
        not_false_eq_true, true_and]
      constructor
      · rintro rfl
        exact ⟨rfl, hmentions⟩
      · exact fun h => h.1.symm
    · simp only [List.isEmpty_iff, hnil, hmentions, if_false, reduceCtorEq, Bool.false_eq_true,
        false_iff]
      rintro ⟨-, rfl, h⟩
      exact hmentions h

theorem rules_of_rulesFrom_nil (h : rulesFrom [] start ls = []) (hls : lexemes (textOf ls) = ls) :
    (parse (textOf ls)).rules = [] := by
  have hshift : rulesFrom [] (start + 0) ls = (rulesFrom [] 0 ls).map (Rule.shift start) :=
    rulesFrom_shift start
  rw [Nat.add_zero, h] at hshift
  change rulesFrom [] 0 (lexemes (textOf ls)) = []
  rw [hls]
  exact List.map_eq_nil_iff.mp hshift.symm

theorem lexemes_behind_body (h : lexemes (textOf ls) = ls) :
    lexemes (textOf ((splitBody 0 ls).2.drop 1)) = (splitBody 0 ls).2.drop 1 := by
  have hparts : lexemes (textOf ls) =
      (splitBody 0 ls).1 ++ (splitBody 0 ls).2.take 1 ++ (splitBody 0 ls).2.drop 1 := by
    rw [h, List.append_assoc, List.take_append_drop, splitBody_append]
  exact lexemes_back hparts

/-- The two sides of the only rule, if no at-rule is around it. No rule is read in either. -/
theorem exists_sides {t : Text} (hrules : (parse t).rules = [r]) (hatRules : r.atRules = []) :
    ∃ lead prelude body tail rest,
      t = lead ++ (prelude ++ '\x7b' :: rest) ∧ IsBlock body tail rest ∧
      r = ruleAt [] (size lead) prelude body ∧
      (parse lead).rules = [] ∧ (parse tail).rules = [] := by
  have hmem : .rule r ∈ entries [] 0 (lexemes t) := by
    rw [← mem_rulesFrom]
    change r ∈ (parse t).rules
    rw [hrules]
    exact List.mem_cons_self
  obtain ⟨before, es, head, left, place, stop, hls, hbefore, hrule, hread⟩ :=
    (found_of_mem hmem).finds hatRules
  have hsplit : lexemes t = before ++ head ++ [.symbol '\x7b'] ++ left := by
    rw [hls]
    simp
  have hleft : lexemes (textOf left) = left := lexemes_back hsplit
  have hall : (parse t).rules =
      rulesFrom [] 0 before ++ r :: rulesFrom [] stop ((splitBody 0 left).2.drop 1) := by
    change rulesFrom [] 0 (lexemes t) = _
    rw [rulesFrom, hread, List.filterMap_append, rulesFrom, hbefore.entries_eq]
    rfl
  obtain ⟨hfront, hbehind⟩ : rulesFrom [] 0 before = [] ∧
      rulesFrom [] stop ((splitBody 0 left).2.drop 1) = [] := by
    have hlength := congrArg List.length (hrules.symm.trans hall)
    simp only [List.length_append, List.length_cons, List.length_nil] at hlength
    exact ⟨List.eq_nil_of_length_eq_zero (by omega), List.eq_nil_of_length_eq_zero (by omega)⟩
  refine ⟨textOf before, textOf head, _, _, textOf left, ?_, isBlock_of_lexemes hleft, ?_,
    rules_of_rulesFrom_nil hfront (lexemes_front hls),
    rules_of_rulesFrom_nil hbehind (lexemes_behind_body hleft)⟩
  · rw [← textOf_lexemes t, hls, textOf_append, textOf_append, textOf_cons]
    rfl
  · rw [hrule, hbefore.stop_eq, Nat.zero_add]

/-- The text around the only rule, if nothing else has the rule's place. -/
theorem isLoneRule_iff {className lead gap body tail rest : Text}
    (hgap : ∀ c ∈ gap, isBlank c = true) (hblock : IsBlock body tail rest)
    (hrules : (parse (lead ++ (classSelector className ++ gap ++ '\x7b' :: rest))).rules = [r])
    (hselector : r.selector = classSelector className) (hplace : r.selectorSpan.start = size lead) :
    IsLoneRule (classSelector className)
        (lead ++ (classSelector className ++ gap ++ '\x7b' :: rest)) ↔
      IsTrivia lead ∧ IsTail tail := by
  constructor
  · rintro ⟨lead', gap', body', tail', rest', htext, hlead', hgap', hblock', htail'⟩
    have hfits : FitsPrelude (classSelector className ++ gap') :=
      (fitsPrelude_append (steady_classSelector className).fitsPrelude
        fun hstar => absurd (hgap' _ (List.mem_of_head? hstar)) (by decide)).mpr
        (isTrivia_of_blanks hgap').fitsPrelude
    obtain ⟨r', rs, hread, hplace'⟩ := exists_rule_of_isTrivia hlead' rfl hfits rest' 0
    rw [htext] at hrules
    obtain ⟨rfl, -⟩ := List.cons.inj (hread.symm.trans hrules)
    have hstart : size lead = size lead' := by
      rw [← hplace, hplace'.resolve_right fun hne => hne (by rw [hselector]; rfl), Nat.zero_add]
    obtain ⟨rfl, hbehind⟩ := eq_of_append_of_size htext hstart
    rw [List.append_assoc, List.append_assoc] at hbehind
    obtain ⟨-, rfl⟩ := eq_of_brace hgap hgap' (List.append_cancel_left hbehind)
    have htail : tail = tail' := hblock.eq.2.trans hblock'.eq.2.symm
    exact ⟨hlead', htail ▸ htail'⟩
  · rintro ⟨hlead, htail⟩
    exact ⟨lead, gap, body, tail, rest, rfl, hlead, hgap, hblock, htail⟩

/-- A ruleset that is advised to be a declaration is its rule, with text in front of it and behind it
in which no rule is read. It is nothing else exactly if this text is comments and white space. -/
theorem only_rule_surroundings {className css : Text} {ruleset : Ruleset}
    (hcheck : check className css = .ok ruleset)
    (hadvice : (ruleset.simplification? className).isSome = true) :
    ∃ lead gap body tail rest r,
      trim css = lead ++ (classSelector className ++ gap ++ '\x7b' :: rest) ∧
      (∀ c ∈ gap, isBlank c = true) ∧ IsBlock body tail rest ∧
      ruleset.rules = [r] ∧ r.declarations = trim body ∧
      (parse lead).rules = [] ∧ (parse tail).rules = [] ∧
      (IsLoneRule (classSelector className) (trim css) ↔ IsTrivia lead ∧ IsTail tail) := by
  obtain ⟨-, rfl, -⟩ := check_eq_ok_iff.mp hcheck
  obtain ⟨r, honly⟩ := Option.isSome_iff_exists.mp
    (by simpa [simplification?] using hadvice : (onlyRule? _ className).isSome = true)
  obtain ⟨hrules, hatRules, hselector⟩ := onlyRule?_spec honly
  obtain ⟨lead, prelude, body, tail, rest, htext, hblock, hrule, hlead, htail⟩ :=
    exists_sides hrules hatRules
  obtain ⟨gap, hprelude, hgap⟩ := exists_trimEnd_append prelude
  have hhead : trimEnd prelude = classSelector className := by
    rw [← hselector, hrule]
    rfl
  have hplace : r.selectorSpan.start = size lead := by
    rw [hrule]
    rfl
  rw [hprelude, hhead] at htext
  refine ⟨lead, gap, body, tail, rest, r, htext, hgap, hblock, hrules, ?_, hlead, htail, ?_⟩
  · rw [hrule]
    rfl
  · rw [htext] at hrules ⊢
    exact isLoneRule_iff hgap hblock hrules hselector hplace

theorem only_rule_surroundings_import :
    let css := "/* x */ .a \x7b color: red; \x7d\n@import url(y);".toList
    ∃ ruleset, check "a".toList css = .ok ruleset ∧
      (ruleset.simplification? "a".toList).isSome = true ∧
      ∃ lead gap body tail rest r,
        trim css = lead ++ (classSelector "a".toList ++ gap ++ '\x7b' :: rest) ∧
        (∀ c ∈ gap, isBlank c = true) ∧ IsBlock body tail rest ∧
        ruleset.rules = [r] ∧ r.declarations = trim body ∧
        (parse lead).rules = [] ∧ (parse tail).rules = [] ∧
        (IsLoneRule (classSelector "a".toList) (trim css) ↔ IsTrivia lead ∧ IsTail tail) := by
  intro css
  have hcheck : check "a".toList css = .ok (parse (trim css)) :=
    check_eq_ok_iff.mpr ⟨by decide +kernel, rfl, by decide +kernel⟩
  have hadvice : ((parse (trim css)).simplification? "a".toList).isSome = true := by
    decide +kernel
  exact ⟨_, hcheck, hadvice, only_rule_surroundings hcheck hadvice⟩

/-- A font that is defined in front of the rule goes unread, and unmentioned in the advice. -/
theorem not_isLoneRule_fontFace :
    let css := "@font-face \x7b font-family: x; \x7d\n.a \x7b font-family: x; \x7d".toList
    ∃ ruleset, check "a".toList css = .ok ruleset ∧
      (ruleset.simplification? "a".toList).isSome = true ∧
      ¬ IsLoneRule (classSelector "a".toList) (trim css) := by
  intro css
  have hcheck : check "a".toList css = .ok (parse (trim css)) :=
    check_eq_ok_iff.mpr ⟨by decide +kernel, rfl, by decide +kernel⟩
  have hadvice : ((parse (trim css)).simplification? "a".toList).isSome = true := by
    decide +kernel
  have hhead : (trim css).head? = some '@' := by decide +kernel
  refine ⟨_, hcheck, hadvice, ?_⟩
  rintro ⟨lead, gap, body, tail, rest, htext, hlead, -⟩
  rw [htext] at hhead
  cases hlead with
  | nil => exact absurd (Option.some.inj hhead) (by decide)
  | blank hc _ =>
      obtain rfl := Option.some.inj hhead
      exact absurd hc (by decide)
  | comment => exact absurd (Option.some.inj hhead) (by decide)

end Ruleset

end UtilityCss
