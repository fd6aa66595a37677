import UtilityCss.Proofs.Selector.ClassToken
import UtilityCss.Proofs.Selector.Token

/-!
# Simple selectors

A compound selector is cut into the simple selectors it consists of: classes, ids, attribute
selectors and pseudo-classes, each with all that belongs to it. The compound of a class token may
begin in front of the token, and all of it is its own.
-/

namespace UtilityCss.Selector

open Text Css

def afterSimple? : Text → Option Text
  | [] => none
  | c :: rest =>
      if isCombinator c then none
      else if c = '.' ∨ c = '#' then some (afterIdentifier rest)
      else if c = '[' then some (afterAttribute rest)
      else if c = ':' then afterPseudoClass? rest
      else if c = '\x5c' then some (afterEscape rest)
      else if c = '*' ∨ c = '&' then some rest
      else if isIdentifierChar c then some (afterIdentifier rest)
      else none

theorem exists_of_afterSimple? {t rest : Text} (h : afterSimple? t = some rest) :
    ∃ c u, t = c :: (u ++ rest) := by
  have hsplit : ∀ {c : Char} {tail : Text}, rest <:+ tail → ∃ d u, c :: tail = d :: (u ++ rest) := by
    rintro c _ ⟨u, rfl⟩
    exact ⟨c, u, rfl⟩
  revert h
  fun_cases afterSimple? t with
  | case1 => exact nofun
  | case2 => exact nofun
  | case3 c tail =>
      intro h
      cases h
      exact hsplit (afterIdentifier_suffix tail)
  | case4 tail =>
      intro h
      cases h
      exact hsplit (afterAttribute_suffix tail)
  | case5 => exact fun h => hsplit (suffix_of_afterPseudoClass? h)
  | case6 tail =>
      intro h
      cases h
      exact hsplit (afterEscape_suffix tail)
  | case7 =>
      intro h
      cases h
      exact hsplit (List.suffix_refl rest)
  | case8 c tail =>
      intro h
      cases h
      exact hsplit (afterIdentifier_suffix tail)
  | case9 => exact nofun

theorem length_of_afterSimple? {t rest : Text} (h : afterSimple? t = some rest) :
    rest.length < t.length := by
  obtain ⟨c, u, rfl⟩ := exists_of_afterSimple? h
  rw [List.length_cons, List.length_append]
  omega

/-- A compound ends where no simple selector starts. -/
theorem afterCompound_eq (t : Text) :
    afterCompound t = match afterSimple? t with
      | some rest => afterCompound rest
      | none => t := by
  cases t with
  | nil => rw [afterCompound, afterSimple?]
  | cons c rest =>
      rw [afterCompound, afterSimple?]
      repeat' split
      all_goals simp_all

def simples (t : Text) : List Text :=
  match _h : afterSimple? t with
  | some rest => upTo t rest :: simples rest
  | none => []
termination_by t.length
decreasing_by exact length_of_afterSimple? _h

theorem simples_of_some {t rest : Text} (h : afterSimple? t = some rest) :
    simples t = upTo t rest :: simples rest := by
  rw [simples]
  split
  next rest' h' =>
    rw [h, Option.some.injEq] at h'
    rw [h']
  next h' => rw [h] at h'; cases h'

theorem simples_of_none {t : Text} (h : afterSimple? t = none) : simples t = [] := by
  rw [simples]
  split
  next h' => rw [h] at h'; cases h'
  next => rfl

theorem upTo_of_afterSimple? {t rest : Text} (h : afterSimple? t = some rest) :
    upTo t rest ++ rest = t := by
  obtain ⟨c, u, rfl⟩ := exists_of_afterSimple? h
  exact upTo_append ⟨c :: u, rfl⟩

theorem exists_of_simples_cons {t q : Text} {qs : List Text} (h : simples t = q :: qs) :
    ∃ rest, afterSimple? t = some rest ∧ t = q ++ rest ∧ simples rest = qs ∧
      afterCompound rest = afterCompound t := by
  cases hsimple : afterSimple? t with
  | none =>
      rw [simples_of_none hsimple] at h
      cases h
  | some rest =>
      rw [simples_of_some hsimple] at h
      obtain ⟨rfl, rfl⟩ := List.cons.inj h
      refine ⟨rest, rfl, (upTo_of_afterSimple? hsimple).symm, rfl, ?_⟩
      rw [afterCompound_eq t, hsimple]

/-- The simple selectors and what follows the compound are all of the text. -/
theorem flatten_simples (t : Text) : (simples t).flatten ++ afterCompound t = t := by
  fun_induction simples t with
  | case1 t rest h ih =>
      rw [afterCompound_eq, h, List.flatten_cons, List.append_assoc]
      simp only [ih]
      exact upTo_of_afterSimple? h
  | case2 t h =>
      rw [afterCompound_eq, h]
      rfl

theorem upTo_afterCompound (t : Text) : upTo t (afterCompound t) = (simples t).flatten := by
  have hupTo := upTo_self_append (simples t).flatten (afterCompound t)
  rwa [flatten_simples] at hupTo

/-- Each of them is read where it stands. -/
theorem afterSimple?_of_simples {t q : Text} {before after : List Text}
    (h : simples t = before ++ q :: after) :
    afterSimple? (q ++ (after.flatten ++ afterCompound t)) =
      some (after.flatten ++ afterCompound t) := by
  induction before generalizing t with
  | nil =>
      obtain ⟨rest, hsimple, ht, rfl, hcompound⟩ := exists_of_simples_cons h
      rwa [← hcompound, flatten_simples rest, ← ht]
  | cons first before ih =>
      obtain ⟨rest, -, -, hrest, hcompound⟩ := exists_of_simples_cons h
      rw [← hcompound]
      exact ih hrest

def readsTo (token t : Text) : Bool :=
  if t = token then true
  else
    match _h : afterSimple? t with
    | some rest => readsTo token rest
    | none => false
termination_by t.length
decreasing_by exact length_of_afterSimple? _h

/-- The text from where the compound begins to which a token belongs: no simple selector further in
front leads to the token. -/
def ownCompound (token : Text) : Text → Text
  | [] => token
  | c :: t => if readsTo token (c :: t) then c :: t else ownCompound token t

def ownSimples (selector token : Text) : List Text :=
  simples (ownCompound token selector)

theorem exists_simples_of_readsTo {token t : Text} (h : readsTo token t = true) :
    ∃ lead, simples t = lead ++ simples token := by
  fun_induction readsTo token t with
  | case1 => exact ⟨[], rfl⟩
  | case2 t _ rest hsimple ih =>
      obtain ⟨lead, hlead⟩ := ih h
      exact ⟨upTo t rest :: lead, by rw [simples_of_some hsimple, hlead, List.cons_append]⟩
  | case3 => cases h

/-- What the token starts is part of its compound. -/
theorem exists_ownSimples_eq (selector token : Text) :
    ∃ lead, ownSimples selector token = lead ++ simples token := by
  unfold ownSimples
  induction selector with
  | nil => exact ⟨[], rfl⟩
  | cons c t ih =>
      rw [ownCompound]
      split
      next hreads => exact exists_simples_of_readsTo hreads
      next => exact ih

/-! ## Pseudo-classes -/

structure IsPseudoName (name : Text) : Prop where
  nonempty : name ≠ []
  chars : ∀ c ∈ name, isIdentifierChar c = true
  element : toLowerAscii name ∉ singleColonElements

/-- What a colon may stand in front of to make a pseudo-class; there may be escapes in it. -/
structure NamesPseudoClass (name : Text) : Prop where
  nonempty : name ≠ []
  identifier : IsIdentifier name
  element : toLowerAscii name ∉ singleColonElements

inductive IsPseudoClass : Text → Prop where
  | bare {name : Text} (hname : IsPseudoName name) : IsPseudoClass (':' :: name)
  | call {name inner : Text} (hname : IsPseudoName name)
      (hclosed : ∀ rest, afterParentheses 1 (inner ++ ')' :: rest) = rest) :
      IsPseudoClass (':' :: (name ++ '(' :: (inner ++ [')'])))

variable {name t s : Text}

theorem IsPseudoName.names (h : IsPseudoName name) : NamesPseudoClass name :=
  ⟨h.nonempty, .of_chars h.chars, h.element⟩

theorem afterParentheses_open (t : Text) :
    afterParentheses 0 ('(' :: t) = afterParentheses 1 t := by
  rw [afterParentheses, if_neg (by decide), if_neg (by decide), if_neg (by decide), if_pos rfl]

theorem NamesPseudoClass.head?_append_ne (h : NamesPseudoClass name) (t : Text) :
    (name ++ t).head? ≠ some ':' := by
  intro hcolon
  cases h.identifier with
  | nil => exact h.nonempty rfl
  | char hc =>
      rw [List.cons_append, List.head?_cons, Option.some.injEq] at hcolon
      exact absurd (hcolon ▸ hc) (by decide)
  | escape => exact absurd (Option.some.inj hcolon) (by decide)
  | code => exact absurd (Option.some.inj hcolon) (by decide)

/-- Behind a name that ends, a pseudo-class has no more than an argument. -/
theorem afterPseudoClass?_append (h : NamesPseudoClass name) (ht : continuesName t = false) :
    afterPseudoClass? (name ++ t) =
      if t.head? = some '(' then some (afterParentheses 0 t) else some t := by
  have hend : afterIdentifier (name ++ t) = t := by
    rw [h.identifier.afterIdentifier_append, afterIdentifier_eq_self ht]
  rw [afterPseudoClass?, if_neg (h.head?_append_ne t)]
  simp only [hend, upTo_self_append]
  rw [if_neg h.element]

/-- Whatever follows a name, a pseudo-class ends behind it, and behind all that continues it. -/
theorem suffix_of_afterPseudoClass?_append (h : NamesPseudoClass name) {left : Text}
    (hleft : afterPseudoClass? (name ++ t) = some left) : left <:+ afterIdentifier t := by
  rw [afterPseudoClass?, if_neg (h.head?_append_ne t)] at hleft
  simp only [h.identifier.afterIdentifier_append] at hleft
  split at hleft
  · cases hleft
  · split at hleft
    · cases hleft
      exact afterParentheses_suffix 0 _
    · cases hleft
      exact List.suffix_refl _

theorem afterSimple?_colon (t : Text) : afterSimple? (':' :: t) = afterPseudoClass? t := by
  rw [afterSimple?, if_neg (by decide), if_neg (by decide), if_neg (by decide), if_pos rfl]

theorem afterSimple?_call {inner : Text} (h : NamesPseudoClass name)
    (hclosed : ∀ rest, afterParentheses 1 (inner ++ ')' :: rest) = rest) (t : Text) :
    afterSimple? (':' :: (name ++ '(' :: (inner ++ [')'])) ++ t) = some t := by
  have hsplit : ':' :: (name ++ '(' :: (inner ++ [')'])) ++ t =
      ':' :: (name ++ '(' :: (inner ++ ')' :: t)) := by simp
  rw [hsplit, afterSimple?_colon, afterPseudoClass?_append h rfl, List.head?_cons, if_pos rfl,
    afterParentheses_open, hclosed]

theorem afterSimple?_bare (h : NamesPseudoClass name) (ht : continuesName t = false) :
    afterSimple? (':' :: name ++ t) =
      if t.head? = some '(' then some (afterParentheses 0 t) else some t := by
  rw [List.cons_append, afterSimple?_colon, afterPseudoClass?_append h ht]

/-- A name that goes on with an escape takes the backslash along. -/
theorem length_of_afterSimple?_escape (h : NamesPseudoClass name) {left : Text}
    (hread : afterSimple? (':' :: name ++ '\x5c' :: t) = some left) : left.length ≤ t.length := by
  rw [List.cons_append, afterSimple?_colon] at hread
  have hsuffix := suffix_of_afterPseudoClass?_append h hread
  rw [afterIdentifier, if_pos rfl] at hsuffix
  exact ((hsuffix.trans (afterIdentifier_suffix _)).trans (afterEscape_suffix t)).length_le

theorem IsPseudoName.getLast?_ne (h : IsPseudoName name) : (':' :: name).getLast? ≠ some ')' := by
  intro hlast
  rcases List.mem_cons.mp (List.mem_of_getLast? hlast) with hcolon | hname
  · exact absurd hcolon (by decide)
  · exact absurd (h.chars _ hname) (by decide)

/-- In front of a parenthesis, only a pseudo-class with an argument is a simple selector. -/
theorem getLast?_of_round (hs : IsPseudoClass s)
    (hread : afterSimple? (s ++ t) = some t) (hround : t.head? = some '(') :
    s.getLast? = some ')' := by
  cases hs with
  | @call name inner =>
      have hsplit : ':' :: (name ++ '(' :: (inner ++ [')'])) = ':' :: (name ++ '(' :: inner) ++ [')'] :=
        by simp
      rw [hsplit, List.getLast?_concat]
  | @bare name hname =>
      obtain ⟨inner, rfl⟩ := List.head?_eq_some_iff.mp hround
      rw [afterSimple?_bare hname.names rfl, if_pos hround, afterParentheses_open,
        Option.some.injEq] at hread
      have hlength := (afterParentheses_suffix 1 inner).length_le
      rw [hread, List.length_cons] at hlength
      exact absurd hlength (Nat.not_succ_le_self _)

/-- A simple selector that begins with a pseudo-class behind which no name goes on is this
pseudo-class, or the name goes on with an escape. -/
theorem eq_or_runsOn (hs : IsPseudoClass s) {q behind rest left : Text}
    (hq : afterSimple? (q ++ (behind ++ left)) = some (behind ++ left))
    (heq : q ++ behind = s ++ rest) (hname : rest.head?.any isIdentifierChar = false)
    (hround : rest.head? = some '(' → s.getLast? = some ')') :
    q = s ∨ s ++ ['\x5c'] <+: q := by
  have hbehind : rest = behind → q = s := by
    rintro rfl
    exact List.append_cancel_right heq
  have htext : q ++ (behind ++ left) = s ++ (rest ++ left) := by
    rw [← List.append_assoc, heq, List.append_assoc]
  rw [htext] at hq
  cases hs with
  | call hpseudo hclosed =>
      rw [afterSimple?_call hpseudo.names hclosed, Option.some.injEq] at hq
      exact Or.inl (hbehind (List.append_cancel_right hq))
  | @bare name hpseudo =>
      cases rest with
      | nil =>
          rw [List.cons_append, afterSimple?_colon] at hq
          have hlength := ((suffix_of_afterPseudoClass?_append hpseudo.names hq).trans
            (afterIdentifier_suffix left)).length_le
          rw [List.length_append] at hlength
          exact Or.inl (hbehind (List.eq_nil_of_length_eq_zero (by omega)).symm)
      | cons c rest =>
          by_cases hc : c = '\x5c'
          · rw [hc] at hq
            have hlength : (behind ++ left).length ≤ (rest ++ left).length :=
              length_of_afterSimple?_escape hpseudo.names hq
            have hlengths := congrArg List.length heq
            simp only [List.length_append, List.length_cons] at hlength hlengths
            have hprefix : ':' :: name ++ ['\x5c'] <+: q ++ behind := by
              rw [heq, hc]
              exact ⟨rest, by simp⟩
            refine Or.inr (List.prefix_of_prefix_length_le hprefix (List.prefix_append q behind) ?_)
            simp only [List.length_append, List.length_cons, List.length_nil]
            omega
          · have hstop : continuesName (c :: rest ++ left) = false := by
              rw [List.head?_cons, Option.any_some] at hname
              simp [continuesName, hname, hc]
            have hargument : (c :: rest ++ left).head? ≠ some '(' := fun hhead =>
              hpseudo.getLast?_ne (hround hhead)
            rw [afterSimple?_bare hpseudo.names hstop, if_neg hargument, Option.some.injEq] at hq
            exact Or.inl (hbehind (List.append_cancel_right hq))

end UtilityCss.Selector
