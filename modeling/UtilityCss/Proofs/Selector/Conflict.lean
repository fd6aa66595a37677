import UtilityCss.Modifier.Table
import UtilityCss.Proofs.Selector.Members
import UtilityCss.Proofs.Selector.Simple

/-!
# States that a selector has already

A requested state is left out where the compound of the class has it already. This is looked up as
text, from the class token to the end of its compound, so that it matters where in the compound
this text stands: as a pseudo-class of its own, inside of another simple selector, or in front of
what continues its name.
-/

namespace UtilityCss.Selector

open Text Css

variable {s t front rest : Text} {qs : List Text} {skip : Nat}

/-- The occurrences of `s` that a search comes upon, each behind the end of the one before, as the
texts in front of them and behind them. The first `skip` characters belong to an occurrence already
seen, `front` stands in front of them. -/
def occurrencesFrom (s : Text) (skip : Nat) (front : Text) : Text → List (Text × Text)
  | [] => []
  | c :: t =>
      match skip with
      | skip + 1 => occurrencesFrom s skip (front ++ [c]) t
      | 0 =>
          match after? s (c :: t) with
          | some rest => (front, rest) :: occurrencesFrom s (s.length - 1) (front ++ [c]) t
          | none => occurrencesFrom s 0 (front ++ [c]) t

def occurrences (s t : Text) : List (Text × Text) :=
  occurrencesFrom s 0 [] t

theorem eq_of_mem_occurrencesFrom {o : Text × Text} (h : o ∈ occurrencesFrom s skip front t) :
    front ++ t = o.1 ++ (s ++ o.2) := by
  induction t generalizing skip front with
  | nil => cases h
  | cons c t ih =>
      have hsplit : front ++ c :: t = front ++ [c] ++ t := by simp
      unfold occurrencesFrom at h
      split at h
      · rw [hsplit]
        exact ih h
      · split at h
        next rest hafter =>
          rcases List.mem_cons.mp h with rfl | h
          · rw [eq_append_of_after? hafter]
          · rw [hsplit]
            exact ih h
        next =>
          rw [hsplit]
          exact ih h

theorem hasLinkFrom_eq_any (s : Text) (skip : Nat) (front t : Text) :
    hasLinkFrom s skip front.getLast? t =
      (occurrencesFrom s skip front t).any fun o => isWholeLink s o.1.getLast? o.2 := by
  induction t generalizing skip front with
  | nil => rfl
  | cons c t ih =>
      have hnext := fun k => ih k (front ++ [c])
      simp only [List.getLast?_concat] at hnext
      unfold hasLinkFrom occurrencesFrom
      cases skip with
      | succ skip => exact hnext skip
      | zero =>
          cases after? s (c :: t) with
          | some rest => simp only [List.any_cons, hnext]
          | none => exact hnext 0

theorem hasLink_iff_occurrence (hs : s ≠ []) :
    hasLink s t = true ↔ ∃ o ∈ occurrences s t, isWholeLink s o.1.getLast? o.2 = true := by
  have hsearch := hasLinkFrom_eq_any s 0 [] t
  rw [List.getLast?_nil] at hsearch
  rw [hasLink, hsearch, List.isEmpty_eq_false_iff.mpr hs, Bool.not_false, Bool.true_and,
    List.any_eq_true, occurrences]

theorem IsPseudoClass.exists_cons (hs : IsPseudoClass s) :
    ∃ c u, s = ':' :: c :: u ∧ isIdentifierChar c = true := by
  have hname : ∀ {name t : Text}, IsPseudoName name →
      ∃ c u, ':' :: (name ++ t) = ':' :: c :: u ∧ isIdentifierChar c = true := by
    intro name t h
    obtain ⟨c, u, rfl⟩ := List.exists_cons_of_ne_nil h.nonempty
    exact ⟨c, u ++ t, rfl, h.chars c List.mem_cons_self⟩
  cases hs with
  | @bare name h =>
      have hbare := hname (t := []) h
      rwa [List.append_nil] at hbare
  | call h => exact hname h

theorem IsPseudoClass.ne_nil (hs : IsPseudoClass s) : s ≠ [] := by
  obtain ⟨c, u, rfl, -⟩ := hs.exists_cons
  exact List.cons_ne_nil _ _

theorem isWholeLink_iff (hs : IsPseudoClass s) (previous : Option Char) (rest : Text) :
    isWholeLink s previous rest = true ↔ previous ≠ some ':' ∧
      rest.head?.any isIdentifierChar = false ∧
      (rest.head? = some '(' → s.getLast? = some ')') := by
  obtain ⟨c, u, rfl, hc⟩ := hs.exists_cons
  have hcolon : c ≠ ':' := by
    rintro rfl
    exact absurd hc (by decide)
  have hsingle : after? [':', ':'] (':' :: c :: u) = none := by
    simp [after?, Ne.symm hcolon]
  unfold isWholeLink
  rw [hsingle]
  cases rest.head? with
  | none => simp
  | some d => by_cases hd : d = '(' <;> simp [hd]

/-! ## Where a state is found -/

/-- The state is one of the simple selectors; there is no colon right in front of it, and no
character of a name right behind it. -/
def Visible (s : Text) (qs : List Text) : Prop :=
  ∃ before after, qs = before ++ s :: after ∧
    (before.flatten, after.flatten) ∈ occurrences s qs.flatten ∧
    before.flatten.getLast? ≠ some ':' ∧ after.flatten.head?.any isIdentifierChar = false

/-- The text of the state starts inside a simple selector, as in an argument, the value of an
attribute or an escaped name, between such characters that it looks like a pseudo-class. -/
def WrittenInside (s : Text) (qs : List Text) : Prop :=
  ∃ before u v after rest, qs = before ++ (u ++ v) :: after ∧ u ≠ [] ∧ v ≠ [] ∧
    (before.flatten ++ u, rest) ∈ occurrences s qs.flatten ∧
    isWholeLink s (before.flatten ++ u).getLast? rest = true

def RunsOn (s : Text) (qs : List Text) : Prop :=
  ∃ before q after rest, qs = before ++ q :: after ∧ s ++ ['\x5c'] <+: q ∧
    (before.flatten, rest) ∈ occurrences s qs.flatten ∧ before.flatten.getLast? ≠ some ':'

def Misread (s : Text) (qs : List Text) : Prop :=
  WrittenInside s qs ∨ RunsOn s qs

theorem Visible.mem (h : Visible s qs) : s ∈ qs := by
  obtain ⟨before, after, rfl, -⟩ := h
  simp

/-- A place in a joined text lies in one of the pieces. -/
theorem exists_piece_of_append (h : front ++ t = qs.flatten) (ht : t ≠ []) :
    ∃ before u v after, qs = before ++ (u ++ v) :: after ∧ front = before.flatten ++ u ∧
      v ≠ [] ∧ t = v ++ after.flatten := by
  induction qs generalizing front with
  | nil => exact absurd (List.append_eq_nil_iff.mp h).2 ht
  | cons q qs ih =>
      rw [List.flatten_cons] at h
      rcases List.append_eq_append_iff.mp h with ⟨v, hq, hrest⟩ | ⟨front', hfront, hrest⟩
      · by_cases hv : v = []
        · -- The place is the end of the piece, hence in the next one.
          rw [hv, List.append_nil] at hq
          have hnext : [] ++ t = qs.flatten := by rw [hrest, hv, List.nil_append, List.nil_append]
          obtain ⟨before, u, v, after, rfl, hu, hne, heq⟩ := ih hnext
          refine ⟨q :: before, u, v, after, rfl, ?_, hne, heq⟩
          rw [List.flatten_cons, List.append_assoc, ← hu, List.append_nil, hq]
        · exact ⟨[], front, v, qs, by rw [hq]; rfl, rfl, hv, hrest⟩
      · obtain ⟨before, u, v, after, rfl, rfl, hne, heq⟩ := ih hrest.symm
        refine ⟨q :: before, u, v, after, rfl, ?_, hne, heq⟩
        rw [hfront, List.flatten_cons, List.append_assoc]

/-- An occurrence that looks like a pseudo-class of the compound is one, or it is misread. -/
theorem visible_or_misread (hs : IsPseudoClass s) {token : Text} {o : Text × Text}
    (ho : o ∈ occurrences s (simples token).flatten)
    (hwhole : isWholeLink s o.1.getLast? o.2 = true) :
    Visible s (simples token) ∨ Misread s (simples token) := by
  obtain ⟨front, rest⟩ := o
  have htext : (simples token).flatten = front ++ (s ++ rest) := eq_of_mem_occurrencesFrom ho
  have hne : s ++ rest ≠ [] := List.append_ne_nil_of_left_ne_nil hs.ne_nil rest
  obtain ⟨before, u, v, after, hqs, rfl, hv, hbehind⟩ := exists_piece_of_append htext.symm hne
  by_cases hu : u = []
  · obtain ⟨hprevious, hname, hround⟩ := (isWholeLink_iff hs _ rest).mp hwhole
    rw [hu, List.append_nil] at hprevious ho
    rw [hu, List.nil_append] at hqs
    rcases eq_or_runsOn hs (afterSimple?_of_simples hqs) hbehind.symm hname hround with rfl | hruns
    · have hrest := List.append_cancel_left hbehind
      rw [hrest] at ho hname
      exact Or.inl ⟨before, after, hqs, ho, hprevious, hname⟩
    · exact Or.inr (Or.inr ⟨before, v, after, rest, hqs, hruns, ho, hprevious⟩)
  · exact Or.inr (Or.inl ⟨before, u, v, after, rest, hqs, hu, hv, ho, hwhole⟩)

/-- The look-up finds a state where it is visible or misread. -/
theorem hasLink_iff (hs : IsPseudoClass s) (token : Text) :
    hasLink s (simples token).flatten = true ↔
      Visible s (simples token) ∨ Misread s (simples token) := by
  rw [hasLink_iff_occurrence hs.ne_nil]
  constructor
  · rintro ⟨o, ho, hwhole⟩
    exact visible_or_misread hs ho hwhole
  · rintro (⟨before, after, hqs, ho, hprevious, hname⟩ |
      ⟨before, u, v, after, rest, -, -, -, ho, hwhole⟩ |
      ⟨before, q, after, rest, hqs, ⟨tail, rfl⟩, ho, hprevious⟩)
    · refine ⟨_, ho, (isWholeLink_iff hs _ _).mpr ⟨hprevious, hname, fun hround => ?_⟩⟩
      refine getLast?_of_round hs (afterSimple?_of_simples hqs) ?_
      rw [List.head?_append, hround, Option.some_or]
    · exact ⟨_, ho, hwhole⟩
    · refine ⟨_, ho, (isWholeLink_iff hs _ _).mpr ⟨hprevious, ?_⟩⟩
      have htext : (simples token).flatten = before.flatten ++ (s ++ rest) :=
        eq_of_mem_occurrencesFrom ho
      have hrest : rest = '\x5c' :: (tail ++ after.flatten) := by
        rw [hqs, List.flatten_append, List.flatten_cons, List.append_assoc, List.append_assoc]
          at htext
        exact (List.append_cancel_left (List.append_cancel_left htext)).symm
      rw [hrest]
      exact ⟨rfl, nofun⟩

theorem not_misread_of_absent (h : occurrences s qs.flatten = []) : ¬ Misread s qs := by
  rintro (⟨_, _, _, _, _, -, -, -, ho, -⟩ | ⟨_, _, _, _, -, -, ho, -⟩)
  · rw [h] at ho
    exact absurd ho List.not_mem_nil
  · rw [h] at ho
    exact absurd ho List.not_mem_nil

theorem isPseudoClass_of_mem_states {m : Modifier} (h : m ∈ Modifier.states) :
    IsPseudoClass m.css := by
  have htable : ∀ m ∈ Modifier.states,
      let name := (m.css.drop 1).takeWhile isIdentifierChar
      let inner := (m.css.drop (name.length + 2)).dropLast
      name ≠ [] ∧ toLowerAscii name ∉ singleColonElements ∧
        inner.all (fun c => isOrdinary c && c != ',') = true ∧
        (m.css = ':' :: name ∨ m.css = ':' :: (name ++ '(' :: (inner ++ [')']))) := by
    decide +kernel
  obtain ⟨hne, helement, hinner, hcss⟩ := htable m h
  have hname : IsPseudoName ((m.css.drop 1).takeWhile isIdentifierChar) :=
    ⟨hne, List.all_eq_true.mp List.all_takeWhile, helement⟩
  rcases hcss with hcss | hcss
  · rw [hcss]
    exact .bare hname
  · have hnested : Nested false (m.css.drop _).dropLast :=
      .of_ordinary fun c hc => by simpa using List.all_eq_true.mp hinner c hc
    rw [hcss]
    exact .call hname hnested.afterParentheses_closing

/-! ## Exact changes -/

/-- The change reports those of the requested states that the compound of the token has. All others
come behind the compound, in the order of the request, and a pseudo-element behind them. -/
structure Exact (change : Change) (selector token : Text) : Prop where
  found : (modify change selector).found = true
  reported : (modify change selector).skipped.filter (·.reason = .stateConflict) =
    ((links change.states).filter (· ∈ ownSimples selector token)).map
      fun state => ⟨.stateConflict, selector, state⟩
  placed : ∃ front behind element,
    selector = front ++ token ∧
    token = '.' :: (escape change.className ++ (behind ++ afterCompound token)) ∧
    (modify change selector).selector = front ++ '.' :: (change.newName ++ (behind ++
      (((links change.states).filter (· ∉ ownSimples selector token)).flatten ++
        (element ++ afterCompound token)))) ∧
    (element = [] ∨ element = change.pseudoElement)

variable {change : Change} {selector token : Text}

theorem splitStates_eq (compound states : Text) :
    splitStates compound states =
      ((links states).filter (hasLink · compound),
        (links states).filter fun state => !hasLink state compound) := by
  rw [splitStates, List.partition_eq_filter_filter]
  rfl

/-- A change is exact if the look-up finds the states of the compound and no others. -/
theorem exact_iff_hasLink (htoken : findClassToken (escape change.className) selector = some token) :
    Exact change selector token ↔ ∀ s ∈ links change.states,
      (hasLink s (simples token).flatten = true ↔ s ∈ ownSimples selector token) := by
  obtain ⟨front, behind, element, hfront, htext, hselector, helement, hskipped⟩ :=
    modify_parts htoken
  rw [upTo_afterCompound, splitStates_eq] at hselector hskipped
  dsimp only at hselector hskipped
  constructor
  · intro hexact s hs
    have hreported := hexact.reported
    rw [hskipped] at hreported
    have hfilter := (List.map_inj_right fun _ _ heq => (Skipped.mk.inj heq).2.2).mp hreported
    have hmem : s ∈ (links change.states).filter (hasLink · (simples token).flatten) ↔
        s ∈ (links change.states).filter (· ∈ ownSimples selector token) := by rw [hfilter]
    simpa [List.mem_filter, hs] using hmem
  · intro hexact
    have hpresent : (links change.states).filter (hasLink · (simples token).flatten) =
        (links change.states).filter (· ∈ ownSimples selector token) :=
      List.filter_congr fun s hs => by
        rw [Bool.eq_iff_iff, decide_eq_true_iff]
        exact hexact s hs
    have hadded : (links change.states).filter (fun s => !hasLink s (simples token).flatten) =
        (links change.states).filter (· ∉ ownSimples selector token) :=
      List.filter_congr fun s hs => by
        rw [Bool.eq_iff_iff, decide_eq_true_iff, Bool.not_eq_true', Bool.eq_false_iff]
        exact not_congr (hexact s hs)
    rw [hpresent] at hskipped
    rw [hadded] at hselector
    have hfound : (modify change selector).found = true := by
      rw [found_modify, hasClassToken, htoken]
      rfl
    exact ⟨hfound, hskipped, front, behind, element, hfront, htext, hselector, helement⟩

/-- To request pseudo-classes is exact if each of them is looked up rightly: one that the compound
of the class has stands visibly behind the class, or is misread there; one that it has not is not
misread. -/
theorem modify_exact_iff (htoken : findClassToken (escape change.className) selector = some token)
    (hstates : ∀ s ∈ links change.states, IsPseudoClass s) :
    Exact change selector token ↔ ∀ s ∈ links change.states,
      (s ∈ ownSimples selector token → Visible s (simples token) ∨ Misread s (simples token)) ∧
      (s ∉ ownSimples selector token → ¬ Misread s (simples token)) := by
  obtain ⟨lead, hown⟩ := exists_ownSimples_eq selector token
  have hvisible : ∀ s, Visible s (simples token) → s ∈ ownSimples selector token := by
    intro s hs
    rw [hown]
    exact List.mem_append_right lead hs.mem
  rw [exact_iff_hasLink htoken]
  refine forall₂_congr fun s hs => ?_
  rw [hasLink_iff (hstates s hs) token]
  constructor
  · intro h
    exact ⟨h.mpr, fun hout hmisread => hout (h.mp (Or.inr hmisread))⟩
  · rintro ⟨hin, hout⟩
    refine ⟨?_, hin⟩
    rintro (hs | hmisread)
    · exact hvisible s hs
    · exact Decidable.byContradiction fun hnot => hout hnot hmisread

/-- One state is there already, the other one is not. -/
theorem modify_exact_card :
    let change : Change :=
      ⟨"card".toList, "focus\x5c:even\x5c:card".toList, ":focus:nth-child(even)".toList, []⟩
    let selector := "nav > b.card:not(.x > :hover):focus[y] i".toList
    let token := ".card:not(.x > :hover):focus[y] i".toList
    findClassToken (escape change.className) selector = some token ∧
      (∀ s ∈ links change.states, IsPseudoClass s) ∧
      ownSimples selector token =
        ["b", ".card", ":not(.x > :hover)", ":focus", "[y]"].map String.toList ∧
      Exact change selector token := by
  intro change selector token
  have htoken : findClassToken (escape change.className) selector = some token := by
    decide +kernel
  have hlinks : links change.states = [":focus".toList, ":nth-child(even)".toList] := by
    decide +kernel
  have hsimples : simples token =
      [".card", ":not(.x > :hover)", ":focus", "[y]"].map String.toList := by
    decide +kernel
  have hown : ownSimples selector token =
      ["b", ".card", ":not(.x > :hover)", ":focus", "[y]"].map String.toList := by
    decide +kernel
  have hstates : ∀ s ∈ links change.states, IsPseudoClass s := by
    rw [hlinks, List.forall_mem_cons, List.forall_mem_singleton]
    exact ⟨isPseudoClass_of_mem_states (m := ⟨.state, "focus".toList, ":focus".toList⟩)
        (by decide +kernel),
      isPseudoClass_of_mem_states (m := ⟨.state, "even".toList, ":nth-child(even)".toList⟩)
        (by decide +kernel)⟩
  refine ⟨htoken, hstates, hown, (modify_exact_iff htoken hstates).mpr ?_⟩
  rw [hlinks, hown, hsimples, List.forall_mem_cons, List.forall_mem_singleton]
  refine ⟨⟨fun _ => Or.inl ?_, fun hnot => absurd (by decide +kernel) hnot⟩,
    ⟨fun hin => absurd hin (by decide +kernel), fun _ => not_misread_of_absent (by decide +kernel)⟩⟩
  exact ⟨[".card".toList, ":not(.x > :hover)".toList], ["[y]".toList], rfl, by decide +kernel,
    by decide +kernel, by decide +kernel⟩

/-- In an escaped name, the text of a state is misread: the state is lost. -/
theorem modify_not_exact_escapedName :
    let change : Change := ⟨"a".toList, "hover\x5c:a".toList, ":hover".toList, []⟩
    let selector := ".a.b\x5c:hover".toList
    findClassToken (escape change.className) selector = some selector ∧
      IsPseudoClass ":hover".toList ∧ links change.states = [":hover".toList] ∧
      ownSimples selector selector = [".a".toList, ".b\x5c:hover".toList] ∧
      modify change selector =
        ⟨".hover\x5c:a.b\x5c:hover".toList, true,
          [⟨.stateConflict, selector, ":hover".toList⟩]⟩ ∧
      ¬ Exact change selector selector := by
  intro change selector
  have hstate := isPseudoClass_of_mem_states (m := ⟨.state, "hover".toList, ":hover".toList⟩)
    (by decide +kernel)
  refine ⟨by decide +kernel, hstate, by decide +kernel, by decide +kernel, by decide +kernel, ?_⟩
  exact fun hexact => absurd hexact.reported (by decide +kernel)

end UtilityCss.Selector
