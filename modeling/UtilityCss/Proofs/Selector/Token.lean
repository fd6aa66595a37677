import UtilityCss.Proofs.Selector.Escape
import UtilityCss.Selector.Modify

/-!
# The parts of a changed selector

A class token is a dot, the escaped name and what follows it. A selector with the token falls into
a front, the token's dot and name, the end of its compound, and a rest; the change puts another name
there and inserts states and a pseudo-element in front of the rest.
-/

namespace UtilityCss.Selector

open Text Css

theorem findClassToken_spec {escaped t token : Text} (h : findClassToken escaped t = some token) :
    token <:+ t ∧ ∃ behind, token = '.' :: (escaped ++ behind) := by
  fun_induction findClassToken escaped t with
  | case1 => cases h
  | case2 rest hstarts =>
      rw [Option.some.injEq] at h
      obtain ⟨behind, hafter, -⟩ := (Option.any_eq_true _ _).mp hstarts
      rw [← h]
      exact ⟨List.suffix_refl _, behind, by rw [eq_append_of_after? hafter]⟩
  | case3 rest _ ih =>
      obtain ⟨hsuffix, hbehind⟩ := ih h
      exact ⟨(hsuffix.trans (afterIdentifier_suffix rest)).trans (List.suffix_cons _ _), hbehind⟩
  | case4 c rest _ ih =>
      obtain ⟨hsuffix, hbehind⟩ := ih h
      exact ⟨(hsuffix.trans (afterUnit_suffix c rest)).trans (List.suffix_cons _ _), hbehind⟩

theorem found_modify (change : Change) (s : Text) :
    (modify change s).found = hasClassToken (escape change.className) s := by
  unfold modify hasClassToken
  cases findClassToken (escape change.className) s with
  | none => rfl
  | some token =>
      simp only
      split <;> rfl

theorem modify_of_not_found {change : Change} {s : Text}
    (h : findClassToken (escape change.className) s = none) : (modify change s).selector = s := by
  unfold modify
  rw [h]

theorem afterCompound_suffix (t : Text) : afterCompound t <:+ t := by
  fun_induction afterCompound t with
  | case1 => exact List.suffix_refl _
  | case2 => exact List.suffix_refl _
  | case3 c rest _ _ ih =>
      exact (ih.trans (afterIdentifier_suffix rest)).trans (List.suffix_cons _ _)
  | case4 rest _ _ ih =>
      exact (ih.trans (afterAttribute_suffix rest)).trans (List.suffix_cons _ _)
  | case5 rest left h _ _ _ ih =>
      exact (ih.trans (suffix_of_afterPseudoClass? h)).trans (List.suffix_cons _ _)
  | case6 => exact List.suffix_refl _
  | case7 rest _ _ _ _ ih =>
      exact (ih.trans (afterEscape_suffix rest)).trans (List.suffix_cons _ _)
  | case8 c rest _ _ _ _ _ _ ih => exact ih.trans (List.suffix_cons _ _)
  | case9 c rest _ _ _ _ _ _ _ ih =>
      exact (ih.trans (afterIdentifier_suffix rest)).trans (List.suffix_cons _ _)
  | case10 => exact List.suffix_refl _

/-- The compound that a class token starts has the whole of its name. -/
theorem afterCompound_token (name t : Text) : afterCompound ('.' :: (escape name ++ t)) <:+ t := by
  rw [afterCompound, if_neg (by decide), if_pos (Or.inl rfl), afterIdentifier_escape_append]
  exact (afterCompound_suffix _).trans (afterIdentifier_suffix t)

/-- A selector with the class, as a front, a dot, the name, the end of the compound and a rest. -/
theorem exists_token_parts {name selector token : Text}
    (h : findClassToken (escape name) selector = some token) :
    ∃ front behind, selector = front ++ token ∧
      token = '.' :: (escape name ++ (behind ++ afterCompound token)) ∧
      upTo token (afterCompound token) = '.' :: (escape name ++ behind) := by
  obtain ⟨⟨front, hfront⟩, u, hu⟩ := findClassToken_spec h
  have hrest := afterCompound_token name u
  rw [← hu] at hrest
  obtain ⟨behind, hbehind⟩ := hrest
  have hparts : token = '.' :: (escape name ++ (behind ++ afterCompound token)) := by
    rw [hbehind]
    exact hu
  have hcompound := upTo_self_append ('.' :: (escape name ++ behind)) (afterCompound token)
  rw [List.cons_append, List.append_assoc, ← hparts] at hcompound
  exact ⟨front, behind, hfront.symm, hparts, hcompound⟩

/-- The end of a compound, behind the dot and the name of its token. -/
theorem drop_compound {name compound behind : Text}
    (h : compound = '.' :: (escape name ++ behind)) :
    compound.drop ((escape name).length + 1) = behind := by
  rw [h, List.drop_succ_cons, List.drop_left]

theorem mem_added {compound states l : Text} (h : l ∈ (splitStates compound states).2) :
    l ∈ links states := by
  unfold splitStates at h
  rw [List.partition_eq_filter_filter] at h
  exact (List.mem_filter.mp h).1

/-- What a change puts in front of the rest of a selector: the states that the compound lacks, and
the pseudo-element unless it is there. -/
def Change.inserted (change : Change) (token rest : Text) : Text :=
  (splitStates (upTo token rest) change.states).2.flatten ++
    if hasPseudoElement token rest change.pseudoElement then [] else change.pseudoElement

/-- The parts of a changed selector. -/
theorem selector_modify {change : Change} {selector token front behind : Text}
    (htoken : findClassToken (escape change.className) selector = some token)
    (hselector : selector = front ++ token)
    (hcompound : upTo token (afterCompound token) = '.' :: (escape change.className ++ behind)) :
    (modify change selector).selector = front ++ '.' :: (change.newName ++
      (behind ++ (change.inserted token (afterCompound token) ++ afterCompound token))) := by
  have hunchanged : upTo selector token = front := by rw [hselector, upTo_self_append]
  simp only [modify, htoken, hunchanged, drop_compound hcompound, Change.inserted]
  split <;> simp

/-- A selector with the class, what the change makes of it, and the states that are reported. -/
theorem modify_parts {change : Change} {s token : Text}
    (htoken : findClassToken (escape change.className) s = some token) :
    let split := splitStates (upTo token (afterCompound token)) change.states
    ∃ front behind element,
      s = front ++ token ∧
      token = '.' :: (escape change.className ++ (behind ++ afterCompound token)) ∧
      (modify change s).selector = front ++ '.' :: (change.newName ++
        (behind ++ (split.2.flatten ++ (element ++ afterCompound token)))) ∧
      (element = [] ∨ element = change.pseudoElement) ∧
      (modify change s).skipped.filter (·.reason = .stateConflict) =
        split.1.map fun state => ⟨.stateConflict, s, state⟩ := by
  intro split
  obtain ⟨front, behind, hfront, hparts, hcompound⟩ := exists_token_parts htoken
  have hselector := selector_modify htoken hfront hcompound
  have hconflicts : ∀ states : List Text,
      (states.map fun state => (⟨.stateConflict, s, state⟩ : Skipped)).filter
          (·.reason = .stateConflict) =
        states.map fun state => ⟨.stateConflict, s, state⟩ := by
    intro states
    refine List.filter_eq_self.mpr fun skipped hskipped => ?_
    obtain ⟨state, -, rfl⟩ := List.mem_map.mp hskipped
    rfl
  refine ⟨front, behind, if hasPseudoElement token (afterCompound token) change.pseudoElement
    then [] else change.pseudoElement, hfront, hparts, ?_, ?_, ?_⟩
  · rwa [Change.inserted, List.append_assoc] at hselector
  · split
    · exact Or.inl rfl
    · exact Or.inr rfl
  · simp only [modify, htoken, split]
    split
    · rw [List.filter_append, hconflicts]
      exact List.append_nil _
    · exact hconflicts _

end UtilityCss.Selector
