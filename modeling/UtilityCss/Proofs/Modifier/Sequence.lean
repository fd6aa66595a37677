import UtilityCss.Modifier.Sequence

/-!
# An accepted sequence is kept as it is

A modifier is accepted only where the list of the accepted ones grows at its end: no modifier that
belongs behind it has been read. So a set lists the sequence it was read from.
-/

namespace UtilityCss.ModifierSet

open Text

variable {s next : ModifierSet} {m : Modifier} {ms : List Modifier}

structure IsSorted (s : ModifierSet) : Prop where
  media : ∀ m ∈ s.media, m.kind = .media
  ancestor : ∀ m ∈ s.ancestor, m.kind = .ancestor
  states : ∀ m ∈ s.states, m.kind = .state
  pseudoElement : ∀ m ∈ s.pseudoElement, m.kind = .pseudoElement

theorem isSorted_empty : IsSorted {} := by
  constructor <;> simp

/-- Of the kinds behind that of a modifier that is not misplaced, none has been read. -/
theorem IsSorted.none_behind (hs : s.IsSorted)
    (hlast : ∀ last ∈ s.toList.getLast?, last.kind.rank ≤ m.kind.rank) :
    (m.kind.rank < 3 → s.pseudoElement = none) ∧ (m.kind.rank < 2 → s.states = []) ∧
      (m.kind.rank < 1 → s.ancestor = none) := by
  obtain ⟨media, ancestor, states, pseudoElement⟩ := s
  cases pseudoElement with
  | some p =>
      have hp : p.kind.rank ≤ m.kind.rank := hlast p (by simp [toList])
      rw [hs.pseudoElement p rfl, Modifier.Kind.rank] at hp
      refine ⟨?_, ?_, ?_⟩ <;> omega
  | none =>
      rcases List.eq_nil_or_concat states with rfl | ⟨front, state, rfl⟩
      · cases ancestor with
        | some a =>
            have ha : a.kind.rank ≤ m.kind.rank := hlast a (by simp [toList])
            rw [hs.ancestor a rfl, Modifier.Kind.rank] at ha
            exact ⟨fun _ => rfl, fun _ => rfl, by omega⟩
        | none => exact ⟨fun _ => rfl, fun _ => rfl, fun _ => rfl⟩
      · have hstate : state.kind.rank ≤ m.kind.rank := hlast state (by simp [toList])
        rw [hs.states state (by simp), Modifier.Kind.rank] at hstate
        refine ⟨fun _ => rfl, ?_, ?_⟩ <;> omega

theorem push_eq_ok_iff :
    s.push m = .ok next ↔
      (∀ last ∈ s.toList.getLast?, last.kind.rank ≤ m.kind.rank) ∧ s.pushOwnKind m = .ok next := by
  rw [push]
  split
  next last hlast =>
    simp only [hlast, Option.mem_some_iff, forall_eq']
    split
    next hrank =>
      simp only [reduceCtorEq, false_iff, not_and]
      exact fun hle => absurd hrank (Nat.not_lt.mpr hle)
    next hrank => exact (and_iff_right (Nat.not_lt.mp hrank)).symm
  next hnone => simp [hnone]

/-- A state goes behind the states before it. -/
theorem pushState_eq_ok_iff (hkind : m.kind = .state) :
    s.pushOwnKind m = .ok next ↔
      (∀ x ∈ s.states, x.css ≠ m.css) ∧ (∀ last ∈ s.states.getLast?, Precedes last.name m.name) ∧
        next = { s with states := s.states ++ [m] } := by
  have hnone : s.states.any (·.css = m.css) = true ↔ ¬ ∀ x ∈ s.states, x.css ≠ m.css := by simp
  rw [pushOwnKind]
  simp only [hkind]
  split
  next hcss => simp only [reduceCtorEq, hnone.mp hcss, false_and]
  next hcss =>
    rw [hnone, Classical.not_not] at hcss
    rw [and_iff_right hcss]
    split
    next last hlast =>
      simp only [hlast, Option.mem_some_iff, forall_eq']
      split
      next hname =>
        rw [hname]
        simp [not_precedes_self]
      next hname =>
        split
        next hbefore =>
          have hafter : ¬ Precedes last.name m.name := fun h =>
            not_precedes_self _ (h.trans hbefore)
          simp only [reduceCtorEq, hafter, false_and]
        next hbefore =>
          have hafter : Precedes last.name m.name :=
            precedes_of_not_precedes hbefore (Ne.symm hname)
          simp only [hafter, true_and, Except.ok.injEq, eq_comm]
    next hempty =>
      simp [List.getLast?_eq_none_iff.mp hempty, eq_comm]

/-- The field of its kind is where a modifier goes, at the end of it. -/
theorem pushOwnKind_eq_ok_iff :
    s.pushOwnKind m = .ok next ↔
      (m.kind = .media ∧ s.media = none ∧ next = { s with media := some m }) ∨
      (m.kind = .ancestor ∧ s.ancestor = none ∧ next = { s with ancestor := some m }) ∨
      (m.kind = .state ∧ (∀ x ∈ s.states, x.css ≠ m.css) ∧
        (∀ last ∈ s.states.getLast?, Precedes last.name m.name) ∧
        next = { s with states := s.states ++ [m] }) ∨
      (m.kind = .pseudoElement ∧ s.pseudoElement = none ∧
        next = { s with pseudoElement := some m }) := by
  cases hkind : m.kind with
  | media =>
      rw [pushOwnKind]
      cases hmedia : s.media <;> simp [hkind, eq_comm]
  | ancestor =>
      rw [pushOwnKind]
      cases hancestor : s.ancestor with
      | none => simp [hkind, eq_comm]
      | some first =>
          simp only [hkind, reduceCtorEq, false_and, and_false, or_self, iff_false]
          split <;> simp
  | state => simp [pushState_eq_ok_iff hkind]
  | pseudoElement =>
      rw [pushOwnKind]
      cases hpseudo : s.pseudoElement <;> simp [hkind, eq_comm]

/-- What is accepted comes in at the end. -/
theorem push_spec (hs : s.IsSorted) (h : s.push m = .ok next) :
    next.IsSorted ∧ next.toList = s.toList ++ [m] := by
  obtain ⟨hlast, hown⟩ := push_eq_ok_iff.mp h
  obtain ⟨hpseudo, hstates, hancestor⟩ := hs.none_behind hlast
  rcases pushOwnKind_eq_ok_iff.mp hown with ⟨hkind, hnone, rfl⟩ | ⟨hkind, hnone, rfl⟩ |
    ⟨hkind, -, -, rfl⟩ | ⟨hkind, hnone, rfl⟩ <;>
    simp only [hkind, Modifier.Kind.rank, Nat.reduceLT, forall_const] at hpseudo hstates hancestor
  · exact ⟨{ hs with media := by simpa using hkind },
      by simp [toList, hnone, hancestor, hstates, hpseudo]⟩
  · exact ⟨{ hs with ancestor := by simpa using hkind }, by simp [toList, hnone, hstates, hpseudo]⟩
  · refine ⟨{ hs with states := ?_ }, by simp [toList, hpseudo]⟩
    intro x hx
    rcases List.mem_append.mp hx with hx | hx
    · exact hs.states x hx
    · rwa [List.mem_singleton.mp hx]
  · exact ⟨{ hs with pseudoElement := by simpa using hkind }, by simp [toList, hnone]⟩

theorem pushAll_spec (hs : s.IsSorted) (h : s.pushAll ms = .ok next) :
    next.IsSorted ∧ next.toList = s.toList ++ ms := by
  induction ms generalizing s with
  | nil =>
      obtain rfl := Except.ok.inj h
      exact ⟨hs, (List.append_nil _).symm⟩
  | cons m ms ih =>
      rw [pushAll] at h
      split at h
      next pushed hpush =>
        obtain ⟨hpushed, hlist⟩ := push_spec hs hpush
        obtain ⟨hnext, hall⟩ := ih hpushed h
        exact ⟨hnext, by rw [hall, hlist, List.append_assoc, List.singleton_append]⟩
      next => cases h

theorem isSorted_ofList (h : ofList ms = .ok s) : s.IsSorted :=
  (pushAll_spec isSorted_empty h).1

/-- An accepted set lists the sequence it was read from. -/
theorem toList_ofList (h : ofList ms = .ok s) : s.toList = ms :=
  (pushAll_spec isSorted_empty h).2

end UtilityCss.ModifierSet
