import UtilityCss.Generator.Cascade
import UtilityCss.Proofs.ClassName.Scan

/-!
# What a cascade key reads

A key takes every segment in front of the last one for a state if it has the name of one. What is
left, joined, is the base; as no segment is cut or merged by that, names have the same base only if
they have the same segments left. The rank tells the highest of the states.
-/

namespace UtilityCss.CascadeKey

open Text ClassName

variable {name segment : Text} {m : Modifier} {states : List Modifier} {rank : Nat}

/-- The segments of a class name; a name that is not balanced is one. -/
def segmentsOf (name : Text) : List Text :=
  (segments? name).getD [name]

def statesOf (name : Text) : List Modifier :=
  (segmentsOf name).dropLast.filterMap stateOf?

def baseOf (name : Text) : List Text :=
  (segmentsOf name).dropLast.filter (fun segment => (stateOf? segment).isNone) ++
    (segmentsOf name).getLast?.toList

def stage (state : Text) : Nat :=
  if state = "visited".toList then 1
  else if state = "focus".toList then 2
  else if state = "hover".toList then 3
  else if state = "active".toList then 4
  else 5

structure IsHighest (rank : Nat) (states : List Modifier) : Prop where
  above : ∀ m ∈ states, stage m.name ≤ rank
  reached : states = [] ∧ rank = 0 ∨ ∃ m ∈ states, stage m.name = rank

theorem stateOf?_eq_some_iff :
    stateOf? segment = some m ↔ Modifier.ofName? segment = some m ∧ m.kind = .state := by
  rw [stateOf?, Option.filter_eq_some_iff, decide_eq_true_iff]

theorem exists_segmentsOf (name : Text) :
    ∃ prefixes last, segmentsOf name = prefixes ++ [last] := by
  have hne : segmentsOf name ≠ [] := by
    rw [segmentsOf]
    cases hread : segments? name with
    | none => exact List.cons_ne_nil _ _
    | some parts => exact fun hnil => segments?_ne_nil name (hnil ▸ hread)
  exact ⟨_, _, (List.dropLast_concat_getLast hne).symm⟩

theorem baseOf_eq {prefixes : List Text} {last : Text} (h : segmentsOf name = prefixes ++ [last]) :
    baseOf name = prefixes.filter (fun segment => (stateOf? segment).isNone) ++ [last] := by
  rw [baseOf, h, List.dropLast_concat, List.getLast?_concat, Option.toList_some]

theorem base_ofName (name : Text) : (ofName name).base = joinSegments (baseOf name) := by
  obtain ⟨prefixes, last, hsegments⟩ := exists_segmentsOf name
  rw [baseOf_eq hsegments, ofName]
  rw [segmentsOf] at hsegments
  simp only [hsegments, List.dropLast_concat, List.getLast?_concat, Option.getD_some]

/-- The base is cut where the name is. -/
theorem segmentsOf_base (name : Text) : segmentsOf (ofName name).base = baseOf name := by
  obtain ⟨prefixes, last, hsegments⟩ := exists_segmentsOf name
  rw [base_ofName]
  cases hread : segments? name with
  | none =>
      have hwhole : segmentsOf name = [] ++ [name] := by rw [segmentsOf, hread]; rfl
      rw [baseOf_eq hwhole]
      exact hwhole
  | some parts =>
      have hparts : segmentsOf name = parts := by rw [segmentsOf, hread, Option.getD_some]
      obtain ⟨hwhole, hpaired⟩ := whole_of_segments? hread
      rw [← hparts, hsegments] at hwhole hpaired
      rw [List.dropLast_concat] at hpaired
      have hkept : segments? (joinSegments (baseOf name)) = some (baseOf name) := by
        rw [baseOf_eq hsegments]
        refine segments?_joinSegments (List.append_ne_nil_of_right_ne_nil _ (List.cons_ne_nil _ _))
          (fun part hpart => hwhole part ?_) (fun part hpart => hpaired part ?_)
        · exact (List.filter_sublist.append_right [last]).subset hpart
        · rw [List.dropLast_concat] at hpart
          exact (List.mem_filter.mp hpart).1
      rw [segmentsOf, hkept, Option.getD_some]

theorem base_eq_iff {a b : Text} : (ofName a).base = (ofName b).base ↔ baseOf a = baseOf b := by
  constructor
  · intro h
    rw [← segmentsOf_base a, ← segmentsOf_base b, h]
  · intro h
    rw [base_ofName, base_ofName, h]

theorem stateRank_eq_stage (state : Text) : stateRank state = stage state := by
  rw [stage]
  split
  next h => rw [h]; decide
  next hvisited =>
    split
    next h => rw [h]; decide
    next hfocus =>
      split
      next h => rw [h]; decide
      next hhover =>
        split
        next h => rw [h]; decide
        next hactive =>
          have hother : state ∉ rankedStates := by
            simp only [rankedStates, List.map_cons, List.map_nil, List.mem_cons, hvisited, hfocus,
              hhover, hactive, List.not_mem_nil, or_self, not_false_iff]
          rw [stateRank, List.idxOf_eq_length hother]
          rfl

theorem one_le_stage (state : Text) : 1 ≤ stage state := by
  rw [← stateRank_eq_stage]
  exact Nat.le_add_left 1 _

/-- What folding the stages of some states gives, from a number on. -/
theorem foldl_stage {highest : Nat}
    (h : states.foldl (fun rank m => max rank (stage m.name)) rank = highest) :
    rank ≤ highest ∧ (∀ m ∈ states, stage m.name ≤ highest) ∧
      (highest = rank ∨ ∃ m ∈ states, stage m.name = highest) := by
  induction states generalizing rank with
  | nil => exact ⟨Nat.le_of_eq h, nofun, Or.inl h.symm⟩
  | cons first states ih =>
      obtain ⟨hstart, habove, hreached⟩ := ih h
      obtain ⟨hrank, hfirst⟩ := Nat.max_le.mp hstart
      refine ⟨hrank, List.forall_mem_cons.mpr ⟨hfirst, habove⟩, ?_⟩
      rcases hreached with hreached | ⟨m, hm, hreached⟩
      · rcases Nat.le_total rank (stage first.name) with hle | hle
        · have hhighest : highest = stage first.name := hreached.trans (Nat.max_eq_right hle)
          exact Or.inr ⟨first, List.mem_cons_self, hhighest.symm⟩
        · exact Or.inl (hreached.trans (Nat.max_eq_left hle))
      · exact Or.inr ⟨m, List.mem_cons_of_mem _ hm, hreached⟩

theorem isHighest_rank (name : Text) : IsHighest (ofName name).rank (statesOf name) := by
  have hrank : (statesOf name).foldl (fun rank m => max rank (stage m.name)) 0 =
      (ofName name).rank := by
    simp only [← stateRank_eq_stage]
    rfl
  obtain ⟨-, habove, hreached⟩ := foldl_stage hrank
  refine ⟨habove, ?_⟩
  cases hstates : statesOf name with
  | nil => exact Or.inl ⟨rfl, by rw [← hrank, hstates]; rfl⟩
  | cons first states =>
      rw [hstates] at habove hreached
      have hpos := Nat.lt_of_lt_of_le (one_le_stage first.name) (habove first List.mem_cons_self)
      exact Or.inr (hreached.resolve_left (Nat.ne_of_gt hpos))

end UtilityCss.CascadeKey
