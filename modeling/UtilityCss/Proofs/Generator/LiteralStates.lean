import UtilityCss.Proofs.ClassName.Literal
import UtilityCss.Proofs.Generator.KeyReading
import UtilityCss.Proofs.Generator.LiteralClass
import UtilityCss.Proofs.Modifier.Canonical
import UtilityCss.Proofs.Modifier.Suggestion

/-!
# The states of a literal class and of its key

A literal class is read up to its property, a cascade key up to the last segment of the name. So the
two take the same segments for states unless one between the modifiers and the end of the value has
the name of a state, which is a part of the value for the one and a state for the other.
-/

namespace UtilityCss

open Text ClassName

namespace CascadeKey

open Modifier (ofKind)

variable {known : KnownProperties} {name : Text} {l : Literal} {ms : List Modifier}

/-- The segments of the name are those of the modifiers, the property and the value. -/
theorem segments?_of_parse (h : Literal.parse known name = .ok l) :
    (∀ m ∈ l.modifiers.toList, Modifier.ofName? m.name = some m) ∧
      ∃ values, values ≠ [] ∧
        segments? name = some (l.modifiers.toList.map (·.name) ++ l.property :: values) := by
  obtain ⟨body, isImportant, segments, ms, property, value, values, hsplit, hsegments, hread, -,
    hmodifiers, hproperty, -⟩ := Literal.parse_eq_ok_iff_read.mp h
  obtain ⟨fronts, hpieces, hnames, -⟩ := Literal.readModifiers_spec segments
  rw [hread] at hpieces hnames
  dsimp only at hpieces hnames
  have hfronts := Modifier.map_name_of_map_ofName? hnames
  rw [ModifierSet.toList_ofList hmodifiers, hproperty, hfronts]
  refine ⟨fun m hm => ?_, ?_⟩
  · have hsome : some m ∈ fronts.map Modifier.ofName? := hnames ▸ List.mem_map_of_mem hm
    obtain ⟨front, -, hfront⟩ := List.mem_map.mp hsome
    exact Modifier.ofName?_name hfront
  · obtain ⟨front, last, hvalues⟩ : ∃ front last, value :: values = front ++ [last] :=
      ⟨_, _, (List.dropLast_concat_getLast (List.cons_ne_nil value values)).symm⟩
    rw [hpieces, hvalues, ← List.cons_append, ← List.append_assoc] at hsegments
    obtain ⟨hflagged, hunflagged⟩ := Literal.splitImportant_eq_iff.mp hsplit
    cases isImportant with
    | true =>
        refine ⟨front ++ [last ++ important], by simp, ?_⟩
        rw [hflagged rfl, Literal.segments?_append_important hsegments]
        simp
    | false =>
        refine ⟨front ++ [last], by simp, ?_⟩
        rw [(hunflagged rfl).1, hsegments]
        simp

theorem filterMap_stateOf? (h : ∀ m ∈ ms, Modifier.ofName? m.name = some m) :
    (ms.map (·.name)).filterMap stateOf? = ofKind .state ms := by
  induction ms with
  | nil => rfl
  | cons m ms ih =>
      obtain ⟨hm, hms⟩ := List.forall_mem_cons.mp h
      have hstate : stateOf? m.name = if m.kind = .state then some m else none := by
        rw [stateOf?, hm, Option.filter_some]
        simp only [decide_eq_true_eq]
      rw [List.map_cons, List.filterMap_cons, hstate, ih hms, ofKind, ofKind, List.filter_cons]
      by_cases hkind : m.kind = .state <;> simp [hkind]

/-- Of the modifiers, those are left in the base that are no states. -/
theorem filter_stateOf? (h : ∀ m ∈ ms, Modifier.ofName? m.name = some m) :
    (ms.map (·.name)).filter (fun segment => (stateOf? segment).isNone) =
      (ms.map (·.name)).filter (· ∉ (ofKind .state ms).map (·.name)) := by
  refine List.filter_congr fun segment hsegment => ?_
  obtain ⟨m, hm, rfl⟩ := List.mem_map.mp hsegment
  have hstate : (stateOf? m.name).isSome ↔ m.name ∈ (ofKind .state ms).map (·.name) := by
    rw [Option.isSome_iff_exists]
    constructor
    · rintro ⟨found, hfound⟩
      obtain ⟨hname, hkind⟩ := stateOf?_eq_some_iff.mp hfound
      obtain rfl : m = found := Option.some.inj ((h m hm).symm.trans hname)
      exact List.mem_map_of_mem (Modifier.mem_ofKind.mpr ⟨hm, hkind⟩)
    · intro hmem
      obtain ⟨found, hfound, hname⟩ := List.mem_map.mp hmem
      obtain ⟨hfound, hkind⟩ := Modifier.mem_ofKind.mp hfound
      exact ⟨found, stateOf?_eq_some_iff.mpr ⟨hname ▸ h found hfound, hkind⟩⟩
  rw [Bool.eq_iff_iff, decide_eq_true_iff, ← hstate, Option.isNone_iff_eq_none,
    Option.not_isSome_iff_eq_none]

/-- The key of a name has the states of the modifiers, the rank of the highest of them, and as base
the names of the other modifiers and the segments behind. -/
structure FollowsModifiers (name : Text) (modifiers : ModifierSet) (behind : List Text) :
    Prop where
  states : statesOf name = modifiers.states
  rank : IsHighest (ofName name).rank modifiers.states
  base : (ofName name).base =
    joinSegments
      ((modifiers.toList.map (·.name)).filter (· ∉ modifiers.stateNames) ++ behind)

section Segments

variable {modifiers : ModifierSet} {behind : List Text} {last : Text}
  (hnames : ∀ m ∈ modifiers.toList, Modifier.ofName? m.name = some m)
  (hsorted : modifiers.IsSorted)
  (hsegments : segments? name = some (modifiers.toList.map (·.name) ++ behind ++ [last]))

include hnames hsorted hsegments

/-- What the key takes for states: the states of the modifiers, and any behind them but in front of
the last segment. -/
theorem statesOf_segments : statesOf name = modifiers.states ++ behind.filterMap stateOf? := by
  rw [statesOf, segmentsOf, hsegments, Option.getD_some, List.dropLast_concat,
    List.filterMap_append, filterMap_stateOf? hnames, hsorted.ofKind_toList.2.2.1]

/-- The rank and the base follow the states. -/
theorem followsModifiers_iff :
    FollowsModifiers name modifiers (behind ++ [last]) ↔
      ∀ segment ∈ behind, stateOf? segment = none := by
  have hstates := statesOf_segments hnames hsorted hsegments
  rw [← List.filterMap_eq_nil_iff]
  constructor
  · intro hfollows
    rw [hfollows.states] at hstates
    exact List.self_eq_append_right.mp hstates
  · intro hnone
    have hbehind : behind.filter (fun segment => (stateOf? segment).isNone) = behind :=
      List.filter_eq_self.mpr fun segment hsegment =>
        Option.isNone_iff_eq_none.mpr (List.filterMap_eq_nil_iff.mp hnone segment hsegment)
    rw [hnone, List.append_nil] at hstates
    refine ⟨hstates, hstates ▸ isHighest_rank name, ?_⟩
    have hof : segmentsOf name = modifiers.toList.map (·.name) ++ behind ++ [last] := by
      rw [segmentsOf, hsegments, Option.getD_some]
    rw [base_ofName, baseOf_eq hof, List.filter_append, hbehind, filter_stateOf? hnames,
      hsorted.ofKind_toList.2.2.1, List.append_assoc]
    rfl

end Segments

/-- The key of a literal class has the states of the modifiers first. It follows the modifiers
unless the property, or a segment of the value in front of its last, has the name of a state. -/
theorem followsModifiers_of_parse_iff (h : Literal.parse known name = .ok l) :
    ∃ values, values ≠ [] ∧
      segments? name = some (l.modifiers.toList.map (·.name) ++ l.property :: values) ∧
      statesOf name = l.modifiers.states ++ (l.property :: values.dropLast).filterMap stateOf? ∧
      (FollowsModifiers name l.modifiers (l.property :: values) ↔
        stateOf? l.property = none ∧ ∀ segment ∈ values.dropLast, stateOf? segment = none) := by
  obtain ⟨hnames, values, hvalues, hsegments⟩ := segments?_of_parse h
  have hsorted := Literal.isSorted_of_parse h
  have hlast :
      l.property :: values = l.property :: values.dropLast ++ [values.getLast hvalues] := by
    rw [List.cons_append, List.dropLast_concat_getLast]
  have hwhole := hsegments
  rw [hlast, ← List.append_assoc] at hwhole
  refine ⟨values, hvalues, hsegments, statesOf_segments hnames hsorted hwhole, ?_⟩
  rw [hlast, followsModifiers_iff hnames hsorted hwhole, List.forall_mem_cons]

theorem followsModifiers_of_parse_hover :
    ∃ l values,
      Literal.parse (.ofNames ["color".toList]) "md:first:hover:before:color:red!important".toList =
          .ok l ∧
        statesOf "md:first:hover:before:color:red!important".toList = l.modifiers.states ∧
        l.modifiers.stateNames = ["first".toList, "hover".toList] ∧
        FollowsModifiers "md:first:hover:before:color:red!important".toList l.modifiers
          (l.property :: values) := by
  have haccepts : ∃ l,
      Literal.parse (.ofNames ["color".toList]) "md:first:hover:before:color:red!important".toList =
          .ok l ∧
        l.modifiers.stateNames = ["first".toList, "hover".toList] ∧
        statesOf "md:first:hover:before:color:red!important".toList = l.modifiers.states :=
    ⟨_, by rfl, by decide +kernel⟩
  obtain ⟨l, hparse, hnames, hstates⟩ := haccepts
  obtain ⟨values, hvalues, hsegments, hread, hiff⟩ := followsModifiers_of_parse_iff hparse
  rw [hstates] at hread
  have hnone := List.filterMap_eq_nil_iff.mp (List.self_eq_append_right.mp hread)
  exact ⟨l, values, hparse, hstates, hnames, hiff.mpr (List.forall_mem_cons.mp hnone)⟩

/-- The value of a custom property goes on behind a colon; the name of a state in it is a state for
the key, though the class has none. -/
theorem statesOf_customProperty :
    ∃ l, Literal.parse (.ofNames []) "--x:hover:a".toList = .ok l ∧
      l.property = "--x".toList ∧ l.value = "hover:a".toList ∧ l.modifiers.states = [] ∧
      (statesOf "--x:hover:a".toList).map (·.name) = ["hover".toList] ∧
      (ofName "--x:hover:a".toList).rank = 3 ∧
      (ofName "--x:hover:a".toList).base = "--x:a".toList :=
  ⟨_, by rfl, by decide +kernel⟩

end CascadeKey

end UtilityCss
