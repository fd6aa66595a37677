import UtilityCss.Proofs.Modifier.Canonical
import UtilityCss.Proofs.Text.Order

/-!
# The order that is suggested

A state that belongs in front of the last one ends the reading with a suggestion: the states up to
it by ascending name. It is a good one. All of them differ in their pseudo-class, as a state with
the pseudo-class of an earlier one is a duplicate, whatever its name; and as a name in the table
stands for one modifier, they differ in their name too.
-/

namespace UtilityCss

open Text

namespace Modifier

theorem name_of_ofName? {name : Text} {m : Modifier} (h : ofName? name = some m) :
    m.name = name := by
  rw [ofName?] at h
  split at h
  next found hfound =>
    obtain rfl := Option.some.inj h
    simpa using List.find?_some hfound
  next =>
    rw [ofCall?] at h
    repeat' split at h
    all_goals cases h
    all_goals rfl

theorem ofName?_name {name : Text} {m : Modifier} (h : ofName? name = some m) :
    ofName? m.name = some m := by
  rw [name_of_ofName? h, h]

theorem filterMap_ofName? {ms : List Modifier} (h : ∀ m ∈ ms, ofName? m.name = some m) :
    (ms.map (·.name)).filterMap ofName? = ms := by
  induction ms with
  | nil => rfl
  | cons m ms ih =>
      obtain ⟨hm, hms⟩ := List.forall_mem_cons.mp h
      rw [List.map_cons, List.filterMap_cons_some hm, ih hms]

theorem map_ofName? {names : List Text} (h : ∀ name ∈ names, (ofName? name).isSome) :
    names.map ofName? = (names.filterMap ofName?).map some := by
  induction names with
  | nil => rfl
  | cons name names ih =>
      obtain ⟨hname, hnames⟩ := List.forall_mem_cons.mp h
      obtain ⟨m, hm⟩ := Option.isSome_iff_exists.mp hname
      rw [List.map_cons, List.filterMap_cons_some hm, List.map_cons, hm, ih hnames]

theorem map_name_of_map_ofName? {names : List Text} {ms : List Modifier}
    (h : names.map ofName? = ms.map some) : ms.map (·.name) = names := by
  induction ms generalizing names with
  | nil => simpa using h.symm
  | cons m ms ih =>
      cases names with
      | nil => cases h
      | cons name names =>
          obtain ⟨hm, hms⟩ := List.cons.inj h
          rw [List.map_cons, name_of_ofName? hm, ih hms]

end Modifier

namespace ModifierSet

open Modifier

variable {s : ModifierSet} {m : Modifier} {ms states : List Modifier} {e : SequenceError}
  {found expected : List Text}

theorem pushAll_eq_error (h : s.pushAll ms = .error e) :
    ∃ front m behind next, ms = front ++ m :: behind ∧ s.pushAll front = .ok next ∧
      next.push m = .error e := by
  induction ms generalizing s with
  | nil => cases h
  | cons m ms ih =>
      rw [pushAll] at h
      split at h
      next pushed hpush =>
        obtain ⟨front, m', behind, next, rfl, hfront, herror⟩ := ih h
        exact ⟨m :: front, m', behind, next, rfl, by rw [pushAll, hpush]; exact hfront, herror⟩
      next hpush =>
        exact ⟨[], m, ms, s, rfl, rfl, by rw [hpush, Except.error.inj h]⟩

/-- Only a state that emits something new can be out of order. -/
theorem push_eq_unorderedStates (h : s.push m = .error (.unorderedStates found expected)) :
    m.kind = .state ∧ (∀ x ∈ s.states, x.css ≠ m.css) ∧ found = s.stateNames ++ [m.name] ∧
      expected = found.mergeSort notAfter := by
  have hown : s.pushOwnKind m = .error (.unorderedStates found expected) := by
    rw [push] at h
    split at h
    · split at h
      · cases h
      · exact h
    · exact h
  rw [pushOwnKind] at hown
  split at hown
  · split at hown <;> cases hown
  · split at hown
    · split at hown <;> cases hown
    · cases hown
  next hkind =>
    split at hown
    · cases hown
    next hcss =>
      refine ⟨hkind, by simpa using hcss, ?_⟩
      split at hown
      · split at hown
        · cases hown
        · split at hown
          · cases hown
            exact ⟨rfl, rfl⟩
          · cases hown
      · cases hown
  · split at hown <;> cases hown

/-- The sequence is canonical up to a state that is out of order. -/
theorem ofList_eq_unorderedStates (h : ofList ms = .error (.unorderedStates found expected)) :
    ∃ front m behind, ms = front ++ m :: behind ∧ IsCanonical front ∧
      ¬ IsCanonical (front ++ [m]) ∧ m.kind = .state ∧
      (ofKind .state (front ++ [m])).Pairwise (fun a b => a.css ≠ b.css) ∧
      found = (ofKind .state (front ++ [m])).map (·.name) ∧
        expected = found.mergeSort notAfter := by
  obtain ⟨front, m, behind, s, rfl, hfront, hpush⟩ := pushAll_eq_error h
  obtain ⟨hkind, hnew, hfound, hexpected⟩ := push_eq_unorderedStates hpush
  have hlist := toList_ofList hfront
  have hstates : s.states = ofKind .state front := by
    rw [← (isSorted_ofList hfront).ofKind_toList.2.2.1, hlist]
  have hcanonical : IsCanonical front := exists_ofList_iff.mp ⟨s, hfront⟩
  have hread : ofKind .state (front ++ [m]) = s.states ++ [m] := by
    have hm : ofKind .state [m] = [m] :=
      ofKind_eq_self fun x hx => by rw [List.mem_singleton.mp hx, hkind]
    rw [ofKind_append, hm, hstates]
  refine ⟨front, m, behind, rfl, hcanonical, fun hall => ?_, hkind, ?_, ?_, hexpected⟩
  · have hpairs := isCanonical_iff_pairwise.mp hall
    rw [← hlist] at hpairs
    obtain ⟨next, hok⟩ :=
      (exists_push_iff (isSorted_ofList hfront) (List.pairwise_append.mp hpairs).1).mpr hpairs
    rw [hpush] at hok
    cases hok
  · rw [hread, pairwise_append_singleton]
    exact ⟨hstates ▸ hcanonical.fragments, hnew⟩
  · rw [hread, hfound, stateNames, List.map_append]
    rfl

/-! ## States in the suggested order -/

theorem nodup_names (hknown : ∀ x ∈ states, ofName? x.name = some x)
    (hcss : states.Pairwise fun a b => a.css ≠ b.css) : (states.map (·.name)).Nodup := by
  refine List.pairwise_map.mpr (hcss.imp_of_mem ?_)
  intro a b ha hb hab hname
  have hsame : some a = some b := by rw [← hknown a ha, ← hknown b hb, hname]
  exact hab (by rw [Option.some.inj hsame])

/-- Different states are accepted once they ascend by name. -/
theorem ofList_states (hkind : ∀ x ∈ states, x.kind = .state)
    (hcss : states.Pairwise fun a b => a.css ≠ b.css)
    (hnames : (states.map (·.name)).Pairwise Precedes) :
    ∃ s, ofList states = .ok s ∧ s.states = states := by
  have hpairs : states.Pairwise MayPrecede := by
    refine ((List.pairwise_map.mp hnames).and hcss).imp_of_mem ?_
    intro a b ha hb hab
    exact Or.inr ⟨hkind a ha, hkind b hb, hab⟩
  obtain ⟨s, hs⟩ := exists_ofList_iff.mpr (isCanonical_iff_pairwise.mpr hpairs)
  have hfield := (isSorted_ofList hs).ofKind_toList.2.2.1
  rw [toList_ofList hs, ofKind_eq_self hkind] at hfield
  exact ⟨s, hs, hfield.symm⟩

theorem ofList_sorted (hkind : ∀ x ∈ states, x.kind = .state)
    (hknown : ∀ x ∈ states, ofName? x.name = some x)
    (hcss : states.Pairwise fun a b => a.css ≠ b.css) :
    ∃ ordered, ((states.map (·.name)).mergeSort notAfter).map ofName? = ordered.map some ∧
      ∃ s, ofList ordered = .ok s ∧ s.states = ordered := by
  have hperm := List.mergeSort_perm (states.map (·.name)) notAfter
  refine ⟨((states.map (·.name)).mergeSort notAfter).filterMap ofName?, ?_⟩
  have hordered := hperm.filterMap ofName?
  rw [filterMap_ofName? hknown] at hordered
  have hfound : ∀ name ∈ (states.map (·.name)).mergeSort notAfter,
      (ofName? name).isSome := by
    intro name hname
    obtain ⟨x, hx, rfl⟩ := List.mem_map.mp (hperm.mem_iff.mp hname)
    rw [hknown x hx]
    rfl
  have hlookup := map_ofName? hfound
  refine ⟨hlookup, ofList_states (fun x hx => hkind x (hordered.mem_iff.mp hx)) ?_ ?_⟩
  · exact (hordered.pairwise_iff fun hab => hab.symm).mpr hcss
  · rw [map_name_of_map_ofName? hlookup]
    exact pairwise_mergeSort_precedes (nodup_names hknown hcss)

/-- If modifiers of the table are refused for the order of their states, the error lists the states
that have been read, the one that is out of order being the last, and a permutation of these names.
The states under the permuted names are accepted, and the suggestion spells out this order. -/
theorem suggestion_accepted (hknown : ∀ m ∈ ms, ∃ name, ofName? name = some m)
    (h : ofList ms = .error (.unorderedStates found expected)) :
    (∃ front m behind, ms = front ++ m :: behind ∧ IsCanonical front ∧
      ¬ IsCanonical (front ++ [m]) ∧ m.kind = .state ∧
      found = (ofKind .state (front ++ [m])).map (·.name)) ∧
    expected.Perm found ∧
    ∃ ordered, expected.map ofName? = ordered.map some ∧
      (∃ s, ofList ordered = .ok s ∧ s.states = ordered) ∧
      (SequenceError.unorderedStates found expected).suggestion =
        some ("Use ".toList ++ quoted (join [':'] (ordered.map (·.name)))) := by
  obtain ⟨front, m, behind, rfl, hfront, hrefused, hkind, hcss, hfound, rfl⟩ :=
    ofList_eq_unorderedStates h
  have hread : ∀ x ∈ ofKind .state (front ++ [m]), ofName? x.name = some x := by
    intro x hx
    have hmem : x ∈ front ++ m :: behind := by
      rw [← List.singleton_append, ← List.append_assoc]
      exact List.mem_append_left _ (mem_ofKind.mp hx).1
    obtain ⟨name, hname⟩ := hknown x hmem
    exact ofName?_name hname
  obtain ⟨ordered, hlookup, haccepted⟩ :=
    ofList_sorted (fun x hx => (mem_ofKind.mp hx).2) hread hcss
  rw [← hfound] at hlookup
  refine ⟨⟨front, m, behind, rfl, hfront, hrefused, hkind, hfound⟩,
    List.mergeSort_perm found notAfter, ordered, hlookup, haccepted, ?_⟩
  rw [SequenceError.suggestion, map_name_of_map_ofName? hlookup]

theorem suggestion_accepted_chain :
    let ms := (["md", "hover", "nth-child(2n~+~1)", "focus", "before"].map String.toList).filterMap
      ofName?
    let found := ["hover", "nth-child(2n~+~1)", "focus"].map String.toList
    let expected := ["focus", "hover", "nth-child(2n~+~1)"].map String.toList
    (∀ m ∈ ms, ∃ name, ofName? name = some m) ∧
      ofList ms = .error (.unorderedStates found expected) ∧
      ∃ ordered, expected.map ofName? = ordered.map some ∧
        ∃ s, ofList ordered = .ok s ∧ s.states = ordered := by
  intro ms found expected
  have hknown : ∀ m ∈ ms, ∃ name, ofName? name = some m := by
    intro m hm
    obtain ⟨name, -, hname⟩ := List.mem_filterMap.mp hm
    exact ⟨name, hname⟩
  have hsorted : found.mergeSort notAfter = expected := mergeSort_eq (by decide) (by decide)
  have hrefused : ofList ms = .error (.unorderedStates found expected) := by
    rw [← hsorted]
    rfl
  obtain ⟨-, -, ordered, hlookup, haccepted, -⟩ := suggestion_accepted hknown hrefused
  exact ⟨hknown, hrefused, ordered, hlookup, haccepted⟩

end ModifierSet

end UtilityCss
