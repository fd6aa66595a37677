import Mathlib.Data.List.Induction
import UtilityCss.Proofs.Registry.Entries

/-!
# Runs of insertions

What a registry holds after any run of insertions: the names in the order in which they first came,
each under the definition that came last, and an index that leads to all of them. What is inserted
later moves no name and changes the definition of no other.
-/

namespace UtilityCss.Registry

open Text

variable {r r' : Registry} {name x : Text} {d : Definition} {i : Nat}

theorem stored?_of_position? (h : r.position? name = some i) : r.stored? name = r.entries[i]? := by
  rw [stored?, show r.index.get? name = some i from h, Option.bind_some]

theorem stored?_of_position?_eq_none (h : r.position? name = none) : r.stored? name = none := by
  rw [stored?, show r.index.get? name = none from h, Option.bind_none]

theorem names_insert (r : Registry) (name : Text) (d : Definition) :
    (r.insert name d).names = if name ∈ r.names then r.names else r.names ++ [name] := by
  unfold insert
  split
  next i h =>
    rw [if_pos (List.mem_of_getElem? (position?_eq_some_iff.mp h))]
    exact names_modify r.entries i d
  next h =>
    rw [if_neg (position?_eq_none_iff.mp h)]
    exact List.map_append

theorem prefix_names_insert (r : Registry) (name : Text) (d : Definition) :
    r.names <+: (r.insert name d).names := by
  rw [names_insert]
  split
  · exact List.prefix_refl _
  · exact List.prefix_append _ _

/-- What stands behind a name does not move it. -/
theorem position?_of_prefix (h : r.names <+: r'.names) (hi : r.position? x = some i) :
    r'.position? x = some i := by
  rw [position?_eq_some_iff] at hi ⊢
  obtain ⟨behind, hnames⟩ := h
  rw [← hnames, List.getElem?_append_left (List.getElem?_eq_some_iff.mp hi).1, hi]

theorem stored?_insert (r : Registry) (name : Text) (d : Definition) (x : Text) :
    (r.insert name d).stored? x = if x = name then some (name, d) else r.stored? x := by
  unfold insert
  split
  next i h =>
    obtain ⟨old, hold⟩ := exists_entry_of_position? h
    by_cases hx : x = name
    · rw [if_pos hx, hx, stored?]
      simp [h, hold]
    · rw [if_neg hx, stored?, stored?]
      cases hj : r.index.get? x with
      | none => rfl
      | some j =>
          -- Another name stands at another place.
          have hne : i ≠ j := by
            rintro rfl
            have hplace := position?_eq_some_iff.mp h
            rw [position?_eq_some_iff.mp hj, Option.some.injEq] at hplace
            exact hx hplace
          simp [hne]
  next h =>
    by_cases hx : x = name
    · rw [if_pos hx, stored?]
      simp [hx]
    · rw [if_neg hx, stored?, stored?]
      simp only [NameMap.get?_insert, if_neg hx]
      cases hj : r.index.get? x with
      | none => rfl
      | some j =>
          obtain ⟨old, hold⟩ := exists_entry_of_position? hj
          have hlt := (List.getElem?_eq_some_iff.mp hold).1
          rw [Option.bind_some, Option.bind_some, List.getElem?_append_left hlt]

theorem get?_insert (r : Registry) (name : Text) (d : Definition) (x : Text) :
    (r.insert name d).get? x = if x = name then some d else r.get? x := by
  unfold get?
  rw [stored?_insert]
  split <;> rfl

/-! ## Runs -/

structure Records (inserts : List (Text × Definition)) (r : Registry) : Prop where
  /-- The names stand in the order in which they first came, each of them once. -/
  names_eq : r.names = (inserts.map (·.1)).eraseDups
  nodup : r.names.Nodup
  /-- The index holds the names with their places, and nothing else. -/
  index_iff : ∀ x i, r.index.get? x = some i ↔ r.names[i]? = some x
  /-- All look-ups find a name that came, under the definition that came last. -/
  present : ∀ x ∈ inserts.map (·.1), ∃ i d, inserts.reverse.lookup x = some d ∧
    r.position? x = some i ∧ r.entries[i]? = some (x, d) ∧ r.stored? x = some (x, d) ∧
    r.get? x = some d ∧ r.contains x = true
  /-- None of them finds any other name. -/
  absent : ∀ x ∉ inserts.map (·.1), r.position? x = none ∧ r.stored? x = none ∧
    r.get? x = none ∧ r.contains x = false

structure Keeps (later : List Text) (r r' : Registry) : Prop where
  names : r.names <+: r'.names
  position : ∀ x i, r.position? x = some i → r'.position? x = some i
  others : ∀ x ∉ later, r'.position? x = r.position? x ∧ r'.stored? x = r.stored? x ∧
    r'.get? x = r.get? x

theorem ofList_append (inserts later : List (Text × Definition)) :
    ofList (inserts ++ later) =
      later.foldl (fun r (name, d) => r.insert name d) (ofList inserts) := by
  rw [ofList, List.foldl_append, ofList]

theorem ofList_concat (inserts : List (Text × Definition)) (name : Text) (d : Definition) :
    ofList (inserts ++ [(name, d)]) = (ofList inserts).insert name d :=
  ofList_append inserts [(name, d)]

theorem names_ofList (inserts : List (Text × Definition)) :
    (ofList inserts).names = (inserts.map (·.1)).eraseDups := by
  induction inserts using List.reverseRecOn with
  | nil => rfl
  | append_singleton inserts insertion ih =>
      obtain ⟨name, d⟩ := insertion
      rw [ofList_concat, names_insert, ih, List.map_append, List.eraseDups_append,
        List.map_singleton]
      by_cases h : name ∈ inserts.map (·.1)
      · rw [if_pos (List.mem_eraseDups.mpr h)]
        simp [List.removeAll, h]
      · rw [if_neg (mt List.mem_eraseDups.mp h)]
        simp [List.removeAll, h, List.eraseDups_cons]

theorem get?_ofList (inserts : List (Text × Definition)) (x : Text) :
    (ofList inserts).get? x = inserts.reverse.lookup x := by
  induction inserts using List.reverseRecOn with
  | nil => rfl
  | append_singleton inserts insertion ih =>
      obtain ⟨name, d⟩ := insertion
      rw [ofList_concat, get?_insert, ih, List.reverse_append, List.reverse_singleton,
        List.singleton_append, NameMap.lookup_cons_eq_ite]

theorem mem_names_ofList {inserts : List (Text × Definition)} :
    x ∈ (ofList inserts).names ↔ x ∈ inserts.map (·.1) := by
  rw [names_ofList, List.mem_eraseDups]

theorem records_ofList (inserts : List (Text × Definition)) :
    Records inserts (ofList inserts) where
  names_eq := names_ofList inserts
  nodup := nodup_names _
  index_iff _ _ := position?_eq_some_iff
  present x hx := by
    have hname := mem_names_ofList.mpr hx
    obtain ⟨i, hi⟩ := Option.isSome_iff_exists.mp (position?_isSome_iff_mem_names.mpr hname)
    obtain ⟨d, hd⟩ := exists_entry_of_position? hi
    have hentry := stored?_of_position? hi
    rw [hd] at hentry
    have hget : (ofList inserts).get? x = some d := by
      rw [get?, hentry]
      rfl
    exact ⟨i, d, by rw [← get?_ofList, hget], hi, hd, hentry, hget,
      contains_iff_mem_names.mpr hname⟩
  absent x hx := by
    have hname := mt mem_names_ofList.mp hx
    have hnone := position?_eq_none_iff.mpr hname
    have hentry := stored?_of_position?_eq_none hnone
    refine ⟨hnone, hentry, ?_, Bool.eq_false_iff.mpr (mt contains_iff_mem_names.mp hname)⟩
    rw [get?, hentry]
    rfl

theorem Keeps.refl (r : Registry) : Keeps [] r r :=
  ⟨List.prefix_refl _, fun _ _ h => h, fun _ _ => ⟨rfl, rfl, rfl⟩⟩

theorem keeps_insert (r : Registry) (name : Text) (d : Definition) :
    Keeps [name] r (r.insert name d) := by
  have hnames := prefix_names_insert r name d
  refine ⟨hnames, fun x i => position?_of_prefix hnames, fun x hx => ?_⟩
  have hne : x ≠ name := fun heq => hx (List.mem_singleton.mpr heq)
  refine ⟨?_, by rw [stored?_insert, if_neg hne], by rw [get?_insert, if_neg hne]⟩
  cases h : r.position? x with
  | some i => exact position?_of_prefix hnames h
  | none =>
      rw [position?_eq_none_iff] at h ⊢
      rw [names_insert]
      split
      · exact h
      · simp [h, hne]

theorem Keeps.append {first second : List Text} {r'' : Registry} (h : Keeps first r r')
    (h' : Keeps second r' r'') : Keeps (first ++ second) r r'' := by
  refine ⟨h.names.trans h'.names, fun x i hi => h'.position x i (h.position x i hi), fun x hx => ?_⟩
  rw [List.mem_append, not_or] at hx
  obtain ⟨hplace, hentry, hget⟩ := h.others x hx.1
  obtain ⟨hplace', hentry', hget'⟩ := h'.others x hx.2
  exact ⟨hplace'.trans hplace, hentry'.trans hentry, hget'.trans hget⟩

theorem keeps_foldl_insert (r : Registry) (later : List (Text × Definition)) :
    Keeps (later.map (·.1)) r (later.foldl (fun r (name, d) => r.insert name d) r) := by
  induction later generalizing r with
  | nil => exact .refl r
  | cons insertion later ih =>
      exact (keeps_insert r insertion.1 insertion.2).append (ih _)

/-- After any run of insertions the list of entries and the index are in step, and agree with the
run; insertions that follow keep every place, and every definition but those of their own names. -/
theorem ofList_inStep (inserts later : List (Text × Definition)) :
    Records inserts (ofList inserts) ∧
      Keeps (later.map (·.1)) (ofList inserts) (ofList (inserts ++ later)) := by
  rw [ofList_append]
  exact ⟨records_ofList inserts, keeps_foldl_insert _ later⟩

end UtilityCss.Registry
