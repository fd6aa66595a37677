import Mathlib.Logic.Relation
import UtilityCss.Theme.Graph

/-!
# Dependencies of theme variables

A variable depends on the names that its values refer to, the light one and the dark one alike. The
graph of a table that has no fault holds these dependencies and no others.
-/

namespace UtilityCss.Theme

open Text Relation

def DependsOn (table : List Variable) (name other : Text) : Prop :=
  ∃ v ∈ table, v.name = name ∧
    ∃ value, (v.light = some value ∨ v.dark = some value) ∧ other ∈ references value

def Reaches (table : List Variable) : Text → Text → Prop :=
  ReflTransGen (DependsOn table)

/-- References lead to the name from one of the roots, which may be given with hyphens in front. -/
def ReachedFrom (table : List Variable) (roots : List Text) (name : Text) : Prop :=
  ∃ root ∈ roots, Reaches table (stripHyphens root) name

theorem ReachedFrom.trans {table : List Variable} {roots : List Text} {name other : Text}
    (h : ReachedFrom table roots name) (h' : Reaches table name other) :
    ReachedFrom table roots other := by
  obtain ⟨root, hroot, hreach⟩ := h
  exact ⟨root, hroot, ReflTransGen.trans hreach h'⟩

theorem tableProblemBelow?_eq_none_iff {above : List Text} {table : List Variable} :
    Variable.tableProblemBelow? above table = none ↔
      (∀ v ∈ table, v.problem? = none) ∧ (table.map (·.name)).Nodup ∧
        ∀ v ∈ table, v.name ∉ above := by
  induction table generalizing above with
  | nil => simp [Variable.tableProblemBelow?]
  | cons v rest ih =>
      rw [Variable.tableProblemBelow?, List.forall_mem_cons, List.forall_mem_cons, List.map_cons,
        List.nodup_cons]
      cases hproblem : v.problem? with
      | some e => simp
      | none =>
          by_cases habove : v.name ∈ above
          · simp [habove]
          · have hfresh : (∀ w ∈ rest, w.name ∉ v.name :: above) ↔
                v.name ∉ rest.map (·.name) ∧ ∀ w ∈ rest, w.name ∉ above := by
              simp only [List.mem_cons, not_or, List.mem_map, not_exists, not_and, forall_and]
            simp only [habove, if_false, ih, hfresh, not_false_eq_true, true_and]
            refine and_congr_right fun _ => ?_
            rw [and_left_comm, and_assoc]

/-- A table is without fault if each row is and no two rows have the same name. -/
theorem tableProblem?_eq_none_iff {table : List Variable} :
    Variable.tableProblem? table = none ↔
      (∀ v ∈ table, v.problem? = none) ∧ (table.map (·.name)).Nodup := by
  rw [Variable.tableProblem?, tableProblemBelow?_eq_none_iff]
  simp

/-- What no variable of a table without fault lacks. -/
theorem sound_of_mem {table : List Variable} {v : Variable}
    (h : Variable.tableProblem? table = none) (hv : v ∈ table) :
    Variable.isValidName v.name = true ∧ ∃ value, v.light = some value ∨ v.dark = some value := by
  have hproblem := (tableProblem?_eq_none_iff.mp h).1 v hv
  rw [Variable.problem?] at hproblem
  split at hproblem
  next => cases hproblem
  next hname =>
    refine ⟨by simpa using hname, ?_⟩
    split at hproblem
    next => cases hproblem
    next hvalue =>
      cases hlight : v.light with
      | some value => exact ⟨value, Or.inl rfl⟩
      | none =>
          cases hdark : v.dark with
          | some value => exact ⟨value, Or.inr rfl⟩
          | none => exact absurd ⟨hlight, hdark⟩ hvalue

theorem get?_foldl_insert (table : List Variable) (hnodup : (table.map (·.name)).Nodup)
    (nodes : NameMap Node) (x : Text) (n : Node) :
    (table.foldl (fun nodes v => nodes.insert v.name (Node.ofVariable v)) nodes).get? x = some n ↔
      (∃ v ∈ table, v.name = x ∧ Node.ofVariable v = n) ∨
        (∀ v ∈ table, v.name ≠ x) ∧ nodes.get? x = some n := by
  induction table generalizing nodes with
  | nil => simp
  | cons v rest ih =>
      rw [List.map_cons, List.nodup_cons] at hnodup
      rw [List.foldl_cons, ih hnodup.2, NameMap.get?_insert]
      by_cases hx : x = v.name
      · subst hx
        have hrest : ∀ w ∈ rest, w.name ≠ v.name := fun w hw heq =>
          hnodup.1 (List.mem_map.mpr ⟨w, hw, heq⟩)
        rw [if_pos rfl, Option.some.injEq]
        constructor
        · rintro (⟨w, hw, heq, -⟩ | ⟨-, hn⟩)
          · exact absurd heq (hrest w hw)
          · exact Or.inl ⟨v, List.mem_cons_self, rfl, hn⟩
        · rintro (⟨w, hw, heq, hn⟩ | ⟨hne, -⟩)
          · rcases List.mem_cons.mp hw with rfl | hw
            · exact Or.inr ⟨hrest, hn⟩
            · exact absurd heq (hrest w hw)
          · exact absurd rfl (hne v List.mem_cons_self)
      · have hne : ¬ v.name = x := fun heq => hx heq.symm
        simp [hx, hne]

namespace Graph

/-- The graph of a table without fault: its nodes are those of the rows. -/
theorem ofTable_of_tableProblem? {table : List Variable}
    (h : Variable.tableProblem? table = none) :
    ∃ g, ofTable table = .ok g ∧
      ∀ x n, g.get? x = some n ↔ ∃ v ∈ table, v.name = x ∧ Node.ofVariable v = n := by
  refine ⟨_, by rw [ofTable, h], fun x n => ?_⟩
  rw [get?, get?_foldl_insert table (tableProblem?_eq_none_iff.mp h).2]
  simp

def Refers (g : Graph) (name other : Text) : Prop :=
  ∃ n, g.get? name = some n ∧ other ∈ n.dependencies

theorem refers_iff_of_get? {g : Graph} {name other : Text} {n : Node} (hn : g.get? name = some n) :
    g.Refers name other ↔ other ∈ n.dependencies := by
  constructor
  · rintro ⟨n', hn', hother⟩
    rw [hn, Option.some.injEq] at hn'
    exact hn' ▸ hother
  · exact fun hother => ⟨n, hn, hother⟩

theorem not_refers_of_get? {g : Graph} {name other : Text} (hn : g.get? name = none) :
    ¬ g.Refers name other := by
  rintro ⟨n, hsome, -⟩
  rw [hn] at hsome
  cases hsome

end Graph

theorem mem_references_getD {value : Option Text} {x : Text} :
    x ∈ references (value.getD []) ↔ ∃ t, value = some t ∧ x ∈ references t := by
  cases value with
  | none =>
      have hnone : referenceList [] = [] := by rw [referenceList]
      simp [references, hnone]
  | some t => simp

theorem Node.mem_dependencies_ofVariable {v : Variable} {x : Text} :
    x ∈ (Node.ofVariable v).dependencies ↔
      ∃ value, (v.light = some value ∨ v.dark = some value) ∧ x ∈ references value := by
  simp only [Node.dependencies, Node.ofVariable, NameSet.mem_union, mem_references_getD, or_and_right,
    exists_or]

theorem Graph.refers_eq_dependsOn {table : List Variable} {g : Graph}
    (h : ∀ x n, g.get? x = some n ↔ ∃ v ∈ table, v.name = x ∧ Node.ofVariable v = n) :
    g.Refers = DependsOn table := by
  funext name other
  refine propext ⟨?_, ?_⟩
  · rintro ⟨n, hn, hother⟩
    obtain ⟨v, hv, hname, rfl⟩ := (h name n).mp hn
    exact ⟨v, hv, hname, Node.mem_dependencies_ofVariable.mp hother⟩
  · rintro ⟨v, hv, hname, hother⟩
    exact ⟨_, (h name _).mpr ⟨v, hv, hname, rfl⟩, Node.mem_dependencies_ofVariable.mpr hother⟩

end UtilityCss.Theme
