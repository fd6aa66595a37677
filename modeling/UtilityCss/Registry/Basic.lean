import UtilityCss.Name.Map

/-!
# The class registry

Classes are registered by name with a definition: declarations, a list of other classes to
compose, both, or a whole ruleset. A registry lists its classes in the order in which their names
came, and an index of the names says where each class stands in the list; a second definition of a
name takes the place of the first.
-/

namespace UtilityCss

open Text

inductive Definition.Body where
  | declaration (css : Text)
  | composes (references : List Text)
  | composesAndDeclaration (references : List Text) (css : Text)
  | ruleset (css : Text)
  deriving DecidableEq

structure Definition where
  body : Definition.Body
  comment : Option Text := none
  deriving DecidableEq

namespace Definition

def Body.label : Body → Text
  | declaration _ => "declaration".toList
  | composes _ => "composes".toList
  | composesAndDeclaration _ _ => "composes+declaration".toList
  | ruleset _ => "ruleset".toList

def isRuleset (d : Definition) : Bool :=
  d.body matches .ruleset _

end Definition

/-- The index leads from each name to the place of its entry, and from no other name anywhere. -/
def Registry.Indexes (index : NameMap Nat) (entries : List (Text × Definition)) : Prop :=
  ∀ name i, index.get? name = some i ↔ (entries.map (·.1))[i]? = some name

/-- The registered classes in the order in which their names came, with an index of the names. -/
structure Registry where
  entries : List (Text × Definition)
  index : NameMap Nat
  indexed : Registry.Indexes index entries

namespace Registry

theorem Indexes.nil : Indexes .empty [] := by
  simp [Indexes]

/-- A new name goes behind the others. -/
theorem Indexes.push {index : NameMap Nat} {entries : List (Text × Definition)} {name : Text}
    (h : Indexes index entries) (hnew : index.get? name = none) (d : Definition) :
    Indexes (index.insert name entries.length) (entries ++ [(name, d)]) := by
  intro x i
  have hlength : (entries.map (·.1)).length = entries.length := List.length_map _
  rw [NameMap.get?_insert, List.map_append, List.getElem?_append, hlength]
  by_cases hx : x = name
  · have hfree : (entries.map (·.1))[i]? ≠ some x := fun hi => by
      rw [hx, ← h name i, hnew] at hi
      cases hi
    rw [if_pos hx, Option.some.injEq]
    split
    next hlt => exact iff_of_false (by omega) hfree
    next hle =>
      rw [List.map_singleton, List.getElem?_singleton, hx]
      split
      next heq => exact iff_of_true (by omega) rfl
      next hne => exact iff_of_false (by omega) (by simp)
  · rw [if_neg hx, h x i]
    split
    next => exact Iff.rfl
    next hle =>
      rw [List.getElem?_eq_none (by omega), List.map_singleton, List.getElem?_singleton]
      refine iff_of_false (by simp) ?_
      split
      next => simpa using fun heq => hx heq.symm
      next => simp

theorem names_modify (entries : List (Text × Definition)) (i : Nat) (d : Definition) :
    (entries.modify i fun entry => (entry.1, d)).map (·.1) = entries.map (·.1) := by
  apply List.ext_getElem?
  intro j
  rw [List.getElem?_map, List.getElem?_modify, List.getElem?_map]
  cases entries[j]? with
  | none => rfl
  | some entry =>
      by_cases hj : i = j <;> simp [hj]

/-- A new definition leaves the names where they are. -/
theorem Indexes.modify {index : NameMap Nat} {entries : List (Text × Definition)}
    (h : Indexes index entries) (i : Nat) (d : Definition) :
    Indexes index (entries.modify i fun entry => (entry.1, d)) := by
  intro x j
  rw [names_modify, h x j]

def empty : Registry :=
  ⟨[], .empty, .nil⟩

instance : Inhabited Registry :=
  ⟨empty⟩

/-- The names in the order in which they came. -/
def names (r : Registry) : List Text :=
  r.entries.map (·.1)

/-- The place of a name among the others, counted from zero. -/
def position? (r : Registry) (name : Text) : Option Nat :=
  r.index.get? name

/-- The entry of a name: the name as it is stored, with its definition. -/
def stored? (r : Registry) (name : Text) : Option (Text × Definition) :=
  (r.index.get? name).bind fun i => r.entries[i]?

def get? (r : Registry) (name : Text) : Option Definition :=
  (r.stored? name).map (·.2)

def contains (r : Registry) (name : Text) : Bool :=
  r.index.contains name

def size (r : Registry) : Nat :=
  r.entries.length

/-- Replaces the definition of a name where it stands, or adds the name behind the others. -/
def insert (name : Text) (d : Definition) (r : Registry) : Registry :=
  match h : r.index.get? name with
  | some i => ⟨r.entries.modify i fun entry => (entry.1, d), r.index, r.indexed.modify i d⟩
  | none => ⟨r.entries ++ [(name, d)], r.index.insert name r.entries.length, r.indexed.push h d⟩

def ofList (entries : List (Text × Definition)) : Registry :=
  entries.foldl (fun r (name, d) => r.insert name d) empty

theorem position?_eq_some_iff {r : Registry} {name : Text} {i : Nat} :
    r.position? name = some i ↔ r.names[i]? = some name :=
  r.indexed name i

/-- A place that the index gives has the entry of the name. -/
theorem exists_entry_of_position? {r : Registry} {name : Text} {i : Nat}
    (h : r.position? name = some i) : ∃ d, r.entries[i]? = some (name, d) := by
  rw [position?_eq_some_iff, names, List.getElem?_map, Option.map_eq_some_iff] at h
  obtain ⟨⟨stored, d⟩, hentry, rfl⟩ := h
  exact ⟨d, hentry⟩

theorem mem_names_of_get? {r : Registry} {name : Text} {d : Definition}
    (h : r.get? name = some d) : name ∈ r.names := by
  obtain ⟨entry, hentry, -⟩ := Option.map_eq_some_iff.mp h
  obtain ⟨i, hindex, -⟩ := Option.bind_eq_some_iff.mp hentry
  exact List.mem_of_getElem? (position?_eq_some_iff.mp hindex)

end Registry

end UtilityCss
