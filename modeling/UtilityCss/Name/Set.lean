import UtilityCss.Text.Order

/-!
# Sets of names

A finite set of texts, kept as the ascending list of its members, so that listing it needs no
sorting and two sets with the same members are the same set.
-/

namespace UtilityCss

open Text

/-- A finite set of names, listed in ascending order. -/
structure NameSet where
  toList : List Text
  ascending : toList.Pairwise Precedes
  deriving DecidableEq

namespace NameSet

def empty : NameSet :=
  ⟨[], List.Pairwise.nil⟩

instance : Inhabited NameSet :=
  ⟨empty⟩

instance : Membership Text NameSet :=
  ⟨fun s name => name ∈ s.toList⟩

instance (name : Text) (s : NameSet) : Decidable (name ∈ s) :=
  Text.decidableMem name s.toList

def size (s : NameSet) : Nat :=
  s.toList.length

/-- Puts a name in front of the first name that follows it; a name already there stays alone. -/
def place (name : Text) : List Text → List Text
  | [] => [name]
  | other :: rest =>
      if Precedes name other then name :: other :: rest
      else if name = other then other :: rest
      else other :: place name rest

theorem mem_place {name x : Text} {names : List Text} :
    x ∈ place name names ↔ x = name ∨ x ∈ names := by
  induction names with
  | nil => simp [place]
  | cons other rest ih =>
      unfold place
      split
      · simp
      · split
        next h => subst h; simp
        next => simp [ih, or_left_comm]

theorem ascending_place {name : Text} {names : List Text} (h : names.Pairwise Precedes) :
    (place name names).Pairwise Precedes := by
  induction names with
  | nil => simp [place]
  | cons other rest ih =>
      have hrest : ∀ x ∈ rest, Precedes other x := fun _ => List.rel_of_pairwise_cons h
      unfold place
      split
      next hlt =>
        refine List.Pairwise.cons (fun x hx => ?_) h
        rcases List.mem_cons.mp hx with rfl | hx
        · exact hlt
        · exact hlt.trans (hrest x hx)
      next hlt =>
        split
        next => exact h
        next hne =>
          refine List.Pairwise.cons (fun x hx => ?_) (ih h.of_cons)
          rcases mem_place.mp hx with rfl | hx
          · exact precedes_of_not_precedes hlt hne
          · exact hrest x hx

def insert (name : Text) (s : NameSet) : NameSet :=
  ⟨place name s.toList, ascending_place s.ascending⟩

def ofList (names : List Text) : NameSet :=
  names.foldl (fun s name => s.insert name) empty

def union (s t : NameSet) : NameSet :=
  t.toList.foldl (fun u name => u.insert name) s

instance : Union NameSet :=
  ⟨union⟩

@[simp] theorem not_mem_empty (x : Text) : ¬ x ∈ empty :=
  List.not_mem_nil

@[simp] theorem mem_insert {x name : Text} {s : NameSet} :
    x ∈ s.insert name ↔ x = name ∨ x ∈ s :=
  mem_place

theorem mem_foldl_insert {x : Text} {names : List Text} {s : NameSet} :
    x ∈ names.foldl (fun u name => u.insert name) s ↔ x ∈ s ∨ x ∈ names := by
  induction names generalizing s with
  | nil => simp
  | cons name names ih => rw [List.foldl_cons, ih, mem_insert]; simp [or_assoc, or_left_comm]

@[simp] theorem mem_ofList {x : Text} {names : List Text} : x ∈ ofList names ↔ x ∈ names := by
  simp [ofList, mem_foldl_insert]

@[simp] theorem mem_union {x : Text} {s t : NameSet} : x ∈ s ∪ t ↔ x ∈ s ∨ x ∈ t :=
  mem_foldl_insert

end NameSet

end UtilityCss
