import UtilityCss.Text.Order

/-!
# Tables keyed by name

A finite table from names to values, kept as its entries in ascending order of their names.
Entering a name a second time replaces its value.
-/

namespace UtilityCss

open Text

/-- A finite table whose entries are listed by ascending name. -/
structure NameMap (α : Type) where
  entries : List (Text × α)
  ascending : entries.Pairwise fun a b => Precedes a.1 b.1

namespace NameMap

variable {α : Type}

def empty : NameMap α :=
  ⟨[], List.Pairwise.nil⟩

def keys (m : NameMap α) : List Text :=
  m.entries.map (·.1)

def values (m : NameMap α) : List α :=
  m.entries.map (·.2)

def size (m : NameMap α) : Nat :=
  m.entries.length

def get? (m : NameMap α) (name : Text) : Option α :=
  m.entries.lookup name

def contains (m : NameMap α) (name : Text) : Bool :=
  (m.get? name).isSome

/-- Puts an entry in front of the first one whose name follows, in place of one of its own name. -/
def place (name : Text) (value : α) : List (Text × α) → List (Text × α)
  | [] => [(name, value)]
  | (other, old) :: rest =>
      if Precedes name other then (name, value) :: (other, old) :: rest
      else if name = other then (name, value) :: rest
      else (other, old) :: place name value rest

theorem fst_of_mem_place {name : Text} {value : α} {entries : List (Text × α)} {e : Text × α}
    (h : e ∈ place name value entries) : e.1 = name ∨ e ∈ entries := by
  induction entries with
  | nil => simp_all [place]
  | cons head rest ih =>
      unfold place at h
      split at h
      · rcases List.mem_cons.mp h with rfl | h
        · exact Or.inl rfl
        · exact Or.inr h
      · split at h
        · rcases List.mem_cons.mp h with rfl | h
          · exact Or.inl rfl
          · exact Or.inr (List.mem_cons_of_mem _ h)
        · rcases List.mem_cons.mp h with rfl | h
          · exact Or.inr List.mem_cons_self
          · exact (ih h).imp_right (List.mem_cons_of_mem _)

theorem ascending_place {name : Text} {value : α} {entries : List (Text × α)}
    (h : entries.Pairwise fun a b => Precedes a.1 b.1) :
    (place name value entries).Pairwise fun a b => Precedes a.1 b.1 := by
  induction entries with
  | nil => simp [place]
  | cons head rest ih =>
      have hrest : ∀ e ∈ rest, Precedes head.1 e.1 := fun _ => List.rel_of_pairwise_cons h
      unfold place
      split
      next hlt =>
        refine List.Pairwise.cons (fun e he => ?_) h
        rcases List.mem_cons.mp he with rfl | he
        · exact hlt
        · exact hlt.trans (hrest e he)
      next hlt =>
        split
        next heq => exact List.Pairwise.cons (fun e he => heq ▸ hrest e he) h.of_cons
        next hne =>
          refine List.Pairwise.cons (fun e he => ?_) (ih h.of_cons)
          rcases fst_of_mem_place he with heq | he
          · exact heq ▸ precedes_of_not_precedes hlt hne
          · exact hrest e he

def insert (name : Text) (value : α) (m : NameMap α) : NameMap α :=
  ⟨place name value m.entries, ascending_place m.ascending⟩

/-! ## What is found -/

theorem lookup_cons_eq_ite (name : Text) (value : α) (rest : List (Text × α)) (x : Text) :
    ((name, value) :: rest).lookup x = if x = name then some value else rest.lookup x := by
  rw [List.lookup_cons]
  by_cases hx : x = name
  · rw [if_pos hx, beq_iff_eq.mpr hx]
  · rw [if_neg hx, beq_eq_false_iff_ne.mpr hx]

theorem lookup_place (name : Text) (value : α) (entries : List (Text × α)) (x : Text) :
    (place name value entries).lookup x = if x = name then some value else entries.lookup x := by
  induction entries with
  | nil => exact lookup_cons_eq_ite name value [] x
  | cons head rest ih =>
      obtain ⟨other, old⟩ := head
      rw [place]
      split
      next => exact lookup_cons_eq_ite name value _ x
      next =>
        split
        next heq =>
          rw [lookup_cons_eq_ite, lookup_cons_eq_ite, ← heq]
          by_cases hx : x = name <;> simp only [hx, if_true, if_false]
        next hne =>
          rw [lookup_cons_eq_ite, lookup_cons_eq_ite, ih]
          by_cases hx : x = name
          · simp only [hx, hne, if_true, if_false]
          · rw [if_neg hx, if_neg hx]

@[simp] theorem get?_empty (x : Text) : (empty : NameMap α).get? x = none := rfl

@[simp] theorem get?_insert (name : Text) (value : α) (m : NameMap α) (x : Text) :
    (m.insert name value).get? x = if x = name then some value else m.get? x :=
  lookup_place name value m.entries x

end NameMap

end UtilityCss
