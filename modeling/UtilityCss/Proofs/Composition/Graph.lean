import UtilityCss.Proofs.Name.Path
import UtilityCss.Registry.Composition

/-!
# The graph of composed classes

What it means that a class reaches another along `composes`, that something in reach stands in the
way of flattening, that an error tells the truth, and what a class expands to when nothing is
remembered on the way. None of this mentions the walk that flattens a class.
-/

namespace UtilityCss.Registry

open Text Relation

def Composes (r : Registry) (parent child : Text) : Prop :=
  ∃ d, r.get? parent = some d ∧ child ∈ d.references

def Reaches (r : Registry) : Text → Text → Prop :=
  ReflTransGen r.Composes

def HoldsRuleset (r : Registry) (name : Text) : Prop :=
  ∃ d, r.get? name = some d ∧ d.isRuleset = true

/-- A class that no flattening can pass: it is not registered, or a ruleset, or composes itself
along some way. -/
inductive Obstacle (r : Registry) (name : Text) : Prop where
  | unregistered (h : r.get? name = none)
  | ruleset (h : r.HoldsRuleset name)
  | cycle (h : TransGen r.Composes name name)

structure CycleFrom (r : Registry) (root : Text) (path : List Text) : Prop where
  length : 2 ≤ path.length
  closed : path.getLast? = path.head?
  distinct : path.dropLast.Nodup
  reached : ∀ name ∈ path, r.Reaches root name
  chain : path.IsChain r.Composes

/-- The error names an obstacle in reach of `root`, and the class that leads to it. -/
def Explains (r : Registry) (root : Text) : CompositionError → Prop
  | .unknownReference name referencedBy suggestion =>
      r.Reaches root referencedBy ∧ r.Composes referencedBy name ∧ r.get? name = none ∧
        suggestion = closest name r.names
  | .unknownClass name => name = root ∧ r.get? root = none
  | .circular path => r.CycleFrom root path
  | .rulesetReference name referencedBy =>
      r.Reaches root referencedBy ∧ r.Composes referencedBy name ∧ r.HoldsRuleset name
  | .notComposable name => name = root ∧ r.HoldsRuleset root

/-- The expansion of classes one after the other: each class comes behind the expansion of those
that it composes, however often it was there before. -/
inductive Expands (r : Registry) : List Text → List Text → Prop where
  | nil : Expands r [] []
  | cons {name : Text} {d : Definition} {rest inner outer : List Text}
      (hd : r.get? name = some d) (hinner : Expands r d.references inner)
      (houter : Expands r rest outer) : Expands r (name :: rest) (inner ++ name :: outer)

def blockOf (r : Registry) (names : List Text) : Text :=
  let declarations := names.filterMap fun name => (r.get? name).bind Definition.ownDeclaration
  join ['\n'] ((declarations.map trim).filter (!·.isEmpty))

theorem Reaches.refl (r : Registry) (name : Text) : r.Reaches name name :=
  ReflTransGen.refl

theorem Reaches.step {r : Registry} {root parent child : Text} (h : r.Reaches root parent)
    (hc : r.Composes parent child) : r.Reaches root child :=
  ReflTransGen.tail h hc

theorem CycleFrom.exists_obstacle {r : Registry} {root : Text} {path : List Text}
    (h : r.CycleFrom root path) : ∃ name, r.Reaches root name ∧ r.Obstacle name := by
  have hcycle : Path.IsCycle r.Composes path := ⟨h.length, h.closed, h.distinct, h.chain⟩
  obtain ⟨first, hfirst, hloop⟩ := hcycle.exists_transGen
  exact ⟨first, h.reached first hfirst, .cycle hloop⟩

theorem Explains.exists_obstacle {r : Registry} {root : Text} {e : CompositionError}
    (h : r.Explains root e) : ∃ name, r.Reaches root name ∧ r.Obstacle name := by
  cases e with
  | unknownReference name parent suggestion =>
      obtain ⟨hreach, hcomposes, hnone, -⟩ := h
      exact ⟨name, hreach.step hcomposes, .unregistered hnone⟩
  | unknownClass name => exact ⟨root, .refl r root, .unregistered h.2⟩
  | circular path => exact CycleFrom.exists_obstacle h
  | rulesetReference name parent =>
      obtain ⟨hreach, hcomposes, hruleset⟩ := h
      exact ⟨name, hreach.step hcomposes, .ruleset hruleset⟩
  | notComposable name => exact ⟨root, .refl r root, .ruleset h.2⟩

theorem Expands.unique {r : Registry} {names first second : List Text}
    (h : r.Expands names first) (h' : r.Expands names second) : first = second := by
  induction h generalizing second with
  | nil =>
      cases h'
      rfl
  | cons hd _ _ ihinner ihouter =>
      cases h' with
      | cons hd' hinner' houter' =>
          rw [hd, Option.some.injEq] at hd'
          subst hd'
          rw [ihinner hinner', ihouter houter']

/-- An expansion holds what its classes reach, and nothing else. -/
theorem Expands.mem_iff {r : Registry} {names expansion : List Text} {x : Text}
    (h : r.Expands names expansion) : x ∈ expansion ↔ ∃ name ∈ names, r.Reaches name x := by
  induction h with
  | nil => simp
  | @cons name d rest inner outer hd _ _ ihinner ihouter =>
      have hname : r.Reaches name x ↔ x = name ∨ ∃ child ∈ d.references, r.Reaches child x := by
        constructor
        · intro hreach
          rcases ReflTransGen.cases_head hreach with heq | ⟨child, ⟨d', hd', hmem⟩, hchild⟩
          · exact Or.inl heq.symm
          · rw [hd, Option.some.injEq] at hd'
            exact Or.inr ⟨child, hd' ▸ hmem, hchild⟩
        · rintro (rfl | ⟨child, hmem, hchild⟩)
          · exact ReflTransGen.refl
          · exact ReflTransGen.head ⟨d, hd, hmem⟩ hchild
      simp only [List.mem_append, List.mem_cons, exists_eq_or_imp, ihinner, ihouter, hname]
      rw [or_left_comm, or_assoc]

end UtilityCss.Registry
