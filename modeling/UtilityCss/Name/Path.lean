import UtilityCss.Text.Basic

/-!
# Walks along references

A walk from name to name keeps the path it came by. It goes on only to names that have an entry
and are not on the path, so the names that remain for it become fewer with every step; this is
why the walks of this library end, cycles or not.
-/

namespace UtilityCss.Path

def remaining (names path : List Text) : List Text :=
  names.filter fun name => !path.contains name

/-- The part of a path that a return to `name` closes to a cycle, `name` at both ends. -/
def cycleAt (path : List Text) (name : Text) : List Text :=
  path.dropWhile (· != name) ++ [name]

def render (names : List Text) : Text :=
  Text.join " → ".toList names

theorem length_remaining_lt {names path : List Text} {name : Text} (hentry : name ∈ names)
    (hfresh : name ∉ path) :
    (remaining names (path ++ [name])).length < (remaining names path).length := by
  induction names with
  | nil => cases hentry
  | cons other rest ih =>
      have hle : (remaining rest (path ++ [name])).length ≤ (remaining rest path).length := by
        unfold remaining
        rw [← List.countP_eq_length_filter, ← List.countP_eq_length_filter]
        exact List.countP_mono_left fun x _ => by simp_all
      by_cases heq : other = name
      · subst heq
        simp only [remaining, List.filter_cons] at *
        simpa [hfresh] using Nat.lt_succ_of_le hle
      · have hmem : name ∈ rest := by
          rcases List.mem_cons.mp hentry with h | h
          · exact absurd h.symm heq
          · exact h
        have hlt := ih hmem
        simp only [remaining, List.filter_cons] at *
        by_cases hother : other ∈ path <;> simpa [hother, heq] using hlt

theorem mem_names_of_lookup {α : Type} {entries : List (Text × α)} {name : Text} {value : α}
    (h : entries.lookup name = some value) : name ∈ entries.map (·.1) := by
  induction entries with
  | nil => cases h
  | cons entry rest ih =>
      rw [List.lookup_cons] at h
      split at h
      next heq => simp [beq_iff_eq.mp heq]
      next => exact List.mem_cons_of_mem _ (ih h)

end UtilityCss.Path
