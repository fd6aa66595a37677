import UtilityCss.Name.Path
import UtilityCss.Theme.Graph

/-!
# Resolving theme variables

From a list of names, the variables that they refer to are collected, directly or through other
variables, in light or dark values. A cycle does not stop the walk; it is noted where the walk
returns to a name of its own path.
-/

namespace UtilityCss.Theme

structure Resolution where
  /-- Every name met, those without an entry included. -/
  resolved : NameSet := .empty
  missing : NameSet := .empty
  /-- The cycles noted, each with the same name at both ends. -/
  cycles : List (List Text) := []

namespace Resolution

def warnings (r : Resolution) : List Text :=
  r.cycles.map fun cycle => "Circular variable reference: ".toList ++ Path.render cycle

end Resolution

namespace Graph

theorem mem_names_of_get? {g : Graph} {name : Text} {n : Node} (h : g.get? name = some n) :
    name ∈ g.names :=
  Path.mem_names_of_lookup h

/-- Visits names one after the other, coming along `path`; a name is followed to its dependencies
the first time it is met. -/
def visit (g : Graph) (path names : List Text) (r : Resolution) : Resolution :=
  match names with
  | [] => r
  | name :: rest =>
      if _hpath : name ∈ path then
        visit g path rest { r with cycles := r.cycles ++ [Path.cycleAt path name] }
      else if name ∈ r.resolved then visit g path rest r
      else
        let met := { r with resolved := r.resolved.insert name }
        match _h : g.get? name with
        | none => visit g path rest { met with missing := met.missing.insert name }
        | some n => visit g path rest (visit g (path ++ [name]) n.dependencies.toList met)
termination_by ((Path.remaining g.names path).length, names.length)
decreasing_by
  · exact Prod.Lex.right _ (Nat.lt_succ_self _)
  · exact Prod.Lex.right _ (Nat.lt_succ_self _)
  · exact Prod.Lex.right _ (Nat.lt_succ_self _)
  · exact Prod.Lex.left _ _ (Path.length_remaining_lt (mem_names_of_get? _h) _hpath)
  · exact Prod.Lex.right _ (Nat.lt_succ_self _)

def resolve (g : Graph) (roots : List Text) : Resolution :=
  visit g [] (roots.map stripHyphens) {}

end Graph

end UtilityCss.Theme
