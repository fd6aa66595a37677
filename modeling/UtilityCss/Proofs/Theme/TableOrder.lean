import UtilityCss.Proofs.Name.Map
import UtilityCss.Proofs.Text.Order
import UtilityCss.Proofs.Theme.Dependency
import UtilityCss.Theme.Stylesheet

/-!
# Themes and the order of their rows

A table without fault names each variable once, so that the order of its rows leaves no trace in the
graph: all that is read from the graph is the same. Nor does a style sheet show in which order, how
often and with how many hyphens in front its names were given.
-/

namespace UtilityCss.Theme

open Text

theorem tableProblem?_perm {table table' : List Variable} (hperm : table.Perm table')
    (h : Variable.tableProblem? table = none) : Variable.tableProblem? table' = none := by
  obtain ⟨hrows, hnodup⟩ := tableProblem?_eq_none_iff.mp h
  refine tableProblem?_eq_none_iff.mpr ⟨fun v hv => hrows v (hperm.mem_iff.mpr hv), ?_⟩
  exact (hperm.map (·.name)).nodup_iff.mp hnodup

namespace Graph

theorem eq_of_get?_eq {g g' : Graph} (h : ∀ x, g.get? x = g'.get? x) : g = g' := by
  obtain ⟨nodes⟩ := g
  obtain ⟨nodes'⟩ := g'
  exact congrArg Graph.mk (NameMap.eq_of_get?_eq h)

theorem mem_names_iff {g : Graph} {x : Text} : x ∈ g.names ↔ ∃ n, g.get? x = some n := by
  simp only [names, NameMap.keys, List.mem_map, get?, NameMap.get?_eq_some_iff, Prod.exists,
    exists_and_right, exists_eq_right]

theorem ascending_names (g : Graph) : g.names.Pairwise Precedes :=
  List.pairwise_map.mpr g.nodes.ascending

theorem names_of_nodes {table : List Variable} {g : Graph}
    (hnodup : (table.map (·.name)).Nodup)
    (hnodes : ∀ x n, g.get? x = some n ↔ ∃ v ∈ table, v.name = x ∧ Node.ofVariable v = n) :
    g.names = (table.map (·.name)).mergeSort notAfter := by
  have hdistinct : g.names.Nodup := by
    refine g.ascending_names.imp ?_
    rintro x y hprecedes rfl
    exact not_precedes_self x hprecedes
  have hmem : ∀ x, x ∈ g.names ↔ x ∈ table.map (·.name) := by
    intro x
    rw [mem_names_iff, List.mem_map]
    constructor
    · rintro ⟨n, hn⟩
      obtain ⟨v, hv, hname, -⟩ := (hnodes x n).mp hn
      exact ⟨v, hv, hname⟩
    · rintro ⟨v, hv, hname⟩
      exact ⟨_, (hnodes x _).mpr ⟨v, hv, hname, rfl⟩⟩
  have hperm : g.names.Perm (table.map (·.name)) :=
    (List.perm_ext_iff_of_nodup hdistinct hnodup).mpr hmem
  exact (mergeSort_eq hperm g.ascending_names).symm

/-- A style sheet depends on its names only as a set, the hyphens in front of them aside. -/
theorem stylesheet_congr (g : Graph) {names names' : List Text} (specificity : Nat)
    (h : ∀ x, x ∈ names.map stripHyphens ↔ x ∈ names'.map stripHyphens) :
    g.stylesheet names specificity = g.stylesheet names' specificity := by
  have hset : NameSet.ofList (names.map stripHyphens) = NameSet.ofList (names'.map stripHyphens) :=
    NameSet.eq_of_mem_iff fun x => by rw [NameSet.mem_ofList, NameSet.mem_ofList, h]
  simp only [stylesheet, hset]

end Graph

/-- Tables with the same rows have the same graph, whatever the order of the rows: its names ascend,
and each has the node of its row. Style sheets of one graph agree if they are asked for the same names
and with the same specificity. -/
theorem graph_of_perm {table table' : List Variable}
    (hvalid : Variable.tableProblem? table = none) (hperm : table.Perm table') :
    (∃ g, Graph.ofTable table = .ok g ∧ Graph.ofTable table' = .ok g ∧
      g.names = (table.map (·.name)).mergeSort notAfter ∧
      (∀ x n, g.get? x = some n ↔ ∃ v ∈ table, v.name = x ∧ Node.ofVariable v = n)) ∧
    ∀ (g : Graph) (names names' : List Text) (specificity : Nat),
      (∀ x, x ∈ names.map stripHyphens ↔ x ∈ names'.map stripHyphens) →
        g.stylesheet names specificity = g.stylesheet names' specificity := by
  obtain ⟨g, hg, hnodes⟩ := Graph.ofTable_of_tableProblem? hvalid
  obtain ⟨g', hg', hnodes'⟩ := Graph.ofTable_of_tableProblem? (tableProblem?_perm hperm hvalid)
  have hsame : g' = g := by
    refine Graph.eq_of_get?_eq fun x => Option.ext fun n => ?_
    rw [hnodes x n, hnodes' x n]
    simp only [hperm.mem_iff]
  have hnames := Graph.names_of_nodes (tableProblem?_eq_none_iff.mp hvalid).2 hnodes
  refine ⟨⟨g, hg, hsame ▸ hg', hnames, hnodes⟩, ?_⟩
  intro g names names' specificity h
  exact g.stylesheet_congr specificity h

/-- Rows that do not ascend; the first refers to the last and to a name without an entry. -/
def scatteredTable : List Variable :=
  [{ name := ['b'], light := some "var(--c, var(--nope))".toList },
    { name := ['a'], light := some "1px".toList, dark := some [] },
    { name := ['c'], dark := some "var(--b)".toList, summary := some "last".toList }]

theorem graph_of_perm_scatteredTable :
    Variable.tableProblem? scatteredTable = none ∧
      scatteredTable.Perm scatteredTable.reverse ∧
      (∀ x, x ∈ ["--b".toList, ['a'], ['b']].map stripHyphens ↔
        x ∈ [['a'], "----b".toList].map stripHyphens) ∧
      ∃ g, Graph.ofTable scatteredTable = .ok g ∧ Graph.ofTable scatteredTable.reverse = .ok g ∧
        g.names = [['a'], ['b'], ['c']] ∧
        g.stylesheet ["--b".toList, ['a'], ['b']] 2 = g.stylesheet [['a'], "----b".toList] 2 := by
  have hvalid : Variable.tableProblem? scatteredTable = none := by decide
  have hperm : scatteredTable.Perm scatteredTable.reverse :=
    (List.reverse_perm scatteredTable).symm
  have hsame : ∀ x, x ∈ ["--b".toList, ['a'], ['b']].map stripHyphens ↔
      x ∈ [['a'], "----b".toList].map stripHyphens := by
    intro x
    have hleft : ["--b".toList, ['a'], ['b']].map stripHyphens = [['b'], ['a'], ['b']] := by decide
    have hright : [['a'], "----b".toList].map stripHyphens = [['a'], ['b']] := by decide
    rw [hleft, hright]
    simp only [List.mem_cons, List.not_mem_nil, or_false]
    rw [or_left_comm, or_self]
  obtain ⟨⟨g, hg, hg', hnames, -⟩, hsheet⟩ := graph_of_perm hvalid hperm
  have hsorted : (scatteredTable.map (·.name)).mergeSort notAfter = [['a'], ['b'], ['c']] :=
    mergeSort_eq (by decide) (by decide)
  exact ⟨hvalid, hperm, hsame, g, hg, hg', hnames.trans hsorted, hsheet g _ _ 2 hsame⟩

end UtilityCss.Theme
