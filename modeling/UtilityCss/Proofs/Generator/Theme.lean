import UtilityCss.Generator.Basic
import UtilityCss.Proofs.Theme.Reference
import UtilityCss.Proofs.Theme.Resolution

/-!
# The theme of a style sheet

The theme declares the variables that the style sheet mentions and those that references lead to
from there, each in the modes for which it has a value, and nothing else. What a declared value
mentions is declared as well, perhaps in the other mode only, or is missing from the table.
-/

namespace UtilityCss.Generator

open Text Css Theme Relation

variable {table : List Variable} {graph : Graph}

/-- The style sheet text mentions the variable, or another from which references lead to it. -/
def Wanted (table : List Variable) (css name : Text) : Prop :=
  ∃ root, Mentions css root ∧ Reaches table root name

theorem Wanted.step {css name other : Text} (h : Wanted table css name)
    (hstep : DependsOn table name other) : Wanted table css other := by
  obtain ⟨root, hroot, hreach⟩ := h
  exact ⟨root, hroot, hreach.tail hstep⟩

/-- The names and values are those of the wanted variables with a value in one mode, each once and by
ascending name. -/
structure DeclaresWanted (table : List Variable) (css : Text) (value : Variable → Option Text)
    (declared : List (Text × Text)) : Prop where
  ascending : declared.Pairwise fun d e => Precedes d.1 e.1
  mem_iff : ∀ name text, (name, text) ∈ declared ↔
    Wanted table css name ∧ ∃ v ∈ table, v.name = name ∧ value v = some text

/-- A line `--name: value;` for each declaration, in a block with a repeated selector; without
declarations there is no block. -/
def declarationBlock (selector : Text) (specificity : Nat) (declared : List (Text × Text)) : Text :=
  if declared.isEmpty then []
  else
    block (List.replicate (max 1 specificity) selector).flatten
      (join ['\n'] (declared.map fun d => "--".toList ++ d.1 ++ ": ".toList ++ d.2 ++ [';']))

def declaredIn (graph : Graph) (value : Node → Option Text) (names : List Text) :
    List (Text × Text) :=
  (names.filterMap graph.get?).filterMap fun n => (value n).map fun text => (n.name, text)

theorem modeBlock_eq (graph : Graph) (value : Node → Option Text) (names : List Text)
    (selector : Text) (specificity : Nat) :
    modeBlock selector specificity
        ((names.filterMap graph.get?).filterMap fun n => (value n).map (declaration n.name)) =
      declarationBlock selector specificity (declaredIn graph value names) := by
  have hlines :
      ((names.filterMap graph.get?).filterMap fun n => (value n).map (declaration n.name)) =
      (declaredIn graph value names).map fun d =>
        "--".toList ++ d.1 ++ ": ".toList ++ d.2 ++ [';'] := by
    rw [declaredIn, List.map_filterMap]
    congr 1
    funext n
    rw [Option.map_map]
    rfl
  rw [modeBlock, declarationBlock, hlines, List.isEmpty_map]

theorem declaresWanted_declaredIn {css : Text} {names : NameSet} (value : Node → Option Text)
    (value' : Variable → Option Text) (hvalue : ∀ v, value (Node.ofVariable v) = value' v)
    (hnodes : ∀ x n, graph.get? x = some n ↔ ∃ v ∈ table, v.name = x ∧ Node.ofVariable v = n)
    (hnames : ∀ x, x ∈ names ↔ Wanted table css x) :
    DeclaresWanted table css value' (declaredIn graph value names.toList) := by
  have hname : ∀ x n, graph.get? x = some n → n.name = x := by
    intro x n hn
    obtain ⟨v, -, hv, rfl⟩ := (hnodes x n).mp hn
    exact hv
  refine ⟨?_, ?_⟩
  · have hascending : (names.toList.filterMap graph.get?).Pairwise fun n n' =>
        Precedes n.name n'.name := by
      refine List.pairwise_filterMap.mpr (names.ascending.imp ?_)
      intro x y hprecedes n hn n' hn'
      rw [hname x n hn, hname y n' hn']
      exact hprecedes
    refine List.pairwise_filterMap.mpr (hascending.imp ?_)
    intro n n' hprecedes d hd d' hd'
    obtain ⟨text, -, rfl⟩ := Option.map_eq_some_iff.mp hd
    obtain ⟨text', -, rfl⟩ := Option.map_eq_some_iff.mp hd'
    exact hprecedes
  · intro name text
    rw [declaredIn, List.mem_filterMap]
    constructor
    · rintro ⟨n, hn, hd⟩
      obtain ⟨x, hx, hget⟩ := List.mem_filterMap.mp hn
      obtain ⟨text', htext, heq⟩ := Option.map_eq_some_iff.mp hd
      obtain ⟨rfl, rfl⟩ := Prod.mk.inj heq
      obtain ⟨v, hv, hvname, rfl⟩ := (hnodes x n).mp hget
      rw [hname x _ hget]
      exact ⟨(hnames x).mp hx, v, hv, hvname, hvalue v ▸ htext⟩
    · rintro ⟨hwanted, v, hv, rfl, htext⟩
      have hget := (hnodes v.name _).mpr ⟨v, hv, rfl, rfl⟩
      refine ⟨Node.ofVariable v, List.mem_filterMap.mpr ⟨v.name, (hnames _).mpr hwanted, hget⟩, ?_⟩
      rw [hvalue, htext]
      rfl

/-! ## The wanted variables -/

theorem stripHyphens_eq_self {name : Text} (h : ¬ "--".toList <+: name) :
    stripHyphens name = name := by
  unfold stripHyphens
  split
  next t => exact absurd ⟨t, rfl⟩ h
  next => rfl

theorem mem_resolve_references_iff {css : Text} (hrefers : graph.Refers = DependsOn table)
    (hplain : ∀ x, Wanted table css x → ¬ "--".toList <+: x) (x : Text) :
    x ∈ (graph.resolve (references css).toList).resolved ↔ Wanted table css x := by
  have hroot : ∀ root, Mentions css root → stripHyphens root = root := fun root hroot =>
    stripHyphens_eq_self (hplain root ⟨root, hroot, .refl⟩)
  rw [mem_resolved_iff, hrefers]
  constructor
  · rintro ⟨root, hmem, hreach⟩
    have hmentions := mem_references_iff.mp hmem
    exact ⟨root, hmentions, hroot root hmentions ▸ hreach⟩
  · rintro ⟨root, hmentions, hreach⟩
    exact ⟨root, mem_references_iff.mpr hmentions, (hroot root hmentions).symm ▸ hreach⟩

theorem mem_ofList_map_stripHyphens {css : Text} {names : NameSet}
    (hplain : ∀ x, Wanted table css x → ¬ "--".toList <+: x)
    (hnames : ∀ x, x ∈ names ↔ Wanted table css x) (x : Text) :
    x ∈ NameSet.ofList (names.toList.map stripHyphens) ↔ Wanted table css x := by
  have hself : ∀ y ∈ names.toList, stripHyphens y = y := fun y hy =>
    stripHyphens_eq_self (hplain y ((hnames y).mp hy))
  rw [NameSet.mem_ofList, List.map_congr_left hself, List.map_id']
  exact hnames x

theorem mem_missing_iff_wanted {css : Text}
    (hnodes : ∀ x n, graph.get? x = some n ↔ ∃ v ∈ table, v.name = x ∧ Node.ofVariable v = n)
    (hresolved : ∀ x, x ∈ (graph.resolve (references css).toList).resolved ↔ Wanted table css x)
    (x : Text) : x ∈ (graph.resolve (references css).toList).missing ↔
      Wanted table css x ∧ ∀ v ∈ table, v.name ≠ x := by
  have hentry : graph.get? x = none ↔ ∀ v ∈ table, v.name ≠ x := by
    rw [Option.eq_none_iff_forall_ne_some]
    constructor
    · intro hnone v hv hname
      exact hnone _ ((hnodes x _).mpr ⟨v, hv, hname, rfl⟩)
    · intro hnone n hn
      obtain ⟨v, hv, hname, -⟩ := (hnodes x n).mp hn
      exact hnone v hv hname
  rw [mem_missing_iff, hresolved, hentry]

/-- A wanted variable is declared with each of its values. -/
theorem mem_declared_iff {css name text : Text} {light dark : List (Text × Text)}
    (hlight : DeclaresWanted table css Variable.light light)
    (hdark : DeclaresWanted table css Variable.dark dark) :
    (name, text) ∈ light ++ dark ↔ Wanted table css name ∧
      ∃ v ∈ table, v.name = name ∧ (v.light = some text ∨ v.dark = some text) := by
  rw [List.mem_append, hlight.mem_iff, hdark.mem_iff, ← and_or_left]
  simp only [and_or_left, exists_or]

theorem declared_or_missing {css name text other : Text} {light dark : List (Text × Text)}
    (hvalid : Variable.tableProblem? table = none)
    (hlight : DeclaresWanted table css Variable.light light)
    (hdark : DeclaresWanted table css Variable.dark dark) (hd : (name, text) ∈ light ++ dark)
    (hmentions : Mentions text other) :
    (∃ e ∈ light ++ dark, e.1 = other) ∨
      Wanted table css other ∧ ∀ v ∈ table, v.name ≠ other := by
  obtain ⟨hwanted, v, hv, hname, hvalue⟩ := (mem_declared_iff hlight hdark).mp hd
  have hother : Wanted table css other :=
    hwanted.step ⟨v, hv, hname, text, hvalue, mem_references_iff.mpr hmentions⟩
  by_cases hentry : ∃ w ∈ table, w.name = other
  · obtain ⟨w, hw, hwname⟩ := hentry
    obtain ⟨value, hvalue⟩ := (sound_of_mem hvalid hw).2
    exact Or.inl ⟨(other, value),
      (mem_declared_iff hlight hdark).mpr ⟨hother, w, hw, hwname, hvalue⟩, rfl⟩
  · exact Or.inr ⟨hother, fun w hw hwname => hentry ⟨w, hw, hwname⟩⟩

/-- The theme declares what is wanted and has a value, each mode in its own block, and whatever a
declared value mentions is declared in some block or missing from the table. -/
theorem theme_declares_wanted (hvalid : Variable.tableProblem? table = none) (g : Generator)
    (r : Result) (hplain : ∀ name, Wanted table r.css name → ¬ "--".toList <+: name) :
    ∃ graph light dark, Graph.ofTable table = .ok graph ∧
      (g.theme r graph).1.light =
        declarationBlock ":root".toList g.config.themeSpecificity light ∧
      (g.theme r graph).1.dark =
        declarationBlock ":root.dark".toList g.config.themeSpecificity dark ∧
      DeclaresWanted table r.css Variable.light light ∧
      DeclaresWanted table r.css Variable.dark dark ∧
      (∀ name, name ∈ (g.theme r graph).2.missing ↔
        Wanted table r.css name ∧ ∀ v ∈ table, v.name ≠ name) ∧
      ∀ d ∈ light ++ dark, Wanted table r.css d.1 ∧ d.1 ∉ (g.theme r graph).2.missing ∧
        ∀ other, Mentions d.2 other →
          (∃ e ∈ light ++ dark, e.1 = other) ∨ other ∈ (g.theme r graph).2.missing := by
  obtain ⟨graph, hgraph, hnodes⟩ := Graph.ofTable_of_tableProblem? hvalid
  have hrefers := Graph.refers_eq_dependsOn hnodes
  have hresolved := mem_resolve_references_iff hrefers hplain
  have hnames := mem_ofList_map_stripHyphens hplain hresolved
  let names := NameSet.ofList
    ((graph.resolve r.references.toList).resolved.toList.map stripHyphens)
  have hlight : DeclaresWanted table r.css Variable.light
      (declaredIn graph Node.light names.toList) :=
    declaresWanted_declaredIn Node.light Variable.light (fun _ => rfl) hnodes hnames
  have hdark : DeclaresWanted table r.css Variable.dark
      (declaredIn graph Node.dark names.toList) :=
    declaresWanted_declaredIn Node.dark Variable.dark (fun _ => rfl) hnodes hnames
  have hmissing := mem_missing_iff_wanted hnodes hresolved
  refine ⟨graph, declaredIn graph Node.light names.toList, declaredIn graph Node.dark names.toList,
    hgraph, modeBlock_eq _ _ _ _ _, modeBlock_eq _ _ _ _ _, hlight, hdark, hmissing, ?_⟩
  rintro ⟨name, text⟩ hd
  obtain ⟨hwanted, v, hv, hname, -⟩ := (mem_declared_iff hlight hdark).mp hd
  refine ⟨hwanted, fun hmem => ((hmissing name).mp hmem).2 v hv hname, fun other hmentions => ?_⟩
  exact (declared_or_missing hvalid hlight hdark hd hmentions).imp_right (hmissing other).mpr

/-- A light value that needs a dark one, which refers back to it and to a name without an entry; the
last variable is not wanted. -/
def modesTable : List Variable :=
  [{ name := ['a'], light := some "var(--b)".toList },
    { name := ['b'], dark := some "calc(1px + var( --a, var(--nope)))".toList },
    { name := ['c'], light := some "1px".toList }]

theorem theme_declares_wanted_modesTable :
    let g : Generator := {
      registry := .empty, interpreters := Interpreter.standard, known := .standard }
    let r : Result := { css := "p \x7b color: var(--a) \x7d".toList, diagnostics := [] }
    Variable.tableProblem? modesTable = none ∧
      (∀ name, Wanted modesTable r.css name → ¬ "--".toList <+: name) ∧
      ∃ graph light dark, Graph.ofTable modesTable = .ok graph ∧
        (g.theme r graph).1.light = declarationBlock ":root".toList 1 light ∧
        (g.theme r graph).1.dark = declarationBlock ":root.dark".toList 1 dark ∧
        (['a'], "var(--b)".toList) ∈ light ∧ (∀ text, (['c'], text) ∉ light) ∧
        (∃ text, (['b'], text) ∈ dark) ∧ "nope".toList ∈ (g.theme r graph).2.missing := by
  intro g r
  have hvalid : Variable.tableProblem? modesTable = none := by decide
  -- The names that are wanted, and no reference leads out of them.
  let reach : List Text := [['a'], ['b'], "nope".toList]
  have hroots : ∀ x ∈ (references r.css).toList, x ∈ reach := by decide +kernel
  have hclosed : ∀ v ∈ modesTable, ∀ value ∈ v.light.toList ++ v.dark.toList,
      ∀ x ∈ (references value).toList, x ∈ reach := by decide +kernel
  have hreach : ∀ name, Wanted modesTable r.css name → name ∈ reach := by
    rintro name ⟨root, hroot, hway⟩
    cases hway with
    | refl => exact hroots _ (mem_references_iff.mpr hroot)
    | tail _ hstep =>
        obtain ⟨v, hv, -, value, hvalue, hx⟩ := hstep
        exact hclosed v hv value (by simpa using hvalue) _ hx
  have hplain : ∀ name, Wanted modesTable r.css name → ¬ "--".toList <+: name := by
    have hnames : ∀ x ∈ reach, ¬ "--".toList <+: x := by decide
    exact fun name hwanted => hnames name (hreach name hwanted)
  have ha : Wanted modesTable r.css ['a'] :=
    ⟨['a'], mem_references_iff.mp (by decide +kernel), .refl⟩
  have hb : Wanted modesTable r.css ['b'] :=
    ha.step ⟨_, List.mem_cons_self, rfl, _, Or.inl rfl, by decide +kernel⟩
  have hnope : Wanted modesTable r.css "nope".toList :=
    hb.step ⟨_, List.mem_cons_of_mem _ List.mem_cons_self, rfl, _, Or.inr rfl, by decide +kernel⟩
  obtain ⟨graph, light, dark, hgraph, hlightText, hdarkText, hlight, hdark, hmissing, -⟩ :=
    theme_declares_wanted hvalid g r hplain
  refine ⟨hvalid, hplain, graph, light, dark, hgraph, hlightText, hdarkText, ?_, ?_, ?_, ?_⟩
  · exact (hlight.mem_iff _ _).mpr ⟨ha, _, List.mem_cons_self, rfl, rfl⟩
  · intro text hmem
    exact absurd (hreach _ ((hlight.mem_iff _ _).mp hmem).1) (by decide)
  · exact ⟨_, (hdark.mem_iff _ _).mpr
      ⟨hb, _, List.mem_cons_of_mem _ List.mem_cons_self, rfl, rfl⟩⟩
  · exact (hmissing _).mpr ⟨hnope, by decide⟩

end UtilityCss.Generator
