import UtilityCss.Proofs.Name.Path
import UtilityCss.Proofs.Theme.Resolution

/-!
# The cycles that resolving notes

A step is noted when it closes a cycle. Of the names that a walk is done with, the steps that have
not been noted lead nowhere for ever; this is what the walk keeps, and it is why a cycle among these
names must hold a noted step. No step is walked twice, so that no cycle is noted twice.
-/

namespace UtilityCss.Theme

open Text Relation UtilityCss.Path

variable {g : Graph} {path names : List Text} {name : Text} {r s : Resolution}

/-- Some cycle has been noted whose last step is the one from `x` to `y`. -/
def Noted (r : Resolution) (x y : Text) : Prop :=
  ∃ cycle ∈ r.cycles, [x, y] <:+ cycle

def Unnoted (g : Graph) (r : Resolution) (x y : Text) : Prop :=
  g.Refers x y ∧ ¬ Noted r x y

structure Traced (g : Graph) (path : List Text) (r : Resolution) : Prop where
  isCycle : ∀ cycle ∈ r.cycles, IsCycle g.Refers cycle
  met : ∀ cycle ∈ r.cycles, ∀ x ∈ cycle, x ∈ r.resolved
  distinct : r.cycles.Nodup
  descends : ∀ x ∈ r.resolved, x ∉ path → Acc (fun z y => Unnoted g r y z) x

/-- The walk stands on `path` and goes on to `names`: to each of them from the end of the path, once,
and by a step that is not noted yet. -/
structure Ahead (g : Graph) (path names : List Text) (r : Resolution) : Prop where
  chain : path.IsChain g.Refers
  distinct : path.Nodup
  refers : ∀ x ∈ path.getLast?, ∀ y ∈ names, g.Refers x y
  unnoted : ∀ x ∈ path.getLast?, ∀ y ∈ names, ¬ Noted r x y
  once : ∀ x ∈ path.getLast?, names.Nodup

/-- What a walk over `names` notes: every step back to the path, and no step that starts at a name
met before, other than at the end of the path. -/
structure Notes (path names : List Text) (r s : Resolution) : Prop where
  keeps : ∀ cycle ∈ r.cycles, cycle ∈ s.cycles
  noted : ∀ x ∈ path.getLast?, ∀ y ∈ names, y ∈ path → Noted s x y
  origin : ∀ x y, Noted s x y →
    Noted r x y ∨ (x ∈ path.getLast? ∧ y ∈ names) ∨ (x ∈ s.resolved ∧ x ∉ r.resolved)

theorem closing_unique {x y x' y' : Text} {cycle : List Text} (h : [x, y] <:+ cycle)
    (h' : [x', y'] <:+ cycle) : x = x' ∧ y = y' := by
  have hsuffix := List.suffix_of_suffix_length_le h h' (Nat.le_refl 2)
  have heq := hsuffix.eq_of_length rfl
  simpa using heq

theorem Noted.mono {x y : Text} (h : Noted r x y) (hkeeps : ∀ cycle ∈ r.cycles, cycle ∈ s.cycles) :
    Noted s x y := by
  obtain ⟨cycle, hcycle, hclosing⟩ := h
  exact ⟨cycle, hkeeps cycle hcycle, hclosing⟩

theorem Traced.met_of_noted (h : Traced g path r) {x y : Text} (hnoted : Noted r x y) :
    x ∈ r.resolved := by
  obtain ⟨cycle, hcycle, hclosing⟩ := hnoted
  exact h.met cycle hcycle x (hclosing.mem List.mem_cons_self)

theorem exists_getLast? (hmem : name ∈ path) : ∃ last, last ∈ path.getLast? := by
  cases hlast : path.getLast? with
  | none =>
      rw [List.getLast?_eq_none_iff] at hlast
      exact absurd (hlast ▸ hmem) List.not_mem_nil
  | some last => exact ⟨last, rfl⟩

theorem Traced.start (g : Graph) : Traced g [] {} := by
  refine ⟨?_, ?_, List.nodup_nil, ?_⟩
  · exact fun _ h => absurd h List.not_mem_nil
  · exact fun _ h => absurd h List.not_mem_nil
  · exact fun x hx => absurd hx (NameSet.not_mem_empty x)

/-- The walk is back at a name of its path. -/
theorem Traced.note (h : Traced g path r) (ha : Ahead g path (name :: names) r)
    (hconsistent : Consistent g path r) (hmem : name ∈ path) :
    Traced g path { r with cycles := r.cycles ++ [cycleAt path name] } := by
  obtain ⟨last, hlast⟩ := exists_getLast? hmem
  refine ⟨?_, ?_, ?_, ?_⟩
  · intro cycle hcycle
    rcases List.mem_append.mp hcycle with hcycle | hcycle
    · exact h.isCycle cycle hcycle
    · rw [List.mem_singleton.mp hcycle]
      exact isCycle_cycleAt ha.chain ha.distinct hmem fun x hx =>
        ha.refers x hx name List.mem_cons_self
  · intro cycle hcycle x hx
    rcases List.mem_append.mp hcycle with hcycle | hcycle
    · exact h.met cycle hcycle x hx
    · rw [List.mem_singleton.mp hcycle] at hx
      exact hconsistent.onPath x (mem_of_mem_cycleAt hmem hx)
  · have hnew : cycleAt path name ∉ r.cycles := fun hold =>
      ha.unnoted last hlast name List.mem_cons_self
        ⟨cycleAt path name, hold, closing_cycleAt hmem hlast⟩
    exact h.distinct.append (List.nodup_singleton _) (List.disjoint_singleton.mpr hnew)
  · intro x hx hoff
    refine Subrelation.accessible ?_ (h.descends x hx hoff)
    rintro z y ⟨hrefers, hunnoted⟩
    exact ⟨hrefers, fun hnoted => hunnoted (hnoted.mono fun c hc => List.mem_append_left _ hc)⟩

theorem Noted.of_note {x y : Text}
    (h : Noted { r with cycles := r.cycles ++ [cycleAt path name] } x y) (hmem : name ∈ path) :
    Noted r x y ∨ x ∈ path.getLast? ∧ y = name := by
  obtain ⟨cycle, hcycle, hclosing⟩ := h
  rcases List.mem_append.mp hcycle with hcycle | hcycle
  · exact Or.inl ⟨cycle, hcycle, hclosing⟩
  · obtain ⟨last, hlast⟩ := exists_getLast? hmem
    rw [List.mem_singleton.mp hcycle] at hclosing
    obtain ⟨hx, hy⟩ := closing_unique hclosing (closing_cycleAt hmem hlast)
    exact Or.inr ⟨hx ▸ hlast, hy⟩

theorem Ahead.note (h : Ahead g path (name :: names) r) (hmem : name ∈ path) :
    Ahead g path names { r with cycles := r.cycles ++ [cycleAt path name] } := by
  refine ⟨h.chain, h.distinct, ?_, ?_, ?_⟩
  · exact fun x hx y hy => h.refers x hx y (List.mem_cons_of_mem name hy)
  · intro x hx y hy hnoted
    rcases hnoted.of_note hmem with hold | ⟨-, hname⟩
    · exact h.unnoted x hx y (List.mem_cons_of_mem name hy) hold
    · exact (List.nodup_cons.mp (h.once x hx)).1 (hname ▸ hy)
  · exact fun x hx => (List.nodup_cons.mp (h.once x hx)).2

/-- The walk goes on to the other names when nothing has been noted at the end of the path. -/
theorem Ahead.tail (h : Ahead g path (name :: names) r)
    (hnoted : ∀ x ∈ path.getLast?, ∀ y, Noted s x y → Noted r x y) : Ahead g path names s := by
  refine ⟨h.chain, h.distinct, ?_, ?_, ?_⟩
  · exact fun x hx y hy => h.refers x hx y (List.mem_cons_of_mem name hy)
  · exact fun x hx y hy hold =>
      h.unnoted x hx y (List.mem_cons_of_mem name hy) (hnoted x hx y hold)
  · exact fun x hx => (List.nodup_cons.mp (h.once x hx)).2

theorem Traced.miss (h : Traced g path r) (hn : g.get? name = none) :
    Traced g path { r with
      resolved := r.resolved.insert name, missing := r.missing.insert name } := by
  refine ⟨h.isCycle, ?_, h.distinct, ?_⟩
  · exact fun cycle hcycle x hx => NameSet.mem_insert.mpr (Or.inr (h.met cycle hcycle x hx))
  · intro x hx hoff
    rcases NameSet.mem_insert.mp hx with rfl | hx
    · exact Acc.intro x fun y hy => absurd hy.1 (Graph.not_refers_of_get? hn)
    · exact h.descends x hx hoff

theorem Traced.enter (h : Traced g path r) :
    Traced g (path ++ [name]) { r with resolved := r.resolved.insert name } := by
  refine ⟨h.isCycle, ?_, h.distinct, ?_⟩
  · exact fun cycle hcycle x hx => NameSet.mem_insert.mpr (Or.inr (h.met cycle hcycle x hx))
  · intro x hx hoff
    rw [List.mem_append, List.mem_singleton, not_or] at hoff
    exact h.descends x ((NameSet.mem_insert.mp hx).resolve_left hoff.2) hoff.1

theorem Ahead.enter {n : Node} (h : Ahead g path (name :: names) r) (ht : Traced g path r)
    (hfresh : name ∉ path) (hnew : name ∉ r.resolved) (hn : g.get? name = some n) :
    Ahead g (path ++ [name]) n.dependencies.toList
      { r with resolved := r.resolved.insert name } := by
  refine ⟨?_, ?_, ?_, ?_, ?_⟩
  · refine h.chain.append (List.IsChain.singleton name) ?_
    intro x hx y hy
    rw [List.head?_singleton, Option.mem_some_iff] at hy
    exact hy ▸ h.refers x hx name List.mem_cons_self
  · exact h.distinct.append (List.nodup_singleton name) (List.disjoint_singleton.mpr hfresh)
  · intro x hx y hy
    rw [List.getLast?_concat, Option.mem_some_iff] at hx
    exact hx ▸ ⟨n, hn, hy⟩
  · intro x hx y _ hnoted
    rw [List.getLast?_concat, Option.mem_some_iff] at hx
    exact hnew (hx ▸ ht.met_of_noted hnoted)
  · exact fun _ _ => n.dependencies.nodup

/-- From a name that the walk leaves, all that is not noted leads to names that it has left. -/
theorem Traced.leave (h : Traced g (path ++ [name]) s)
    (hsteps : ∀ y, g.Refers name y → y ∈ s.resolved ∧ (y ∈ path ++ [name] → Noted s name y)) :
    Traced g path s := by
  refine ⟨h.isCycle, h.met, h.distinct, ?_⟩
  intro x hx hoff
  by_cases hname : x = name
  · refine Acc.intro x ?_
    rintro y ⟨hrefers, hunnoted⟩
    rw [hname] at hrefers hunnoted
    obtain ⟨hmet, hback⟩ := hsteps y hrefers
    exact h.descends y hmet fun hmem => hunnoted (hback hmem)
  · exact h.descends x hx (by simp [hoff, hname])

/-! ## A whole walk -/

theorem Notes.nil (path : List Text) (r : Resolution) : Notes path [] r r :=
  ⟨fun _ h => h, by simp, fun _ _ h => Or.inl h⟩

theorem Notes.cons {middle : Resolution} (h : Notes path names middle s)
    (hkeeps : ∀ cycle ∈ r.cycles, cycle ∈ middle.cycles)
    (hgrows : ∀ x ∈ r.resolved, x ∈ middle.resolved) (hgrows' : ∀ x ∈ middle.resolved, x ∈ s.resolved)
    (hnoted : ∀ x ∈ path.getLast?, name ∈ path → Noted middle x name)
    (horigin : ∀ x y, Noted middle x y →
      Noted r x y ∨ (x ∈ path.getLast? ∧ y = name) ∨ (x ∈ middle.resolved ∧ x ∉ r.resolved)) :
    Notes path (name :: names) r s := by
  refine ⟨fun cycle hcycle => h.keeps cycle (hkeeps cycle hcycle), ?_, ?_⟩
  · intro x hx y hy hmem
    rcases List.mem_cons.mp hy with rfl | hy
    · exact (hnoted x hx hmem).mono h.keeps
    · exact h.noted x hx y hy hmem
  · intro x y hxy
    rcases h.origin x y hxy with hmiddle | ⟨hx, hy⟩ | ⟨hx, hnew⟩
    · rcases horigin x y hmiddle with hold | ⟨hx, hy⟩ | ⟨hx, hnew⟩
      · exact Or.inl hold
      · exact Or.inr (Or.inl ⟨hx, hy ▸ List.mem_cons_self⟩)
      · exact Or.inr (Or.inr ⟨hgrows' x hx, hnew⟩)
    · exact Or.inr (Or.inl ⟨hx, List.mem_cons_of_mem name hy⟩)
    · exact Or.inr (Or.inr ⟨hx, fun hold => hnew (hgrows x hold)⟩)

/-- Below a name that is met for the first time, nothing is noted of the names met before. -/
theorem Notes.origin_of_enter {x y : Text}
    (h : Notes (path ++ [name]) names { r with resolved := r.resolved.insert name } s)
    (hnew : name ∉ r.resolved) (hxy : Noted s x y) : Noted r x y ∨ x ∉ r.resolved := by
  rcases h.origin x y hxy with hold | ⟨hx, -⟩ | ⟨-, hx⟩
  · exact Or.inl hold
  · rw [List.getLast?_concat, Option.mem_some_iff] at hx
    exact Or.inr (hx ▸ hnew)
  · exact Or.inr fun hold => hx (NameSet.mem_insert.mpr (Or.inr hold))

theorem visit_traced (hc : Consistent g path r) (h : Traced g path r) (ha : Ahead g path names r) :
    Traced g path (g.visit path names r) ∧ Notes path names r (g.visit path names r) := by
  fun_induction Graph.visit g path names r with
  | case1 path r => exact ⟨h, .nil path r⟩
  | case2 path r name rest hpath ih =>
      have hnote := hc.note (r.cycles ++ [cycleAt path name])
      obtain ⟨htraced, hnotes⟩ := ih hnote (h.note ha hc hpath) (ha.note hpath)
      refine ⟨htraced, hnotes.cons (fun c hc => List.mem_append_left _ hc) (fun _ hx => hx)
        (visit_spec hnote).2.keeps ?_ ?_⟩
      · exact fun x hx _ => ⟨cycleAt path name, List.mem_append_right _ List.mem_cons_self,
          closing_cycleAt hpath hx⟩
      · exact fun x y hxy => (hxy.of_note hpath).imp_right Or.inl
  | case3 path r name rest hfresh hmet ih =>
      obtain ⟨htraced, hnotes⟩ := ih hc h (ha.tail fun _ _ _ hxy => hxy)
      exact ⟨htraced, hnotes.cons (fun _ hc => hc) (fun _ hx => hx) (visit_spec hc).2.keeps
        (fun _ _ hmem => absurd hmem hfresh) fun _ _ hxy => Or.inl hxy⟩
  | case4 path r name rest hfresh _ met hn ih =>
      obtain ⟨htraced, hnotes⟩ := ih (hc.miss hn) (h.miss hn) (ha.tail fun _ _ _ hxy => hxy)
      exact ⟨htraced, hnotes.cons (fun _ hc => hc) (fun _ hx => NameSet.mem_insert.mpr (Or.inr hx))
        (visit_spec (hc.miss hn)).2.keeps (fun _ _ hmem => absurd hmem hfresh)
        fun _ _ hxy => Or.inl hxy⟩
  | case5 path r name rest hfresh hnew met n hn ihinner _ ihrest =>
      have henter := hc.enter hn
      obtain ⟨hinner, hdeeper⟩ :
          Consistent g (path ++ [name]) _ ∧ Extends g n.dependencies.toList _ _ := visit_spec henter
      obtain ⟨htraced, hnotes⟩ := ihinner henter h.enter (ha.enter h hfresh hnew hn)
      have hend : name ∈ (path ++ [name]).getLast? := by rw [List.getLast?_concat]; rfl
      have hsteps : ∀ y, g.Refers name y → y ∈ n.dependencies := fun y =>
        (Graph.refers_iff_of_get? hn).mp
      have hleft := hinner.leave fun y hy => hdeeper.covers y (hsteps y hy)
      have hback := htraced.leave fun y hy =>
        ⟨hdeeper.covers y (hsteps y hy), hnotes.noted name hend y (hsteps y hy)⟩
      have hahead := ha.tail fun x hx y hxy =>
        (hnotes.origin_of_enter hnew hxy).resolve_right fun hoff =>
          hoff (hc.onPath x (List.mem_of_mem_getLast? hx))
      obtain ⟨hrest, hnotes'⟩ := ihrest hleft hback hahead
      refine ⟨hrest, hnotes'.cons hnotes.keeps
        (fun x hx => hdeeper.keeps x (NameSet.mem_insert.mpr (Or.inr hx)))
        (visit_spec hleft).2.keeps (fun _ _ hmem => absurd hmem hfresh) fun x y hxy => ?_⟩
      exact (hnotes.origin_of_enter hnew hxy).imp_right fun hx =>
        Or.inr ⟨hback.met_of_noted hxy, hx⟩

/-! ## Resolving roots -/

theorem resolve_traced (g : Graph) (roots : List Text) : Traced g [] (g.resolve roots) := by
  have hahead : Ahead g [] (roots.map stripHyphens) {} :=
    ⟨.nil, List.nodup_nil, by simp, by simp, by simp⟩
  exact (visit_traced (.start g) (.start g) hahead).1

/-- Every cycle of names that have been met holds a noted step. -/
theorem exists_noted_step {cycle : List Text} (h : IsCycle g.Refers cycle) {roots : List Text}
    (hmet : ∀ x ∈ cycle, x ∈ (g.resolve roots).resolved) :
    ∃ x y, Noted (g.resolve roots) x y ∧ [x, y] <:+: cycle := by
  by_contra hnone
  have havoid : ∀ x y, [x, y] <:+: cycle → ¬ Noted (g.resolve roots) x y := fun x y hstep hnoted =>
    hnone ⟨x, y, hnoted, hstep⟩
  obtain ⟨first, hfirst, hloop⟩ := (h.of_avoids havoid).exists_transGen
  have hacc := (resolve_traced g roots).descends first (hmet first hfirst) List.not_mem_nil
  exact not_transGen_of_acc hacc hloop

theorem not_mem_space_of_isValidName {x : Text} (h : Variable.isValidName x = true) : ' ' ∉ x := by
  simp only [Variable.isValidName, Bool.and_eq_true, List.all_eq_true] at h
  intro hmem
  exact absurd (h.1.2 ' ' hmem) (by decide)

theorem nodup_warnings {table : List Variable} (hvalid : Variable.tableProblem? table = none)
    (hdistinct : r.cycles.Nodup) (hcycles : ∀ cycle ∈ r.cycles, IsCycle (DependsOn table) cycle) :
    r.warnings.Nodup := by
  have hne : ∀ cycle ∈ r.cycles, cycle ≠ [] := by
    rintro cycle hcycle rfl
    exact absurd (hcycles [] hcycle).length (by decide)
  have hspace : ∀ cycle ∈ r.cycles, ∀ x ∈ cycle, ' ' ∉ x := by
    intro cycle hcycle x hx
    obtain ⟨y, v, hv, hname, -⟩ := (hcycles cycle hcycle).exists_step hx
    exact not_mem_space_of_isValidName (hname ▸ (sound_of_mem hvalid hv).1)
  refine List.Nodup.map_on ?_ hdistinct
  intro cycle hcycle cycle' hcycle' heq
  exact render_injective (hne cycle hcycle) (hne cycle' hcycle') (hspace cycle hcycle)
    (hspace cycle' hcycle') (List.append_cancel_left heq)

/-- The warnings show cycles of variables within reach of the roots, each once, and every cycle
within reach holds the last step of one that is shown. -/
theorem warnings_show_cycles {table : List Variable}
    (hvalid : Variable.tableProblem? table = none) (roots : List Text) :
    ∃ g, Graph.ofTable table = .ok g ∧
      (g.resolve roots).warnings = (g.resolve roots).cycles.map (fun cycle =>
        "Circular variable reference: ".toList ++ join " → ".toList cycle) ∧
      (g.resolve roots).warnings.Nodup ∧
      (∀ cycle ∈ (g.resolve roots).cycles,
        IsCycle (DependsOn table) cycle ∧ ∀ x ∈ cycle, ReachedFrom table roots x) ∧
      (∀ cycle, IsCycle (DependsOn table) cycle → (∃ x ∈ cycle, ReachedFrom table roots x) →
        ∃ shown ∈ (g.resolve roots).cycles, ∃ x y, [x, y] <:+ shown ∧ [x, y] <:+: cycle) ∧
      ((g.resolve roots).warnings = [] ↔
        ¬ ∃ cycle, IsCycle (DependsOn table) cycle ∧ ∃ x ∈ cycle, ReachedFrom table roots x) := by
  obtain ⟨g, hg, hnodes⟩ := Graph.ofTable_of_tableProblem? hvalid
  have hrefers := Graph.refers_eq_dependsOn hnodes
  have htraced := resolve_traced g roots
  have hreached : ∀ x, x ∈ (g.resolve roots).resolved ↔ ReachedFrom table roots x := by
    intro x
    rw [mem_resolved_iff, hrefers]
    rfl
  have hsound : ∀ cycle ∈ (g.resolve roots).cycles,
      IsCycle (DependsOn table) cycle ∧ ∀ x ∈ cycle, ReachedFrom table roots x := by
    intro cycle hcycle
    refine ⟨hrefers ▸ htraced.isCycle cycle hcycle, fun x hx => ?_⟩
    exact (hreached x).mp (htraced.met cycle hcycle x hx)
  have hcomplete : ∀ cycle, IsCycle (DependsOn table) cycle →
      (∃ x ∈ cycle, ReachedFrom table roots x) →
      ∃ shown ∈ (g.resolve roots).cycles, ∃ x y, [x, y] <:+ shown ∧ [x, y] <:+: cycle := by
    rintro cycle hcycle ⟨first, hfirst, hreach⟩
    have hmet : ∀ x ∈ cycle, x ∈ (g.resolve roots).resolved := fun x hx =>
      (hreached x).mpr (hreach.trans (hcycle.reaches hfirst hx))
    rw [← hrefers] at hcycle
    obtain ⟨x, y, ⟨shown, hshown, hclosing⟩, hstep⟩ := exists_noted_step hcycle hmet
    exact ⟨shown, hshown, x, y, hclosing, hstep⟩
  refine ⟨g, hg, rfl, ?_, hsound, hcomplete, ?_⟩
  · exact nodup_warnings hvalid htraced.distinct fun cycle hcycle => (hsound cycle hcycle).1
  · constructor
    · rintro hnone ⟨cycle, hcycle, hreach⟩
      obtain ⟨shown, hshown, -⟩ := hcomplete cycle hcycle hreach
      rw [List.map_eq_nil_iff.mp hnone] at hshown
      exact absurd hshown List.not_mem_nil
    · intro hnone
      refine List.map_eq_nil_iff.mpr (List.eq_nil_iff_forall_not_mem.mpr fun cycle hcycle => ?_)
      obtain ⟨hisCycle, hreach⟩ := hsound cycle hcycle
      obtain ⟨first, hfirst, -⟩ := hisCycle.exists_transGen
      exact hnone ⟨cycle, hisCycle, first, hfirst, hreach first hfirst⟩

/-- Two cycles with one step in common; from `b`, the walk closes only the shorter one. -/
def crossedTable : List Variable :=
  [{ name := ['a'], light := some "var(--b)".toList },
    { name := ['b'], light := some "var(--a)".toList, dark := some "var(--c)".toList },
    { name := ['c'], light := some "var(--a)".toList }]

theorem warnings_show_cycles_crossedTable :
    Variable.tableProblem? crossedTable = none ∧
      ∃ g, Graph.ofTable crossedTable = .ok g ∧ (g.resolve [['b']]).warnings.Nodup ∧
        (g.resolve [['b']]).warnings ≠ [] ∧
        ∃ shown ∈ (g.resolve [['b']]).cycles, ∃ x y, [x, y] <:+ shown ∧
          [x, y] <:+: [['a'], ['b'], ['c'], ['a']] := by
  have hvalid : Variable.tableProblem? crossedTable = none := by decide
  obtain ⟨g, hg, -, hnodup, -, hcomplete, hnone⟩ := warnings_show_cycles hvalid [['b']]
  have hab : DependsOn crossedTable ['a'] ['b'] :=
    ⟨_, List.mem_cons_self, rfl, _, Or.inl rfl, by decide +kernel⟩
  have hbc : DependsOn crossedTable ['b'] ['c'] :=
    ⟨_, List.mem_cons_of_mem _ List.mem_cons_self, rfl, _, Or.inr rfl, by decide +kernel⟩
  have hca : DependsOn crossedTable ['c'] ['a'] :=
    ⟨_, List.mem_cons_of_mem _ (List.mem_cons_of_mem _ List.mem_cons_self), rfl, _, Or.inl rfl,
      by decide +kernel⟩
  have hcycle : IsCycle (DependsOn crossedTable) [['a'], ['b'], ['c'], ['a']] :=
    ⟨by decide, rfl, by decide,
      .cons_cons hab (.cons_cons hbc (.cons_cons hca (.singleton ['a'])))⟩
  have hreach : ∃ x ∈ [['a'], ['b'], ['c'], ['a']], ReachedFrom crossedTable [['b']] x :=
    ⟨['b'], by simp, ['b'], List.mem_cons_self, .refl⟩
  refine ⟨hvalid, g, hg, hnodup, ?_, hcomplete _ hcycle hreach⟩
  exact fun hnil => hnone.mp hnil ⟨_, hcycle, hreach⟩

end UtilityCss.Theme
