import UtilityCss.Proofs.Name.Set
import UtilityCss.Proofs.Theme.Dependency
import UtilityCss.Theme.Resolution

/-!
# What resolving reaches

A walk leaves a set that holds the dependencies of all its members but those that the walk still
stands on. When it is over it stands on none, so that all within reach of the roots has been met;
and nothing else is ever met.
-/

namespace UtilityCss.Theme

open Text Relation

variable {g : Graph} {path names : List Text} {name : Text} {r s : Resolution}

structure Consistent (g : Graph) (path : List Text) (r : Resolution) : Prop where
  onPath : ∀ x ∈ path, x ∈ r.resolved
  closed : ∀ x ∈ r.resolved, x ∉ path → ∀ y, g.Refers x y → y ∈ r.resolved
  missing : ∀ x, x ∈ r.missing ↔ x ∈ r.resolved ∧ g.get? x = none

theorem Consistent.start (g : Graph) : Consistent g [] {} := by
  refine ⟨by simp, ?_, ?_⟩
  · exact fun x hx => absurd hx (NameSet.not_mem_empty x)
  · exact fun x => iff_of_false (NameSet.not_mem_empty x) fun h => NameSet.not_mem_empty x h.1

/-- To note a cycle changes neither set. -/
theorem Consistent.note (h : Consistent g path r) (cycles : List (List Text)) :
    Consistent g path { r with cycles } :=
  ⟨h.onPath, h.closed, h.missing⟩

theorem Consistent.enter {n : Node} (h : Consistent g path r) (hn : g.get? name = some n) :
    Consistent g (path ++ [name]) { r with resolved := r.resolved.insert name } := by
  refine ⟨?_, ?_, ?_⟩
  · intro x hx
    rw [NameSet.mem_insert]
    rcases List.mem_append.mp hx with hx | hx
    · exact Or.inr (h.onPath x hx)
    · exact Or.inl (List.mem_singleton.mp hx)
  · intro x hx hoff y hy
    rw [NameSet.mem_insert] at hx ⊢
    rw [List.mem_append, List.mem_singleton, not_or] at hoff
    exact Or.inr (h.closed x (hx.resolve_left hoff.2) hoff.1 y hy)
  · intro x
    rw [h.missing, NameSet.mem_insert]
    by_cases hx : x = name
    · have hsome : ¬ g.get? x = none := by simp [hx, hn]
      exact iff_of_false (fun hx => hsome hx.2) fun hx => hsome hx.2
    · simp [hx]

theorem Consistent.leave (h : Consistent g (path ++ [name]) s)
    (hdependencies : ∀ y, g.Refers name y → y ∈ s.resolved) : Consistent g path s := by
  refine ⟨fun x hx => h.onPath x (List.mem_append_left _ hx), ?_, h.missing⟩
  intro x hx hoff y hy
  by_cases hname : x = name
  · exact hdependencies y (hname ▸ hy)
  · exact h.closed x hx (by simp [hoff, hname]) y hy

theorem Consistent.miss (h : Consistent g path r) (hn : g.get? name = none) :
    Consistent g path { r with
      resolved := r.resolved.insert name, missing := r.missing.insert name } := by
  refine ⟨fun x hx => NameSet.mem_insert.mpr (Or.inr (h.onPath x hx)), ?_, ?_⟩
  · intro x hx hoff y hy
    rw [NameSet.mem_insert] at hx ⊢
    rcases hx with rfl | hx
    · exact absurd hy (Graph.not_refers_of_get? hn)
    · exact Or.inr (h.closed x hx hoff y hy)
  · intro x
    rw [NameSet.mem_insert, NameSet.mem_insert, h.missing]
    by_cases hx : x = name <;> simp [hx, hn]

structure Extends (g : Graph) (names : List Text) (r s : Resolution) : Prop where
  keeps : ∀ x ∈ r.resolved, x ∈ s.resolved
  covers : ∀ x ∈ names, x ∈ s.resolved
  reached : ∀ x ∈ s.resolved, x ∈ r.resolved ∨ ∃ name ∈ names, ReflTransGen g.Refers name x

theorem Extends.nil (g : Graph) (r : Resolution) : Extends g [] r r :=
  ⟨fun _ hx => hx, by simp, fun _ hx => Or.inl hx⟩

/-- A walk goes on behind a name when that has been met and all met on the way is in its reach. -/
theorem Extends.cons {middle : Resolution} (h : Extends g names middle s)
    (hkeeps : ∀ x ∈ r.resolved, x ∈ middle.resolved) (hname : name ∈ middle.resolved)
    (hreached : ∀ x ∈ middle.resolved, x ∈ r.resolved ∨ ReflTransGen g.Refers name x) :
    Extends g (name :: names) r s := by
  refine ⟨fun x hx => h.keeps x (hkeeps x hx), ?_, ?_⟩
  · intro x hx
    rcases List.mem_cons.mp hx with rfl | hx
    · exact h.keeps x hname
    · exact h.covers x hx
  · intro x hx
    rcases h.reached x hx with hx | ⟨other, hother, hreach⟩
    · exact (hreached x hx).imp_right fun hreach => ⟨name, List.mem_cons_self, hreach⟩
    · exact Or.inr ⟨other, List.mem_cons_of_mem name hother, hreach⟩

theorem visit_spec (h : Consistent g path r) :
    Consistent g path (g.visit path names r) ∧ Extends g names r (g.visit path names r) := by
  fun_induction Graph.visit g path names r with
  | case1 path r => exact ⟨h, .nil g r⟩
  | case2 path r name rest hpath ih =>
      obtain ⟨hconsistent, hextends⟩ := ih (h.note _)
      exact ⟨hconsistent,
        hextends.cons (fun _ hx => hx) (h.onPath name hpath) fun _ hx => Or.inl hx⟩
  | case3 path r name rest _ hmet ih =>
      obtain ⟨hconsistent, hextends⟩ := ih h
      exact ⟨hconsistent, hextends.cons (fun _ hx => hx) hmet fun _ hx => Or.inl hx⟩
  | case4 path r name rest _ _ met hn ih =>
      obtain ⟨hconsistent, hextends⟩ := ih (h.miss hn)
      refine ⟨hconsistent, hextends.cons ?_ (NameSet.mem_insert.mpr (Or.inl rfl)) ?_⟩
      · exact fun x hx => NameSet.mem_insert.mpr (Or.inr hx)
      · intro x hx
        rcases NameSet.mem_insert.mp hx with rfl | hx
        · exact Or.inr .refl
        · exact Or.inl hx
  | case5 path r name rest _ _ met n hn ihinner _ ihrest =>
      obtain ⟨hinner, hdeeper⟩ := ihinner (h.enter hn)
      have hleft := hinner.leave fun y hy =>
        hdeeper.covers y ((Graph.refers_iff_of_get? hn).mp hy)
      obtain ⟨hconsistent, hextends⟩ := ihrest hleft
      refine ⟨hconsistent, hextends.cons ?_ ?_ ?_⟩
      · exact fun x hx => hdeeper.keeps x (NameSet.mem_insert.mpr (Or.inr hx))
      · exact hdeeper.keeps name (NameSet.mem_insert.mpr (Or.inl rfl))
      · intro x hx
        rcases hdeeper.reached x hx with hx | ⟨y, hy, hreach⟩
        · rcases NameSet.mem_insert.mp hx with rfl | hx
          · exact Or.inr .refl
          · exact Or.inl hx
        · exact Or.inr (.head ⟨n, hn, hy⟩ hreach)

/-! ## Resolving roots -/

theorem Consistent.mem_of_reaches {x y : Text} (h : Consistent g [] r) (hx : x ∈ r.resolved)
    (hreach : ReflTransGen g.Refers x y) : y ∈ r.resolved := by
  induction hreach with
  | refl => exact hx
  | tail _ hstep ih => exact h.closed _ ih List.not_mem_nil _ hstep

theorem resolve_spec (g : Graph) (roots : List Text) :
    Consistent g [] (g.resolve roots) ∧
      Extends g (roots.map stripHyphens) {} (g.resolve roots) :=
  visit_spec (.start g)

theorem mem_resolved_iff (g : Graph) (roots : List Text) (x : Text) :
    x ∈ (g.resolve roots).resolved ↔
      ∃ root ∈ roots, ReflTransGen g.Refers (stripHyphens root) x := by
  obtain ⟨hconsistent, hextends⟩ := resolve_spec g roots
  constructor
  · intro hx
    rcases hextends.reached x hx with hx | ⟨name, hname, hreach⟩
    · exact absurd hx (NameSet.not_mem_empty x)
    · obtain ⟨root, hroot, rfl⟩ := List.mem_map.mp hname
      exact ⟨root, hroot, hreach⟩
  · rintro ⟨root, hroot, hreach⟩
    exact hconsistent.mem_of_reaches (hextends.covers _ (List.mem_map_of_mem hroot)) hreach

theorem mem_missing_iff (g : Graph) (roots : List Text) (x : Text) :
    x ∈ (g.resolve roots).missing ↔ x ∈ (g.resolve roots).resolved ∧ g.get? x = none :=
  (resolve_spec g roots).1.missing x

/-- The names resolved are those within reach of the roots, and those missing are the resolved ones
without an entry; which roots there are decides both, not how they are listed. -/
theorem resolve_eq_reachable {table : List Variable}
    (hvalid : Variable.tableProblem? table = none) (roots : List Text) :
    ∃ g, Graph.ofTable table = .ok g ∧
      (∀ x, x ∈ (g.resolve roots).resolved ↔
        ∃ root ∈ roots, Reaches table (stripHyphens root) x) ∧
      (∀ x, x ∈ (g.resolve roots).missing ↔
        x ∈ (g.resolve roots).resolved ∧ g.contains x = false) ∧
      (∀ x, g.contains x = true ↔ ∃ v ∈ table, v.name = x) ∧
      ∀ roots', (∀ root, root ∈ roots' ↔ root ∈ roots) →
        (g.resolve roots').resolved = (g.resolve roots).resolved ∧
          (g.resolve roots').missing = (g.resolve roots).missing := by
  obtain ⟨g, hg, hnodes⟩ := Graph.ofTable_of_tableProblem? hvalid
  have hreaches : ReflTransGen g.Refers = Reaches table :=
    congrArg ReflTransGen (Graph.refers_eq_dependsOn hnodes)
  refine ⟨g, hg, fun x => ?_, fun x => ?_, fun x => ?_, fun roots' hroots => ?_⟩
  · rw [mem_resolved_iff, hreaches]
  · rw [mem_missing_iff]
    simp [Graph.contains, Graph.get?, NameMap.contains]
  · have hsome : g.contains x = true ↔ ∃ n, g.get? x = some n := Option.isSome_iff_exists
    rw [hsome]
    simp [hnodes]
  · have hresolved : (g.resolve roots').resolved = (g.resolve roots).resolved := by
      refine NameSet.eq_of_mem_iff fun x => ?_
      rw [mem_resolved_iff, mem_resolved_iff]
      simp only [hroots]
    refine ⟨hresolved, NameSet.eq_of_mem_iff fun x => ?_⟩
    rw [mem_missing_iff, mem_missing_iff, hresolved]

/-- Two variables that refer to each other, one of them also to a name without an entry. -/
def cyclicTable : List Variable :=
  [{ name := ['a'], dark := some "var(--b)".toList },
    { name := ['b'], light := some "var(--c, var(--a))".toList }]

theorem resolve_eq_reachable_cyclicTable :
    Variable.tableProblem? cyclicTable = none ∧
      ∃ g, Graph.ofTable cyclicTable = .ok g ∧
        ∀ roots, (∀ root, root ∈ roots ↔ root = "--a".toList) →
          (∀ x ∈ [['a'], ['b'], ['c']], x ∈ (g.resolve roots).resolved) ∧
            ['c'] ∈ (g.resolve roots).missing := by
  have hvalid : Variable.tableProblem? cyclicTable = none := by decide
  obtain ⟨g, hg, hresolved, hmissing, hentries, horder⟩ :=
    resolve_eq_reachable hvalid ["--a".toList]
  have hab : DependsOn cyclicTable ['a'] ['b'] :=
    ⟨_, List.mem_cons_self, rfl, _, Or.inr rfl, by decide +kernel⟩
  have hbc : DependsOn cyclicTable ['b'] ['c'] :=
    ⟨_, List.mem_cons_of_mem _ List.mem_cons_self, rfl, _, Or.inl rfl, by decide +kernel⟩
  have hreach : ∀ x ∈ [['a'], ['b'], ['c']], x ∈ (g.resolve ["--a".toList]).resolved := by
    intro x hx
    refine (hresolved x).mpr ⟨_, List.mem_cons_self, ?_⟩
    simp only [List.mem_cons, List.not_mem_nil, or_false] at hx
    rcases hx with rfl | rfl | rfl
    · exact .refl
    · exact .single hab
    · exact .tail (.single hab) hbc
  refine ⟨hvalid, g, hg, fun roots hroots => ?_⟩
  obtain ⟨hsame, hsame'⟩ := horder roots fun root => by rw [hroots, List.mem_singleton]
  rw [hsame, hsame']
  refine ⟨hreach, (hmissing _).mpr ⟨hreach _ (by simp), ?_⟩⟩
  have hnone : ¬ ∃ v ∈ cyclicTable, v.name = ['c'] := by decide
  rw [← hentries] at hnone
  simpa using hnone

end UtilityCss.Theme
