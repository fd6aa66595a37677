import UtilityCss.Proofs.Composition.Graph

/-!
# The walk that flattens classes

What one run of `flattenAll` keeps. A run that fails explains its error by the path it stands on; a
run that ends leaves a list of finished classes in which every class comes behind those that it
composes, so that nothing finished can reach an obstacle.
-/

namespace UtilityCss.Registry

open Text Relation

/-- The walk comes to `name` along `path`: as the class it was asked for, or as a class that the
last one of the path composes. -/
def ComesTo (r : Registry) (root : Text) (path : List Text) (name : Text) : Prop :=
  match path.getLast? with
  | none => name = root
  | some parent => r.Composes parent name

structure WalkPath (r : Registry) (root : Text) (path : List Text) : Prop where
  chain : path.IsChain r.Composes
  distinct : path.Nodup
  reached : ∀ name ∈ path, r.Reaches root name

variable {r : Registry} {root name : Text} {path : List Text}

theorem WalkPath.nil (r : Registry) (root : Text) : r.WalkPath root [] :=
  ⟨List.IsChain.nil, List.nodup_nil, by simp⟩

theorem WalkPath.reaches (hp : r.WalkPath root path) (hn : r.ComesTo root path name) :
    r.Reaches root name := by
  unfold ComesTo at hn
  cases hlast : path.getLast? with
  | none =>
      simp only [hlast] at hn
      exact hn ▸ .refl r root
  | some parent =>
      simp only [hlast] at hn
      exact (hp.reached parent (List.mem_of_getLast? hlast)).step hn

theorem WalkPath.push (hp : r.WalkPath root path) (hn : r.ComesTo root path name)
    (hfresh : name ∉ path) : r.WalkPath root (path ++ [name]) := by
  refine ⟨?_, ?_, ?_⟩
  · refine hp.chain.append (List.IsChain.singleton name) ?_
    intro parent hparent child hchild
    rw [List.head?_singleton, Option.mem_some_iff] at hchild
    simp only [ComesTo, Option.mem_def.mp hparent] at hn
    exact hchild ▸ hn
  · refine List.nodup_append.mpr ⟨hp.distinct, List.nodup_singleton name, ?_⟩
    intro x hx y hy heq
    rw [List.mem_singleton] at hy
    exact hfresh (hy ▸ heq ▸ hx)
  · intro x hx
    rcases List.mem_append.mp hx with hx | hx
    · exact hp.reached x hx
    · rw [List.mem_singleton.mp hx]
      exact hp.reaches hn

theorem comesTo_push {d : Definition} {child : Text} (hd : r.get? name = some d)
    (hc : child ∈ d.references) : r.ComesTo root (path ++ [name]) child := by
  simp only [ComesTo, List.getLast?_append, List.getLast?_singleton, Option.some_or]
  exact ⟨d, hd, hc⟩

/-- To come to a class of the path closes a cycle. -/
theorem WalkPath.cycleFrom (hp : r.WalkPath root path) (hn : r.ComesTo root path name)
    (hmem : name ∈ path) : r.CycleFrom root (Path.cycleAt path name) := by
  have hcycle : Path.IsCycle r.Composes (Path.cycleAt path name) := by
    refine Path.isCycle_cycleAt hp.chain hp.distinct hmem ?_
    intro last hlast
    simp only [ComesTo, Option.mem_def.mp hlast] at hn
    exact hn
  refine ⟨hcycle.length, hcycle.closed, hcycle.distinct, ?_, hcycle.chain⟩
  exact fun x hx => hp.reached x (Path.mem_of_mem_cycleAt hmem hx)

theorem explains_undefinedError (hp : r.WalkPath root path) (hn : r.ComesTo root path name)
    (hnone : r.get? name = none) : r.Explains root (undefinedError r path name) := by
  unfold undefinedError
  unfold ComesTo at hn
  cases hlast : path.getLast? with
  | none =>
      simp only [hlast] at hn
      exact ⟨hn, hn ▸ hnone⟩
  | some parent =>
      simp only [hlast] at hn
      exact ⟨hp.reached parent (List.mem_of_getLast? hlast), hn, hnone, rfl⟩

theorem explains_rulesetError (hp : r.WalkPath root path) (hn : r.ComesTo root path name)
    (hruleset : r.HoldsRuleset name) : r.Explains root (rulesetError path name) := by
  unfold rulesetError
  unfold ComesTo at hn
  cases hlast : path.getLast? with
  | none =>
      simp only [hlast] at hn
      exact ⟨hn, hn ▸ hruleset⟩
  | some parent =>
      simp only [hlast] at hn
      exact ⟨hp.reached parent (List.mem_of_getLast? hlast), hn, hruleset⟩

theorem explains_of_flattenAll {names : List Text} {f : Flattened} {e : CompositionError}
    (hp : r.WalkPath root path) (hn : ∀ name ∈ names, r.ComesTo root path name)
    (h : flattenAll r path names f = .error e) : r.Explains root e := by
  fun_induction flattenAll r path names f with
  | case1 => cases h
  | case2 path f name rest hmem =>
      cases h
      exact hp.cycleFrom (hn name List.mem_cons_self) hmem
  | case3 path f name rest _ _ ih =>
      exact ih hp (fun x hx => hn x (List.mem_cons_of_mem _ hx)) h
  | case4 path f name rest _ _ hnone =>
      cases h
      exact explains_undefinedError hp (hn name List.mem_cons_self) hnone
  | case5 path f name rest _ _ d hd hruleset =>
      cases h
      exact explains_rulesetError hp (hn name List.mem_cons_self) ⟨d, hd, hruleset⟩
  | case6 path f name rest hfresh _ d hd _ e' hinner ih =>
      cases h
      have hpush := hp.push (hn name List.mem_cons_self) hfresh
      exact ih hpush (fun _ hc => comesTo_push hd hc) hinner
  | case7 path f name rest _ _ d hd _ inner _ _ ihrest =>
      exact ihrest hp (fun x hx => hn x (List.mem_cons_of_mem _ hx)) h

/-! ## Runs that end -/

/-- A list of classes that can be flattened, each once and each in front of those it composes. -/
def Settled (r : Registry) : List Text → Prop
  | [] => True
  | name :: rest =>
      (∃ d, r.get? name = some d ∧ d.isRuleset = false ∧ ∀ child ∈ d.references, child ∈ rest) ∧
        name ∉ rest ∧ r.Settled rest

def InStep (r : Registry) (f : Flattened) : Prop :=
  f.declarations = f.finished.reverse.filterMap fun name =>
    (r.get? name).bind Definition.ownDeclaration

structure Reached (r : Registry) (path names : List Text) (f g : Flattened) : Prop where
  settled : r.Settled g.finished
  inStep : r.InStep g
  keeps : ∀ x ∈ f.finished, x ∈ g.finished
  covers : ∀ x ∈ names, x ∈ g.finished
  /-- A class of the path is not finished before the walk is back at it. -/
  avoids : ∀ x ∈ g.finished, x ∈ f.finished ∨ x ∉ path

theorem InStep.finish {f : Flattened} {d : Definition} (hf : r.InStep f)
    (hd : r.get? name = some d) : r.InStep (f.finish name d) := by
  unfold InStep at *
  simp only [Flattened.finish, List.reverse_cons, List.filterMap_append, ← hf]
  cases d.ownDeclaration.eq_none_or_eq_some with
  | inl hown => simp [hd, hown]
  | inr hown =>
      obtain ⟨css, hcss⟩ := hown
      simp [hd, hcss]

/-- A class whose references are all finished can be finished itself. -/
theorem Reached.settled_finish {f inner : Flattened} {d : Definition}
    (h : r.Reached (path ++ [name]) d.references f inner) (hnew : name ∉ f.finished)
    (hd : r.get? name = some d) (hplain : d.isRuleset = false) :
    r.Settled (inner.finish name d).finished := by
  refine ⟨⟨d, hd, hplain, h.covers⟩, ?_, h.settled⟩
  intro hmem
  rcases h.avoids name hmem with hold | hoff
  · exact hnew hold
  · exact hoff (List.mem_append_right path List.mem_cons_self)

theorem reached_of_flattenAll {names : List Text} {f g : Flattened} (hf : r.Settled f.finished)
    (hs : r.InStep f) (h : flattenAll r path names f = .ok g) : r.Reached path names f g := by
  -- The run inside a class ends in a state that the run over the remaining names can start from.
  fun_induction flattenAll r path names f generalizing g with
  | case1 =>
      cases h
      exact ⟨hf, hs, fun _ hx => hx, by simp, fun _ hx => Or.inl hx⟩
  | case2 => cases h
  | case3 path f name rest _ hdone ih =>
      have hrest := ih hf hs h
      refine ⟨hrest.settled, hrest.inStep, hrest.keeps, ?_, hrest.avoids⟩
      intro x hx
      rcases List.mem_cons.mp hx with rfl | hx
      · exact hrest.keeps x hdone
      · exact hrest.covers x hx
  | case4 => cases h
  | case5 => cases h
  | case6 => cases h
  | case7 path f name rest hpath hnew d hd hplain inner hinner ihinner ihrest =>
      have hin := ihinner hf hs hinner
      have hsettled := hin.settled_finish hnew hd (by simpa using hplain)
      have hrest := ihrest hsettled (hin.inStep.finish hd) h
      refine ⟨hrest.settled, hrest.inStep, ?_, ?_, ?_⟩
      · intro x hx
        exact hrest.keeps x (List.mem_cons_of_mem name (hin.keeps x hx))
      · intro x hx
        rcases List.mem_cons.mp hx with rfl | hx
        · exact hrest.keeps x List.mem_cons_self
        · exact hrest.covers x hx
      · intro x hx
        rcases hrest.avoids x hx with hx | hoff
        · rcases List.mem_cons.mp hx with rfl | hx
          · exact Or.inr hpath
          · refine (hin.avoids x hx).imp_right ?_
            intro hoff hmem
            exact hoff (List.mem_append_left [name] hmem)
        · exact Or.inr hoff

theorem Settled.mem_of_composes {names : List Text} {parent child : Text} (h : r.Settled names)
    (hp : parent ∈ names) (hc : r.Composes parent child) : child ∈ names := by
  induction names with
  | nil => cases hp
  | cons first rest ih =>
      obtain ⟨⟨d, hd, -, hrefs⟩, -, hrest⟩ := h
      rcases List.mem_cons.mp hp with rfl | hp
      · obtain ⟨d', hd', hmem⟩ := hc
        rw [hd, Option.some.injEq] at hd'
        exact List.mem_cons_of_mem parent (hrefs child (hd' ▸ hmem))
      · exact List.mem_cons_of_mem first (ih hrest hp)

theorem Settled.mem_of_reaches {names : List Text} {x y : Text} (h : r.Settled names)
    (hx : x ∈ names) (hxy : r.Reaches x y) : y ∈ names := by
  induction hxy with
  | refl => exact hx
  | tail _ hstep ih => exact h.mem_of_composes ih hstep

theorem Settled.not_obstacle {names : List Text} {x : Text} (h : r.Settled names)
    (hx : x ∈ names) : ¬ r.Obstacle x := by
  induction names with
  | nil => cases hx
  | cons first rest ih =>
      obtain ⟨⟨d, hd, hplain, hrefs⟩, hfresh, hrest⟩ := h
      rcases List.mem_cons.mp hx with rfl | hx
      · rintro (hnone | ⟨d', hd', hruleset⟩ | hcycle)
        · rw [hd] at hnone
          cases hnone
        · rw [hd, Option.some.injEq] at hd'
          rw [← hd', hplain] at hruleset
          cases hruleset
        · obtain ⟨child, ⟨d', hd', hmem⟩, hback⟩ := TransGen.head'_iff.mp hcycle
          rw [hd, Option.some.injEq] at hd'
          exact hfresh (hrest.mem_of_reaches (hrefs child (hd' ▸ hmem)) hback)
      · exact ih hrest hx

/-- In a settled list a class stands in front of those that it composes. -/
theorem Settled.mem_behind {before behind : List Text} {child : Text}
    (h : r.Settled (before ++ name :: behind)) (hc : r.Composes name child) : child ∈ behind := by
  induction before with
  | nil =>
      obtain ⟨⟨d, hd, -, hrefs⟩, -, -⟩ := h
      obtain ⟨d', hd', hmem⟩ := hc
      rw [hd, Option.some.injEq] at hd'
      exact hrefs child (hd' ▸ hmem)
  | cons _ _ ih => exact ih h.2.2

theorem Settled.nodup {names : List Text} (h : r.Settled names) : names.Nodup := by
  induction names with
  | nil => exact List.nodup_nil
  | cons _ _ ih => exact List.nodup_cons.mpr ⟨h.2.1, ih h.2.2⟩

theorem Settled.exists_expands {finished names : List Text} (h : r.Settled finished)
    (hn : ∀ name ∈ names, name ∈ finished) : ∃ expansion, r.Expands names expansion := by
  induction finished generalizing names with
  | nil =>
      rw [List.eq_nil_iff_forall_not_mem.mpr fun name hmem => List.not_mem_nil (hn name hmem)]
      exact ⟨[], .nil⟩
  | cons first rest ih =>
      obtain ⟨⟨d, hd, -, hrefs⟩, -, hrest⟩ := h
      induction names with
      | nil => exact ⟨[], .nil⟩
      | cons name others ihothers =>
          obtain ⟨outer, houter⟩ := ihothers fun x hx => hn x (List.mem_cons_of_mem name hx)
          rcases List.mem_cons.mp (hn name List.mem_cons_self) with rfl | hmem
          · obtain ⟨inner, hinner⟩ := ih hrest hrefs
            exact ⟨_, .cons hd hinner houter⟩
          · have hsingle : ∀ x ∈ [name], x ∈ rest := by simpa using hmem
            obtain ⟨_, halone⟩ := ih hrest hsingle
            cases halone with
            | cons hd' hinner _ => exact ⟨_, .cons hd' hinner houter⟩

end UtilityCss.Registry
