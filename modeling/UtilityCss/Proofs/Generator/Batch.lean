import UtilityCss.Generator.Basic
import UtilityCss.Proofs.Generator.Cascade
import UtilityCss.Proofs.Registry.Entries

/-!
# Batches and single classes

What a batch gives is put together from what each of its classes gives alone: the diagnostics by
ascending name, the texts in the order of emission, in which no two classes are level. So only the
set of names in a batch counts, and a class changes nothing of another, unless it stops the program.
-/

namespace UtilityCss.Generator

open Text

variable {g : Generator} {names : List Text}

/-- Registered names stand in front, by their places in the registry, and the others behind them by
their cascade keys. -/
def EmittedBefore (g : Generator) (a b : Text) : Prop :=
  match g.registry.position? a, g.registry.position? b with
  | some i, some j => i < j
  | some _, none => True
  | none, some _ => False
  | none, none => (CascadeKey.ofName a).Before (CascadeKey.ofName b)

theorem not_emittedBefore_self (g : Generator) (a : Text) : ¬ g.EmittedBefore a a := by
  unfold EmittedBefore
  cases g.registry.position? a with
  | none => exact CascadeKey.not_before_self _
  | some i => exact Nat.lt_irrefl i

theorem not_emittedBefore_of_emittedBefore {a b : Text} (h : g.EmittedBefore a b) :
    ¬ g.EmittedBefore b a := by
  unfold EmittedBefore at *
  cases ha : g.registry.position? a with
  | none =>
      cases hb : g.registry.position? b with
      | none =>
          rw [ha, hb] at h
          exact CascadeKey.not_before_of_before h
      | some j =>
          rw [ha, hb] at h
          exact h.elim
  | some i =>
      cases hb : g.registry.position? b with
      | none => exact id
      | some j =>
          rw [ha, hb] at h
          exact Nat.lt_asymm h

instance (g : Generator) : Std.Irrefl g.EmittedBefore :=
  ⟨not_emittedBefore_self g⟩

instance (g : Generator) : Std.Antisymm g.EmittedBefore :=
  ⟨fun _ _ hab hba => absurd hba (not_emittedBefore_of_emittedBefore hab)⟩

theorem pairwise_registered (g : Generator) : g.registry.names.Pairwise g.EmittedBefore := by
  rw [List.pairwise_iff_getElem]
  intro i j hi hj hij
  simp only [EmittedBefore, Registry.position?_getElem]
  exact hij

theorem pairwise_emissionOrder (g : Generator) (h : names.Nodup) :
    (g.emissionOrder names).Pairwise g.EmittedBefore := by
  have hnone : ∀ a ∈ CascadeKey.sortNames (names.filter fun name => !g.registry.contains name),
      g.registry.position? a = none := by
    intro a ha
    rw [(CascadeKey.sortNames_perm _).mem_iff, List.mem_filter, Bool.not_eq_true'] at ha
    rw [Registry.position?_eq_none_iff, ← Registry.contains_iff_mem_names, ha.2]
    decide
  refine List.pairwise_append.mpr ⟨(pairwise_registered g).filter _, ?_, ?_⟩
  · refine (CascadeKey.pairwise_sortNames (h.filter _)).imp_of_mem ?_
    intro a b ha hb hab
    simp only [EmittedBefore, hnone a ha, hnone b hb]
    exact hab
  · intro a ha b hb
    obtain ⟨i, hi, rfl⟩ := List.mem_iff_getElem.mp (List.mem_of_mem_filter ha)
    simp only [EmittedBefore, Registry.position?_getElem, hnone b hb]

theorem mem_emissionOrder {x : Text} : x ∈ g.emissionOrder names ↔ x ∈ names := by
  unfold emissionOrder
  rw [List.mem_append, (CascadeKey.sortNames_perm _).mem_iff, List.mem_filter, List.mem_filter,
    ← Registry.contains_iff_mem_names]
  by_cases hregistered : g.registry.contains x = true <;> simp [hregistered]

theorem emissionOrder_perm (g : Generator) (h : names.Nodup) :
    (g.emissionOrder names).Perm names :=
  (List.perm_ext_iff_of_nodup (pairwise_emissionOrder g h).nodup h).mpr fun _ => mem_emissionOrder

/-! ## One run -/

def textOf (g : Generator) (name : Text) : Text :=
  ((g.outcome name).bind (·.css)).getD []

def diagnosticsOf (g : Generator) (name : Text) : List Diagnostic :=
  ((g.outcome name).map (·.diagnostics)).getD []

def namesOf (batch : List Text) : List Text :=
  (NameSet.ofList (batch.filter (!·.isEmpty))).toList

theorem mem_namesOf {batch : List Text} {x : Text} : x ∈ namesOf batch ↔ x ∈ batch ∧ x ≠ [] := by
  have hmem : x ∈ namesOf batch ↔ x ∈ batch.filter (!·.isEmpty) := NameSet.mem_ofList
  rw [hmem, List.mem_filter]
  simp

theorem pairwise_namesOf (batch : List Text) : (namesOf batch).Pairwise Precedes :=
  (NameSet.ofList (batch.filter (!·.isEmpty))).ascending

/-- What a batch gives if none of its classes stops the program. -/
def resultOf (g : Generator) (batch : List Text) : Result where
  css := join ['\n', '\n']
    (((g.emissionOrder (namesOf batch)).map g.textOf).filter (!·.isEmpty))
  diagnostics := (namesOf batch).flatMap g.diagnosticsOf

theorem lookup_outcomes {o : Text → Outcome} {x : Text} (h : x ∈ names) :
    (names.map fun name => (name, o name)).lookup x = some (o x) := by
  induction names with
  | nil => exact absurd h List.not_mem_nil
  | cons name rest ih =>
      rw [List.map_cons, NameMap.lookup_cons_eq_ite]
      split
      next heq => rw [heq]
      next hne => exact ih ((List.mem_cons.mp h).resolve_left hne)

theorem filter_texts {o : Text → Outcome} {order : List Text}
    (ho : ∀ name ∈ names, g.outcome name = some (o name)) (h : ∀ x ∈ order, x ∈ names) :
    (order.filterMap fun name =>
        ((names.map fun name => (name, o name)).lookup name).bind (·.css)).filter (!·.isEmpty) =
      (order.map g.textOf).filter (!·.isEmpty) := by
  induction order with
  | nil => rfl
  | cons name rest ih =>
      have hname := h name List.mem_cons_self
      have hrest := ih fun x hx => h x (List.mem_cons_of_mem name hx)
      have htext : g.textOf name = (o name).css.getD [] := by
        rw [textOf, ho name hname, Option.bind_some]
      rw [List.filterMap_cons, lookup_outcomes hname, List.map_cons, htext, Option.bind_some]
      cases (o name).css with
      | none => simpa using hrest
      | some css => simp only [Option.getD_some, List.filter_cons, hrest]

theorem flatMap_diagnostics {o : Text → Outcome}
    (ho : ∀ name ∈ names, g.outcome name = some (o name)) :
    (names.map fun name => (name, o name)).flatMap (fun (_, o) => o.diagnostics) =
      names.flatMap g.diagnosticsOf := by
  rw [List.flatMap_map]
  refine List.flatMap_congr fun name hname => ?_
  rw [diagnosticsOf, ho name hname]
  rfl

/-- A batch gives a result if each of its classes does. -/
theorem mapM_outcome {o : Text → Outcome} (ho : ∀ name ∈ names, g.outcome name = some (o name)) :
    (names.mapM fun name => (g.outcome name).map fun o => (name, o)) =
      some (names.map fun name => (name, o name)) := by
  induction names with
  | nil => rfl
  | cons name rest ih =>
      obtain ⟨hname, hrest⟩ := List.forall_mem_cons.mp ho
      rw [List.mapM_cons, hname, ih hrest]
      rfl

theorem mapM_outcome_eq_none {name : Text} (hname : name ∈ names) (h : g.outcome name = none) :
    (names.mapM fun name => (g.outcome name).map fun o => (name, o)) = none := by
  induction names with
  | nil => exact absurd hname List.not_mem_nil
  | cons first rest ih =>
      rw [List.mapM_cons]
      rcases List.mem_cons.mp hname with rfl | hrest
      · rw [h]
        rfl
      · rw [ih hrest]
        cases g.outcome first <;> rfl

theorem generate_of_outcomes {batch : List Text} {o : Text → Outcome}
    (ho : ∀ name ∈ namesOf batch, g.outcome name = some (o name)) :
    g.generate batch = some (g.resultOf batch) := by
  have hmap := mapM_outcome ho
  have htexts := filter_texts ho fun x (hx : x ∈ g.emissionOrder _) => mem_emissionOrder.mp hx
  have hdiagnostics := flatMap_diagnostics ho
  simp only [namesOf] at hmap htexts hdiagnostics
  simp only [generate, hmap, Option.map_some, htexts, hdiagnostics, resultOf, namesOf]

theorem generate_eq_none {batch : List Text} {name : Text} (hname : name ∈ namesOf batch)
    (h : g.outcome name = none) : g.generate batch = none :=
  Option.map_eq_none_iff.mpr (mapM_outcome_eq_none hname h)

theorem generate_eq_some_iff {batch : List Text} {r : Result} :
    g.generate batch = some r ↔
      (∀ name ∈ namesOf batch, g.outcome name ≠ none) ∧ r = g.resultOf batch := by
  by_cases hall : ∀ name ∈ namesOf batch, g.outcome name ≠ none
  · have ho : ∀ name ∈ namesOf batch,
        g.outcome name = some ((g.outcome name).getD ⟨none, []⟩) := by
      intro name hname
      obtain ⟨o, ho⟩ := Option.ne_none_iff_exists'.mp (hall name hname)
      rw [ho]
      rfl
    rw [generate_of_outcomes ho, Option.some.injEq, eq_comm]
    exact (and_iff_right hall).symm
  · refine iff_of_false (fun hsome => ?_) fun h => hall h.1
    simp only [not_forall, not_not] at hall
    obtain ⟨name, hname, hstops⟩ := hall
    rw [generate_eq_none hname hstops] at hsome
    cases hsome

theorem namesOf_singleton {name : Text} (h : name ≠ []) : namesOf [name] = [name] := by
  refine (pairwise_namesOf [name]).eq_of_mem_iff (List.pairwise_singleton _ _) fun x => ?_
  rw [mem_namesOf, List.mem_singleton, and_iff_left_iff_imp]
  exact fun heq => heq ▸ h

theorem resultOf_singleton {name : Text} (h : name ≠ []) :
    g.resultOf [name] = { css := g.textOf name, diagnostics := g.diagnosticsOf name } := by
  have horder : g.emissionOrder [name] = [name] :=
    List.perm_singleton.mp (emissionOrder_perm g (List.nodup_singleton name))
  rw [resultOf, namesOf_singleton h, horder, List.flatMap_singleton, List.map_singleton]
  cases htext : g.textOf name with
  | nil => rfl
  | cons c t => rfl

theorem generate_singleton {name : Text} (h : name ≠ []) :
    g.generate [name] =
      (g.outcome name).map fun o => { css := o.css.getD [], diagnostics := o.diagnostics } := by
  cases ho : g.outcome name with
  | none =>
      refine generate_eq_none ?_ ho
      rw [namesOf_singleton h]
      exact List.mem_singleton_self name
  | some o =>
      have hresult : g.resultOf [name] = { css := o.css.getD [], diagnostics := o.diagnostics } := by
        rw [resultOf_singleton h, textOf, diagnosticsOf, ho]
        rfl
      refine generate_eq_some_iff.mpr ⟨fun x hx => ?_, hresult.symm⟩
      rw [namesOf_singleton h] at hx
      rw [List.mem_singleton.mp hx, ho]
      exact Option.some_ne_none o

theorem generate_singleton_eq_some_iff {name : Text} (h : name ≠ []) {r : Result} :
    g.generate [name] = some r ↔ g.outcome name ≠ none ∧ r = g.resultOf [name] := by
  rw [generate_eq_some_iff, namesOf_singleton h, List.forall_mem_singleton]

/-! ## Batches -/

theorem flatMap_diagnosticsOf (batch : List Text) :
    (namesOf batch).flatMap g.diagnosticsOf =
      (namesOf batch).flatMap fun name => (g.resultOf [name]).diagnostics := by
  refine List.flatMap_congr fun name hname => ?_
  rw [resultOf_singleton (mem_namesOf.mp hname).2]

theorem map_textOf (batch : List Text) :
    (g.emissionOrder (namesOf batch)).map g.textOf =
      (g.emissionOrder (namesOf batch)).map fun name => (g.resultOf [name]).css := by
  refine List.map_congr_left fun name hname => ?_
  rw [resultOf_singleton (mem_namesOf.mp (mem_emissionOrder.mp hname)).2]

theorem generate_eq_some_iff_singles {batch : List Text} {r : Result} :
    g.generate batch = some r ↔ ∃ alone : Text → Result,
      (∀ name ∈ namesOf batch, g.generate [name] = some (alone name)) ∧
      r.diagnostics = ((namesOf batch).flatMap fun name => (alone name).diagnostics) ∧
      r.css = join ['\n', '\n']
        (((g.emissionOrder (namesOf batch)).map fun name => (alone name).css).filter
          (!·.isEmpty)) := by
  rw [generate_eq_some_iff]
  constructor
  · rintro ⟨hall, rfl⟩
    refine ⟨fun name => g.resultOf [name], fun name hname => ?_, flatMap_diagnosticsOf batch, ?_⟩
    · exact (generate_singleton_eq_some_iff (mem_namesOf.mp hname).2).mpr ⟨hall name hname, rfl⟩
    · rw [← map_textOf]
      rfl
  · rintro ⟨alone, halone, hdiagnostics, hcss⟩
    have hsingle : ∀ name ∈ namesOf batch,
        g.outcome name ≠ none ∧ alone name = g.resultOf [name] := fun name hname =>
      (generate_singleton_eq_some_iff (mem_namesOf.mp hname).2).mp (halone name hname)
    refine ⟨fun name hname => (hsingle name hname).1, ?_⟩
    have htexts : ((g.emissionOrder (namesOf batch)).map fun name => (alone name).css) =
        (g.emissionOrder (namesOf batch)).map g.textOf := by
      rw [map_textOf]
      exact List.map_congr_left fun name hname => by
        rw [(hsingle name (mem_emissionOrder.mp hname)).2]
    have hall : ((namesOf batch).flatMap fun name => (alone name).diagnostics) =
        (namesOf batch).flatMap g.diagnosticsOf := by
      rw [flatMap_diagnosticsOf]
      exact List.flatMap_congr fun name hname => by rw [(hsingle name hname).2]
    cases r
    rw [htexts] at hcss
    rw [hall] at hdiagnostics
    exact congrArg₂ Result.mk hcss hdiagnostics

theorem generate_eq_of_mem_iff {batch batch' : List Text}
    (h : ∀ name, name ≠ [] → (name ∈ batch' ↔ name ∈ batch)) :
    g.generate batch' = g.generate batch := by
  have hnames : namesOf batch' = namesOf batch := by
    refine (pairwise_namesOf batch').eq_of_mem_iff (pairwise_namesOf batch) fun x => ?_
    rw [mem_namesOf, mem_namesOf]
    exact and_congr_left fun hx => h x hx
  rw [namesOf, namesOf] at hnames
  rw [generate, generate, hnames]

theorem generate_nil (g : Generator) : g.generate [] = some { css := [], diagnostics := [] } := by
  simp [generate, NameSet.ofList, NameSet.empty, join]

/-- The empty name is no class. -/
theorem generate_emptyName (g : Generator) :
    g.generate [[]] = some { css := [], diagnostics := [] } := by
  rw [← generate_nil g]
  exact generate_eq_of_mem_iff fun x hx => by simp [hx]

/-- One member more takes its place among the others and leaves theirs as they are. -/
theorem exists_place {R : Text → Text → Prop} [Std.Irrefl R] [Std.Antisymm R] {name : Text}
    {few many : List Text} (hfew : few.Pairwise R) (hmany : many.Pairwise R) (hnew : name ∉ few)
    (hmem : ∀ x, x ∈ many ↔ x = name ∨ x ∈ few) :
    ∃ before behind, few = before ++ behind ∧ many = before ++ name :: behind := by
  obtain ⟨before, behind, rfl⟩ := List.append_of_mem ((hmem name).mpr (Or.inl rfl))
  refine ⟨before, behind, ?_, rfl⟩
  have hsublist : (before ++ behind).Sublist (before ++ name :: behind) :=
    (List.Sublist.refl before).append (List.sublist_cons_self name behind)
  have hfresh : name ∉ before ++ behind :=
    (List.nodup_cons.mp (List.perm_middle.nodup_iff.mp hmany.nodup)).1
  refine hfew.eq_of_mem_iff (hmany.sublist hsublist) fun x => ?_
  have hx := hmem x
  rw [List.mem_append, List.mem_cons] at hx
  rw [List.mem_append]
  constructor
  · intro hxfew
    have hne : x ≠ name := fun heq => hnew (heq ▸ hxfew)
    rcases hx.mpr (Or.inr hxfew) with hbefore | heq | hbehind
    · exact Or.inl hbefore
    · exact absurd heq hne
    · exact Or.inr hbehind
  · intro hxboth
    have hne : x ≠ name := fun heq => hfresh (heq ▸ List.mem_append.mpr hxboth)
    exact (hx.mp (hxboth.imp_right Or.inr)).resolve_left hne

/-- A class adds its text and its diagnostics to a batch somewhere between those of the others; a
class without text adds none. -/
def AddsBetween (few alone many : Result) : Prop :=
  ∃ (above below : List Text) (before behind : List Diagnostic),
    few.css = join ['\n', '\n'] (above ++ below) ∧
    many.css = join ['\n', '\n'] (above ++ [alone.css].filter (!·.isEmpty) ++ below) ∧
    few.diagnostics = before ++ behind ∧
    many.diagnostics = before ++ alone.diagnostics ++ behind

theorem addsBetween_resultOf (g : Generator) {name : Text} {batch : List Text} (hname : name ≠ [])
    (hnew : name ∉ batch) (hnames : ∀ x, x ∈ namesOf (name :: batch) ↔
      x = name ∨ x ∈ namesOf batch) :
    AddsBetween (g.resultOf batch) (g.resultOf [name]) (g.resultOf (name :: batch)) := by
  have hfresh : name ∉ namesOf batch := fun hmem => hnew (mem_namesOf.mp hmem).1
  obtain ⟨front, back, hfew, hmany⟩ := exists_place (pairwise_namesOf batch)
    (pairwise_namesOf (name :: batch)) hfresh hnames
  obtain ⟨front', back', hfew', hmany'⟩ := exists_place
    (pairwise_emissionOrder g (pairwise_namesOf batch).nodup)
    (pairwise_emissionOrder g (pairwise_namesOf (name :: batch)).nodup)
    (fun hmem => hfresh (mem_emissionOrder.mp hmem))
    (fun x => by rw [mem_emissionOrder, mem_emissionOrder, hnames])
  rw [AddsBetween, resultOf_singleton hname, resultOf, resultOf, hfew', hmany', hfew, hmany]
  refine ⟨(front'.map g.textOf).filter (!·.isEmpty), (back'.map g.textOf).filter (!·.isEmpty),
    _, _, ?_, ?_, List.flatMap_append, ?_⟩
  · rw [List.map_append, List.filter_append]
  · rw [← List.filter_append, ← List.filter_append, List.map_append, List.map_cons,
      List.append_assoc, List.singleton_append]
  · rw [List.flatMap_append, List.flatMap_cons, List.append_assoc]

theorem exists_addsBetween {name : Text} {batch : List Text} (hnew : name ∉ batch)
    {few alone : Result} (hfew : g.generate batch = some few)
    (halone : g.generate [name] = some alone) :
    ∃ many, g.generate (name :: batch) = some many ∧ AddsBetween few alone many := by
  obtain ⟨hall, rfl⟩ := generate_eq_some_iff.mp hfew
  by_cases hempty : name = []
  · subst hempty
    have hcons : g.generate ([] :: batch) = g.generate batch :=
      generate_eq_of_mem_iff fun x hx => by simp [hx]
    rw [generate_emptyName, Option.some.injEq] at halone
    subst halone
    refine ⟨_, hcons.trans hfew, _, [], _, [], congrArg (join ['\n', '\n'])
      (List.append_nil _).symm, ?_, (List.append_nil _).symm, ?_⟩
    · simp [resultOf]
    · simp
  · have hnames : ∀ x, x ∈ namesOf (name :: batch) ↔ x = name ∨ x ∈ namesOf batch := by
      intro x
      rw [mem_namesOf, mem_namesOf, List.mem_cons, or_and_right, and_iff_left_of_imp]
      exact fun heq => heq ▸ hempty
    obtain ⟨hreturns, rfl⟩ := (generate_singleton_eq_some_iff hempty).mp halone
    refine ⟨_, generate_eq_some_iff.mpr ⟨fun x hx => ?_, rfl⟩,
      addsBetween_resultOf g hempty hnew hnames⟩
    rcases (hnames x).mp hx with rfl | hx
    · exact hreturns
    · exact hall x hx

theorem firstDecision_ne_none {context : Context} {name : Text} {is : List Interpreter}
    (h : ∀ i ∈ is, i.interpret context name ≠ none) : firstDecision context name is ≠ none := by
  induction is with
  | nil => exact Option.some_ne_none _
  | cons i rest ih =>
      obtain ⟨hi, hrest⟩ := List.forall_mem_cons.mp h
      obtain ⟨said, hsaid⟩ := Option.ne_none_iff_exists'.mp hi
      obtain ⟨later, hlater⟩ := Option.ne_none_iff_exists'.mp (ih hrest)
      rw [firstDecision, hlater, hsaid, Option.bind_some]
      split
      · exact Option.some_ne_none _
      · cases said.css <;> exact Option.some_ne_none _

theorem generate_ne_none
    (h : ∀ i ∈ g.interpreters, ∀ context name, i.interpret context name ≠ none)
    (batch : List Text) : g.generate batch ≠ none := by
  refine Option.ne_none_iff_exists'.mpr ⟨_, generate_eq_some_iff.mpr ⟨fun name _ => ?_, rfl⟩⟩
  rw [outcome]
  cases g.registry.get? name with
  | some d => exact Option.some_ne_none _
  | none =>
      obtain ⟨said, hsaid⟩ := Option.ne_none_iff_exists'.mp
        (firstDecision_ne_none fun i hi => h i hi (g.context name) name)
      simp only [interpret, hsaid]
      exact Option.some_ne_none _

/-- A batch has a result exactly if each of its names has one alone, and then its diagnostics are
theirs in ascending order of the names, and its text is made of theirs in the one order of emission.
Only the set of the names that are not empty counts, and a class that is new to the batch leaves what
the others say and write as it is. Where all interpreters answer, each batch has a result. -/
theorem generate_eq_of_singles (g : Generator) (batch : List Text) :
    (∃ names order : List Text,
      names.Pairwise Precedes ∧ (∀ name, name ∈ names ↔ name ∈ batch ∧ name ≠ []) ∧
      order.Perm names ∧ order.Pairwise g.EmittedBefore ∧
      (∀ other : List Text, other.Perm names → other.Pairwise g.EmittedBefore → other = order) ∧
      ∀ r, g.generate batch = some r ↔ ∃ alone : Text → Result,
        (∀ name ∈ names, g.generate [name] = some (alone name)) ∧
        r.diagnostics = (names.flatMap fun name => (alone name).diagnostics) ∧
        r.css =
          join ['\n', '\n'] ((order.map fun name => (alone name).css).filter (!·.isEmpty))) ∧
    (∀ batch', (∀ name, name ≠ [] → (name ∈ batch' ↔ name ∈ batch)) →
      g.generate batch' = g.generate batch) ∧
    (∀ name, name ∉ batch → ∀ few alone, g.generate batch = some few →
      g.generate [name] = some alone →
        ∃ many, g.generate (name :: batch) = some many ∧ AddsBetween few alone many) ∧
    ((∀ i ∈ g.interpreters, ∀ context name, i.interpret context name ≠ none) →
      g.generate batch ≠ none) := by
  have hnodup := (pairwise_namesOf batch).nodup
  have hperm := emissionOrder_perm g hnodup
  have hpairwise := pairwise_emissionOrder g hnodup
  refine ⟨⟨namesOf batch, g.emissionOrder (namesOf batch), pairwise_namesOf batch,
    fun name => mem_namesOf, hperm, hpairwise, ?_, fun r => generate_eq_some_iff_singles⟩, ?_, ?_, ?_⟩
  · intro other hother hsorted
    exact hsorted.eq_of_mem_iff hpairwise fun x => (hother.trans hperm.symm).mem_iff
  · exact fun batch' h => generate_eq_of_mem_iff h
  · exact fun name hnew few alone => exists_addsBetween hnew
  · exact fun h => generate_ne_none h batch

end UtilityCss.Generator
