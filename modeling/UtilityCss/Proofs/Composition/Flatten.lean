import UtilityCss.Proofs.Composition.Walk
import UtilityCss.Proofs.Registry.Entries

/-!
# Flattened classes

When flattening fails and what its error then says, and what it writes down when it does not fail:
the declarations of the expansion, every class at its first occurrence.
-/

namespace UtilityCss.Registry

open Text Relation

theorem nodup_eraseDups (names : List Text) : names.eraseDups.Nodup := by
  match names with
  | [] => exact List.nodup_nil
  | name :: rest =>
      rw [List.eraseDups_cons, List.nodup_cons, List.mem_eraseDups]
      exact ⟨by simp, nodup_eraseDups (rest.filter fun x => !x == name)⟩
termination_by names.length
decreasing_by exact Nat.lt_succ_of_le (List.length_filter_le _ _)

theorem eraseDups_of_nodup {names : List Text} (h : names.Nodup) : names.eraseDups = names := by
  induction names with
  | nil => rfl
  | cons name rest ih =>
      obtain ⟨hfresh, hrest⟩ := List.nodup_cons.mp h
      have hkeep : (rest.filter fun x => !x == name) = rest := by
        rw [List.filter_eq_self]
        intro x hx
        simpa using fun heq : x = name => hfresh (heq ▸ hx)
      rw [List.eraseDups_cons, hkeep, ih hrest]

theorem eraseDups_append_of_subset {names more : List Text} (h : ∀ x ∈ more, x ∈ names) :
    (names ++ more).eraseDups = names.eraseDups := by
  have hnone : more.removeAll names = [] := by
    rw [List.removeAll, List.filter_eq_nil_iff]
    intro x hx
    simpa using h x hx
  rw [List.eraseDups_append, hnone, List.eraseDups_nil, List.append_nil]

theorem eraseDups_eraseDups_append (names more : List Text) :
    (names.eraseDups ++ more).eraseDups = (names ++ more).eraseDups := by
  have hsame : more.removeAll names.eraseDups = more.removeAll names := by
    simp only [List.removeAll, List.elem_eq_mem, List.mem_eraseDups]
  rw [List.eraseDups_append, List.eraseDups_append, hsame,
    eraseDups_of_nodup (nodup_eraseDups names)]

variable {r : Registry} {path names : List Text} {f g : Flattened}

/-- What the walk skips would have added nothing. -/
theorem eraseDups_skip {name : Text} {d : Definition} {finished inner outer : List Text}
    (hf : r.Settled finished) (hdone : name ∈ finished) (hd : r.get? name = some d)
    (hinner : r.Expands d.references inner) :
    (finished.reverse ++ (inner ++ name :: outer)).eraseDups =
      (finished.reverse ++ outer).eraseDups := by
  have hsubset : ∀ x ∈ inner ++ [name], x ∈ finished.reverse := by
    intro x hx
    obtain ⟨first, hfirst, hreach⟩ := (Expands.cons hd hinner .nil).mem_iff.mp hx
    rw [List.mem_singleton.mp hfirst] at hreach
    exact List.mem_reverse.mpr (hf.mem_of_reaches hdone hreach)
  calc (finished.reverse ++ (inner ++ name :: outer)).eraseDups
      = (finished.reverse ++ (inner ++ [name]) ++ outer).eraseDups := by simp
    _ = ((finished.reverse ++ (inner ++ [name])).eraseDups ++ outer).eraseDups := by
        rw [eraseDups_eraseDups_append]
    _ = (finished.reverse.eraseDups ++ outer).eraseDups := by
        rw [eraseDups_append_of_subset hsubset]
    _ = (finished.reverse ++ outer).eraseDups := eraseDups_eraseDups_append _ _

/-- A run that ends has finished the classes of the expansion in order of first occurrence. -/
theorem finished_of_flattenAll {expansion : List Text} (hf : r.Settled f.finished)
    (hs : r.InStep f) (h : flattenAll r path names f = .ok g) (hx : r.Expands names expansion) :
    g.finished.reverse = (f.finished.reverse ++ expansion).eraseDups := by
  -- Along the run, the finished classes and what is still to expand always give the same list.
  fun_induction flattenAll r path names f generalizing g expansion with
  | case1 path f =>
      cases h
      cases hx
      rw [List.append_nil, eraseDups_of_nodup (List.nodup_reverse.mpr hf.nodup)]
  | case2 => cases h
  | case3 path f name rest _ hdone ih =>
      cases hx with
      | cons hd hinner houter => rw [ih hf hs h houter, eraseDups_skip hf hdone hd hinner]
  | case4 => cases h
  | case5 => cases h
  | case6 => cases h
  | case7 path f name rest _ hnew d hd hplain inner hin ihinner ihrest =>
      cases hx with
      | @cons _ d' _ first outer hd' hfirst houter =>
          rw [hd, Option.some.injEq] at hd'
          subst hd'
          have hreached := reached_of_flattenAll hf hs hin
          have hsettled := hreached.settled_finish hnew hd (by simpa using hplain)
          have hfinish :
              (inner.finish name d).finished.reverse = inner.finished.reverse ++ [name] :=
            List.reverse_cons
          rw [ihrest hsettled (hreached.inStep.finish hd) h houter, hfinish,
            ihinner hf hs hin hfirst, List.append_assoc, eraseDups_eraseDups_append]
          simp

/-! ## Flattening one class -/

theorem settled_nil (r : Registry) : r.Settled ({} : Flattened).finished :=
  trivial

theorem inStep_nil (r : Registry) : r.InStep {} :=
  rfl

theorem explains_of_flattenAll_root {name : Text} {e : CompositionError}
    (h : flattenAll r [] [name] {} = .error e) : r.Explains name e :=
  explains_of_flattenAll (.nil r name) (fun _ hx => List.mem_singleton.mp hx) h

theorem reached_of_flattenAll_root {name : Text} (h : flattenAll r [] [name] {} = .ok g) :
    r.Reached [] [name] {} g :=
  reached_of_flattenAll r.settled_nil r.inStep_nil h

theorem flatten_eq_error_iff {name : Text} {e : CompositionError} :
    r.flatten name = .error e ↔ flattenAll r [] [name] {} = .error e := by
  unfold flatten
  cases flattenAll r [] [name] {} with
  | error e' => simp
  | ok f => simp

/-- A class that can be flattened comes behind all that it composes. -/
theorem flattenAll_of_get? {name : Text} {rest : List Text} {d : Definition}
    (hpath : name ∉ path) (hnew : name ∉ f.finished) (h : r.get? name = some d)
    (hd : d.isRuleset = false) :
    flattenAll r path (name :: rest) f =
      match flattenAll r (path ++ [name]) d.references f with
      | .error e => .error e
      | .ok inner => flattenAll r path rest (inner.finish name d) := by
  rw [flattenAll, dif_neg hpath, if_neg hnew]
  split
  next hnone =>
    rw [h] at hnone
    cases hnone
  next found hfound =>
    rw [h, Option.some.injEq] at hfound
    rw [← hfound]
    exact if_neg (by simp [hd])

theorem flatten_of_declaration {name css : Text} {d : Definition} (h : r.get? name = some d)
    (hbody : d.body = .declaration css) : r.flatten name = .ok (trim css) := by
  have hplain : d.isRuleset = false := by rw [Definition.isRuleset, hbody]
  have hreferences : d.references = [] := by rw [Definition.references, hbody]
  have hown : d.ownDeclaration = some css := by rw [Definition.ownDeclaration, hbody]
  have hrun : flattenAll r [] [name] {} = .ok (({} : Flattened).finish name d) := by
    rw [flattenAll_of_get? List.not_mem_nil List.not_mem_nil h hplain, hreferences]
    simp only [flattenAll]
  rw [flatten, hrun]
  cases htrim : trim css with
  | nil => simp [Flattened.finish, hown, htrim, join]
  | cons c t => simp [Flattened.finish, hown, htrim, join]

/-- A class is flattened unless an obstacle is in reach, and an error names a true reason. -/
theorem flatten_fails_iff (r : Registry) (name : Text) :
    ((∃ e, r.flatten name = .error e) ↔ ∃ x, r.Reaches name x ∧ r.Obstacle x) ∧
      ∀ e, r.flatten name = .error e → r.Explains name e := by
  have hexplains : ∀ e, r.flatten name = .error e → r.Explains name e := by
    intro e he
    exact explains_of_flattenAll_root (flatten_eq_error_iff.mp he)
  refine ⟨⟨?_, ?_⟩, hexplains⟩
  · rintro ⟨e, he⟩
    exact (hexplains e he).exists_obstacle
  · rintro ⟨x, hreach, hobstacle⟩
    cases hrun : flattenAll r [] [name] {} with
    | error e => exact ⟨e, flatten_eq_error_iff.mpr hrun⟩
    | ok g =>
        have hg := reached_of_flattenAll_root hrun
        have hmem := hg.settled.mem_of_reaches (hg.covers name List.mem_cons_self) hreach
        exact absurd hobstacle (hg.settled.not_obstacle hmem)

theorem flatten_of_flattenAll {name : Text} {expansion : List Text}
    (hrun : flattenAll r [] [name] {} = .ok g) (hx : r.Expands [name] expansion) :
    r.flatten name = .ok (r.blockOf expansion.eraseDups) := by
  have hg := reached_of_flattenAll_root hrun
  have horder := finished_of_flattenAll r.settled_nil r.inStep_nil hrun hx
  have hdeclarations := hg.inStep
  unfold InStep at hdeclarations
  rw [horder] at hdeclarations
  simp only [flatten, hrun, blockOf, hdeclarations]
  rfl

/-- Where no obstacle is in reach, flattening writes down the expansion, every class where it
occurs first. Each class in reach is then there once, behind all that it composes. -/
theorem flatten_eq_expansion (r : Registry) (name : Text)
    (hregistered : ∀ x, r.Reaches name x → r.contains x = true)
    (hplain : ∀ x, r.Reaches name x → ¬ r.HoldsRuleset x)
    (hacyclic : ∀ x, r.Reaches name x → ¬ TransGen r.Composes x x) :
    ∃ expansion, r.Expands [name] expansion ∧
      (∀ other, r.Expands [name] other → other = expansion) ∧
      r.flatten name = .ok (r.blockOf expansion.eraseDups) ∧
      expansion.eraseDups.Nodup ∧
      (∀ x, x ∈ expansion.eraseDups ↔ r.Reaches name x) ∧
      ∀ before x behind, expansion.eraseDups = before ++ x :: behind →
        ∀ child, r.Composes x child → child ∈ before := by
  have hclear : ∀ x, r.Reaches name x → ¬ r.Obstacle x := by
    rintro x hreach (hnone | hruleset | hcycle)
    · have hsome := hregistered x hreach
      rw [contains_eq_isSome, hnone] at hsome
      cases hsome
    · exact hplain x hreach hruleset
    · exact hacyclic x hreach hcycle
  cases hrun : flattenAll r [] [name] {} with
  | error e =>
      obtain ⟨x, hreach, hobstacle⟩ := (explains_of_flattenAll_root hrun).exists_obstacle
      exact absurd hobstacle (hclear x hreach)
  | ok g =>
      have hg := reached_of_flattenAll_root hrun
      obtain ⟨expansion, hx⟩ := hg.settled.exists_expands hg.covers
      refine ⟨expansion, hx, fun other hother => hother.unique hx, flatten_of_flattenAll hrun hx,
        nodup_eraseDups expansion, ?_, ?_⟩
      · intro x
        rw [List.mem_eraseDups, hx.mem_iff]
        simp
      · intro before x behind hsplit child hchild
        have horder : g.finished.reverse = expansion.eraseDups :=
          finished_of_flattenAll r.settled_nil r.inStep_nil hrun hx
        have hfinished : g.finished = behind.reverse ++ x :: before.reverse := by
          rw [← List.reverse_reverse g.finished, horder, hsplit]
          simp
        have hsettled := hg.settled
        rw [hfinished] at hsettled
        exact List.mem_reverse.mp (hsettled.mem_behind hchild)

/-- Three ways lead from `d` to `a`, and `b` lists it twice. -/
def nestedDiamond : Registry :=
  .ofList [(['a'], ⟨.declaration [' ', 'x'], none⟩),
    (['b'], ⟨.composesAndDeclaration [['a'], ['a']] ['y'], none⟩),
    (['c'], ⟨.composes [['a'], ['b']], none⟩),
    (['d'], ⟨.composesAndDeclaration [['c'], ['b'], ['a']] ['z'], none⟩)]

theorem settled_nestedDiamond : nestedDiamond.Settled [['d'], ['c'], ['b'], ['a']] :=
  ⟨⟨_, rfl, rfl, by decide⟩, by decide, ⟨_, rfl, rfl, by decide⟩, by decide,
    ⟨_, rfl, rfl, by decide⟩, by decide, ⟨_, rfl, rfl, by decide⟩, by decide, trivial⟩

theorem flatten_eq_expansion_nestedDiamond :
    (∀ x, nestedDiamond.Reaches ['d'] x → ¬ nestedDiamond.Obstacle x) ∧
      ∃ expansion, nestedDiamond.Expands [['d']] expansion ∧
        nestedDiamond.flatten ['d'] = .ok (nestedDiamond.blockOf expansion.eraseDups) := by
  have hclear : ∀ x, nestedDiamond.Reaches ['d'] x → ¬ nestedDiamond.Obstacle x := by
    intro x hreach
    have hmem := settled_nestedDiamond.mem_of_reaches List.mem_cons_self hreach
    exact settled_nestedDiamond.not_obstacle hmem
  refine ⟨hclear, ?_⟩
  obtain ⟨expansion, hx, -, hflatten, -⟩ := flatten_eq_expansion nestedDiamond ['d']
    (fun x hreach => by
      cases hget : nestedDiamond.get? x with
      | none => exact absurd (.unregistered hget) (hclear x hreach)
      | some d => simp [contains_eq_isSome, hget])
    (fun x hreach h => hclear x hreach (.ruleset h))
    (fun x hreach h => hclear x hreach (.cycle h))
  exact ⟨expansion, hx, hflatten⟩

end UtilityCss.Registry
