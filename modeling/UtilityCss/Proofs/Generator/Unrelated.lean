import UtilityCss.Proofs.Generator.Exclusion

/-!
# Registered classes and the text of other classes

An interpreted class looks up one name in the registry, the last segment of its own. Where that is
not registered, the class is written as with an empty registry; where it is, a literal is left to
the interpreter of modified classes.
-/

namespace UtilityCss

open Text Css ClassName Interpreter

variable {context : Context} {name : Text}

theorem endsInRegistered_eq_false {r : Registry}
    (h : ∀ names last, segments? name = some (names ++ [last]) → r.get? last = none) :
    endsInRegistered r name = false := by
  cases hsegments : segments? name with
  | none => simp [endsInRegistered, hsegments]
  | some segments =>
      rcases List.eq_nil_or_concat segments with rfl | ⟨names, last, rfl⟩
      · simp [endsInRegistered, hsegments]
      · rw [List.concat_eq_append] at hsegments
        rw [endsInRegistered_of_segments hsegments, Registry.contains_eq_isSome, h names last hsegments]
        rfl

/-- The interpreter of modified classes has nothing to say of other names than those that end in a
registered class. -/
theorem interpretModified_eq_pass
    (h : ∀ names last, segments? name = some (names ++ [last]) →
      context.registry.get? last = none) :
    interpretModified context name = some .pass := by
  rcases interpretModified_cases context name with hpass | ⟨names, last, d, hsegments, hlast, -⟩
  · exact hpass
  · rw [h names last hsegments] at hlast
    cases hlast

/-- To a literal, all registries without its last segment are the same. -/
theorem interpretLiteral_congr {r r' : Registry}
    (h : endsInRegistered r name = endsInRegistered r' name) (context : Context) :
    interpretLiteral { context with registry := r } name =
      interpretLiteral { context with registry := r' } name := by
  simp only [interpretLiteral, h]
  rfl

/-- A registry that is of no concern to a name is as good as none. -/
theorem firstDecision_of_unrelated
    (h : ∀ names last, segments? name = some (names ++ [last]) →
      context.registry.get? last = none) :
    Generator.firstDecision context name Interpreter.standard =
      Generator.firstDecision { context with registry := .empty } name Interpreter.standard := by
  have hempty : ∀ names last, segments? name = some (names ++ [last]) →
      Registry.empty.get? last = none := fun _ _ _ => rfl
  have hlast : endsInRegistered context.registry name = endsInRegistered .empty name := by
    rw [endsInRegistered_eq_false h, endsInRegistered_eq_false hempty]
  rw [firstDecision_of_modified_pass (interpretModified_eq_pass h),
    firstDecision_of_modified_pass (interpretModified_eq_pass hempty)]
  exact congrArg (fun said => if hasLiteralForm name then some said else some .pass)
    (interpretLiteral_congr hlast context)

namespace Generator

/-- A class that is of no concern to the registry gets an answer. -/
theorem firstDecision_unrelated_ne_none
    (h : ∀ names last, segments? name = some (names ++ [last]) →
      context.registry.get? last = none) :
    firstDecision context name Interpreter.standard ≠ none := by
  rw [firstDecision_of_modified_pass (interpretModified_eq_pass h)]
  split <;> exact Option.some_ne_none _

theorem exists_generate_of_answer {g : Generator} (hne : name ≠ [])
    (hname : g.registry.get? name = none) {said : Interpretation}
    (hsaid : firstDecision (g.context name) name g.interpreters = some said) :
    ∃ r, g.generate [name] = some r ∧ r.css = said.css.getD [] := by
  rw [generate_singleton hne, outcome_of_undefined hname, hsaid]
  exact ⟨_, rfl, rfl⟩

/-- A registry without a class and without the last segment of its name changes nothing of the text
that the interpreters write for the class. -/
theorem css_of_unrelated (g : Generator) (hstandard : g.interpreters = Interpreter.standard)
    (hname : g.registry.get? name = none)
    (hlast : ∀ names last, segments? name = some (names ++ [last]) →
      g.registry.get? last = none) :
    ∃ r r', g.generate [name] = some r ∧ { g with registry := .empty }.generate [name] = some r' ∧
      r.css = r'.css := by
  by_cases hempty : name = []
  · rw [hempty, generate_emptyName, generate_emptyName]
    exact ⟨_, _, rfl, rfl, rfl⟩
  · have hanswers : firstDecision (g.context name) name Interpreter.standard ≠ none :=
      firstDecision_unrelated_ne_none hlast
    have hsame : firstDecision (g.context name) name Interpreter.standard = _ :=
      firstDecision_of_unrelated hlast
    obtain ⟨said, hsaid⟩ := Option.ne_none_iff_exists'.mp hanswers
    rw [hsaid] at hsame
    rw [← hstandard] at hsaid hsame
    obtain ⟨r, hr, hcss⟩ := exists_generate_of_answer hempty hname hsaid
    obtain ⟨r', hr', hcss'⟩ := exists_generate_of_answer (g := { g with registry := .empty }) hempty
      rfl hsame.symm
    exact ⟨r, r', hr, hr', hcss.trans hcss'.symm⟩

theorem css_of_unrelated_card :
    let g : Generator := {
      registry := .ofList [("card".toList, { body := .declaration "margin: 0;".toList })],
      interpreters := Interpreter.standard, known := .ofNames ["display".toList] }
    let name := "hover:display:grid".toList
    let css := ".hover\x5c:display\x5c:grid:hover ".toList ++
      ['\x7b'] ++ "\n  display: grid;\n".toList ++ ['\x7d']
    g.registry.get? name = none ∧
      (∀ names last, segments? name = some (names ++ [last]) → g.registry.get? last = none) ∧
      ∃ r r', g.generate [name] = some r ∧ { g with registry := .empty }.generate [name] = some r' ∧
        r.css = css ∧ r'.css = css := by
  intro g name css
  have hname : g.registry.get? name = none := by decide +kernel
  have hsegments : segments? name =
      some (["hover".toList, "display".toList] ++ ["grid".toList]) := by decide +kernel
  have hlast : ∀ names last, segments? name = some (names ++ [last]) →
      g.registry.get? last = none := by
    intro names last h
    rw [hsegments, Option.some.injEq] at h
    rw [← List.singleton_inj.mp (List.append_inj' h rfl).2]
    decide +kernel
  have hcss : ({ g with registry := .empty }.generate [name]).map Result.css = some css := by
    decide +kernel
  obtain ⟨r, r', hr, hr', hsame⟩ := css_of_unrelated g rfl hname hlast
  rw [hr', Option.map_some, Option.some.injEq] at hcss
  exact ⟨hname, hlast, r, r', hr, hr', hsame.trans hcss, hcss⟩

/-- A literal that ends in a registered class is left to the interpreter of modified classes, which
gives it no text. -/
theorem css_deferred_grid :
    let g : Generator := {
      registry := .ofList [("grid".toList, { body := .declaration "display: grid;".toList })],
      interpreters := Interpreter.standard, known := .ofNames ["display".toList] }
    let name := "display:grid".toList
    g.registry.get? name = none ∧
      ({ g with registry := .empty }.generate [name]).map Result.css =
        some (".display\x5c:grid ".toList ++ ['\x7b'] ++ "\n  display: grid;\n".toList ++ ['\x7d']) ∧
      (g.generate [name]).map Result.css = some [] := by
  intro g name
  refine ⟨?_, ?_, ?_⟩
  · decide +kernel
  · decide +kernel
  · decide +kernel

end Generator

end UtilityCss
