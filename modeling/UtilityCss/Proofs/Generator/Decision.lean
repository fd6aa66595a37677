import UtilityCss.Proofs.Generator.Exclusion

/-!
# The first decision

A class without a definition is put to the interpreters in their order. Those that do not accept its
name are passed over, and the first of the others that has a text for it, be it an empty one, decides
it. What is reported is what those reported that were asked; the interpreters behind the one that
decides have no part in it. One that is asked and has no answer stops the program.
-/

namespace UtilityCss

open Text

variable {context : Context} {name : Text} {front back : List Interpreter}

namespace Interpreter

/-- The interpreter does not look at the name, or leaves it to others. -/
def LeavesOpen (i : Interpreter) (context : Context) (name : Text) : Prop :=
  i.accepts name = true → ∃ ds, i.interpret context name = some ⟨none, ds⟩

def IsSilent (i : Interpreter) (context : Context) (name : Text) : Prop :=
  i.accepts name = true → i.interpret context name = some .pass

/-- What the interpreters that accept the name report about it, one after the other. -/
def remarks (context : Context) (name : Text) (is : List Interpreter) : List Diagnostic :=
  (is.filter (·.accepts name)).flatMap fun i =>
    ((i.interpret context name).map (·.diagnostics)).getD []

theorem remarks_cons_skip {i : Interpreter} (h : i.accepts name = false) (is : List Interpreter) :
    remarks context name (i :: is) = remarks context name is := by
  rw [remarks, List.filter_cons, h, remarks]
  rfl

theorem remarks_cons_answer {i : Interpreter} {said : Interpretation} (h : i.accepts name = true)
    (hsaid : i.interpret context name = some said) (is : List Interpreter) :
    remarks context name (i :: is) = said.diagnostics ++ remarks context name is := by
  rw [remarks, List.filter_cons, if_pos h, List.flatMap_cons, hsaid, remarks]
  rfl

theorem remarks_append (is js : List Interpreter) :
    remarks context name (is ++ js) = remarks context name is ++ remarks context name js := by
  rw [remarks, List.filter_append, List.flatMap_append]
  rfl

end Interpreter

namespace Generator

open Interpreter

theorem firstDecision_skip {i : Interpreter} (h : i.accepts name = false) :
    firstDecision context name (i :: back) = firstDecision context name back := by
  rw [firstDecision, h]
  rfl

theorem firstDecision_answer {i : Interpreter} {said : Interpretation}
    (haccepts : i.accepts name = true) (hsaid : i.interpret context name = some said) :
    firstDecision context name (i :: back) =
      match said.css with
      | some _ => some said
      | none => (firstDecision context name back).map fun later =>
          { later with diagnostics := said.diagnostics ++ later.diagnostics } := by
  rw [firstDecision, haccepts, hsaid]
  rfl

/-- What interpreters report that leave the name open comes in front of what the others say. -/
theorem firstDecision_append (h : ∀ i ∈ front, i.LeavesOpen context name)
    (back : List Interpreter) :
    firstDecision context name (front ++ back) =
      (firstDecision context name back).map fun later =>
        ⟨later.css, remarks context name front ++ later.diagnostics⟩ := by
  induction front with
  | nil => exact Option.map_id'.symm
  | cons i front ih =>
      obtain ⟨hi, hfront⟩ := List.forall_mem_cons.mp h
      rw [List.cons_append]
      cases haccepts : i.accepts name with
      | false => rw [firstDecision_skip haccepts, ih hfront, remarks_cons_skip haccepts]
      | true =>
          obtain ⟨ds, hsaid⟩ := hi haccepts
          rw [firstDecision_answer haccepts hsaid, ih hfront, remarks_cons_answer haccepts hsaid]
          simp only [Option.map_map, Function.comp_def, List.append_assoc]

theorem firstDecision_claimed {i : Interpreter} {css : Text} {ds : List Diagnostic}
    (haccepts : i.accepts name = true) (hsaid : i.interpret context name = some ⟨some css, ds⟩) :
    firstDecision context name (i :: back) = some ⟨some css, ds⟩ :=
  firstDecision_answer haccepts hsaid

theorem firstDecision_stopped {i : Interpreter} (haccepts : i.accepts name = true)
    (hstops : i.interpret context name = none) :
    firstDecision context name (i :: back) = none := by
  rw [firstDecision, haccepts, hstops]
  rfl

/-- The interpreter that decides, behind others that leave the name open. -/
theorem firstDecision_decided {i : Interpreter} {css : Text} {ds : List Diagnostic}
    (hfront : ∀ j ∈ front, j.LeavesOpen context name) (haccepts : i.accepts name = true)
    (hsaid : i.interpret context name = some ⟨some css, ds⟩) (back : List Interpreter) :
    firstDecision context name (front ++ i :: back) =
      some ⟨some css, remarks context name (front ++ [i])⟩ := by
  have hlast : remarks context name [i] = ds :=
    (remarks_cons_answer haccepts hsaid []).trans (List.append_nil ds)
  rw [firstDecision_append hfront, firstDecision_claimed haccepts hsaid, remarks_append, hlast]
  rfl

theorem firstDecision_undecided {is : List Interpreter}
    (h : ∀ i ∈ is, i.LeavesOpen context name) :
    firstDecision context name is = some ⟨none, remarks context name is⟩ := by
  have hall := firstDecision_append h []
  simpa [firstDecision, Interpretation.pass] using hall

/-- A silent interpreter may stand anywhere. -/
theorem firstDecision_insert {i : Interpreter} (h : i.IsSilent context name)
    (front back : List Interpreter) :
    firstDecision context name (front ++ i :: back) = firstDecision context name (front ++ back) := by
  induction front with
  | nil =>
      cases haccepts : i.accepts name with
      | false => exact firstDecision_skip haccepts
      | true => exact firstDecision_of_pass (h haccepts) back
  | cons j front ih => rw [List.cons_append, List.cons_append, firstDecision, firstDecision, ih]

/-! ## The class -/

variable {g : Generator}

def withInterpreters (g : Generator) (is : List Interpreter) : Generator :=
  { g with interpreters := is }

theorem outcome_withInterpreters (hname : g.registry.get? name = none) {is : List Interpreter}
    (h : firstDecision (g.context name) name is =
      firstDecision (g.context name) name g.interpreters) :
    (g.withInterpreters is).outcome name = g.outcome name := by
  rw [outcome_of_undefined hname, ← h]
  exact outcome_of_undefined (g := g.withInterpreters is) hname

/-- A class without a definition is decided by the first interpreter that accepts its name and has a
text for it; those behind do not matter, and a silent one nowhere does. What those that were asked
report is reported in their order. If none of them decides an explicit class and no error says why,
one says that nothing defines it. An interpreter without an answer stops the program where it is
asked. -/
theorem outcome_of_interpreters (hname : g.registry.get? name = none) :
    let context := g.context name
    (∀ front i back, g.interpreters = front ++ i :: back →
      (∀ j ∈ front, j.LeavesOpen context name) → i.accepts name = true →
        (∀ css ds, i.interpret context name = some ⟨some css, ds⟩ →
          g.outcome name =
            some ⟨some css, (remarks context name (front ++ [i])).map (g.locate name)⟩ ∧
          ∀ others, (g.withInterpreters (front ++ i :: others)).outcome name = g.outcome name) ∧
        (i.interpret context name = none → g.outcome name = none)) ∧
    ((∀ i ∈ g.interpreters, i.LeavesOpen context name) →
      let heard := remarks context name g.interpreters
      let undefined := Diagnostic.error name "No matching class definition".toList
        ((closest name g.registry.names).map didYouMean)
      g.outcome name = some ⟨none, (heard ++
        if name ∈ g.explicit ∧ ∀ d ∈ heard, d.isError = false then [undefined] else []).map
          (g.locate name)⟩) ∧
    (∀ front i back, g.interpreters = front ++ back → i.IsSilent context name →
      (g.withInterpreters (front ++ i :: back)).outcome name = g.outcome name) := by
  intro context
  refine ⟨?_, ?_, ?_⟩
  · intro front i back hinterpreters hfront haccepts
    constructor
    · intro css ds hanswer
      have hsaid := firstDecision_decided hfront haccepts hanswer
      refine ⟨?_, fun others => outcome_withInterpreters hname ?_⟩
      · rw [outcome_of_undefined hname, hinterpreters, hsaid back]
        rfl
      · rw [hinterpreters, hsaid others, hsaid back]
    · intro hstops
      rw [outcome_of_undefined hname, hinterpreters, firstDecision_append hfront,
        firstDecision_stopped haccepts hstops]
      rfl
  · intro hopen heard undefined
    have hsaid : firstDecision context name g.interpreters = some ⟨none, heard⟩ :=
      firstDecision_undecided hopen
    have hany : (!heard.any Diagnostic.isError) = true ↔ ∀ d ∈ heard, d.isError = false := by
      simp
    rw [outcome_of_undefined hname, hsaid, Option.map_some, conclude]
    simp only [Option.isNone_none, hany, true_and]
    split
    · rfl
    · rw [List.append_nil]
  · intro front i back hinterpreters hsilent
    refine outcome_withInterpreters hname ?_
    rw [hinterpreters, firstDecision_insert hsilent]

/-- An interpreter with one answer to all names that begin alike. -/
def fixedAnswer (lead : Text) (css : Option Text) (warnings : List Text) : Interpreter where
  name := "fixed".toList
  accepts name := (after? lead name).isSome
  interpret _ name := some ⟨css, warnings.map fun w => .warning name w none⟩

/-- The first interpreter declines with a warning, the second one claims the name without a text. -/
theorem outcome_of_interpreters_icon :
    let name := "icon-x".toList
    let declines := fixedAnswer "icon-".toList none ["not drawn yet".toList]
    let claims := fixedAnswer "icon".toList (some []) ["left to a font".toList]
    let late := fixedAnswer "i".toList (some ".i \x7b\x7d".toList) ["too late".toList]
    let g : Generator := {
      registry := .empty, interpreters := [declines, claims, late], known := .ofNames [],
      explicit := .ofList [name] }
    let warnings := [Diagnostic.warning name "not drawn yet".toList none]
    g.registry.get? name = none ∧
      g.outcome name =
        some ⟨some [], warnings ++ [.warning name "left to a font".toList none]⟩ ∧
      (g.withInterpreters [declines, claims]).outcome name = g.outcome name ∧
      (g.withInterpreters [declines, fixedAnswer "icons".toList none [], claims, late]).outcome name =
        g.outcome name ∧
      (g.withInterpreters [declines]).outcome name =
        some ⟨none, warnings ++ [.error name "No matching class definition".toList none]⟩ := by
  intro name declines claims late g warnings
  have hname : g.registry.get? name = none := rfl
  have hname' : (g.withInterpreters [declines]).registry.get? name = none := rfl
  have hdeclines : ∀ i ∈ [declines], i.LeavesOpen (g.context name) name :=
    List.forall_mem_singleton.mpr fun _ => ⟨_, rfl⟩
  obtain ⟨hdecided, -, hinsert⟩ := outcome_of_interpreters hname
  obtain ⟨-, hopen, -⟩ := outcome_of_interpreters hname'
  obtain ⟨hclaims, -⟩ := hdecided [declines] claims [late] rfl hdeclines (by decide +kernel)
  obtain ⟨houtcome, hbehind⟩ := hclaims [] _ rfl
  refine ⟨rfl, houtcome.trans (by rfl), hbehind [], ?_, ?_⟩
  · exact hinsert [declines] (fixedAnswer "icons".toList none []) [claims, late] rfl fun _ => rfl
  · exact (hopen hdeclines).trans (by rfl)

end Generator

end UtilityCss
