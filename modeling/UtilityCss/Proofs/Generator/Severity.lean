import Mathlib.Data.List.Forall2
import UtilityCss.Proofs.ClassName.Literal
import UtilityCss.Proofs.Generator.Exclusion

/-!
# Severity

Which classes are explicit and how unknown names are to be reported decides how severe a diagnostic
is, and nothing else. Two runs with different settings are followed step by step: in each they say
the same, up to levels, and stricter settings lower none; where one of them stops, so does the other.
Only the error for a class that nothing defines is there for explicit classes alone.
-/

namespace UtilityCss

open Text Css ClassName Interpreter

variable {stricter : Prop} {context context' : Context} {name : Text}

def undefinedMessage : Text :=
  "No matching class definition".toList

/-- The message is not that of an undefined class, since it begins with another letter. -/
def BeginsOtherwise (message : Text) : Prop :=
  ∃ c, message.head? = some c ∧ c ≠ 'N'

theorem BeginsOtherwise.ne {message : Text} (h : BeginsOtherwise message) :
    message ≠ undefinedMessage := by
  rintro rfl
  obtain ⟨c, hc, hne⟩ := h
  exact hne (Option.some.inj hc).symm

theorem LiteralError.beginsOtherwise (e : LiteralError) : BeginsOtherwise e.message := by
  cases e with
  | sequence cause => cases cause <;> exact ⟨_, rfl, by decide⟩
  | _ => exact ⟨_, rfl, by decide⟩

theorem CompositionError.beginsOtherwise (e : CompositionError) : BeginsOtherwise e.message := by
  cases e <;> exact ⟨_, rfl, by decide⟩

theorem Ruleset.Problem.beginsOtherwise (problem : Ruleset.Problem) :
    BeginsOtherwise problem.message := by
  cases problem <;> exact ⟨_, rfl, by decide⟩

theorem Literal.beginsOtherwise_of_mem_warnings {known : KnownProperties} {l : Literal}
    (h : parse known name = .ok l) : ∀ w ∈ l.warnings, BeginsOtherwise w := by
  obtain ⟨-, -, -, -, -, -, -, -, -, -, -, -, -, -, -, hwarnings⟩ := parse_eq_ok_iff_read.mp h
  intro w hw
  rw [hwarnings] at hw
  split at hw
  · rw [List.mem_singleton.mp hw]
    exact ⟨_, rfl, by decide⟩
  · exact absurd hw List.not_mem_nil

/-- One diagnostic of an interpreter in two runs, with another level perhaps. An error stays one if
the second run is the stricter one. -/
structure Diagnostic.Varies (stricter : Prop) (d d' : Diagnostic) : Prop where
  same : d' = { d with level := d'.level }
  stays : stricter → d.isError = true → d'.isError = true
  message : BeginsOtherwise d.message

theorem Diagnostic.Varies.refl {d : Diagnostic} (h : BeginsOtherwise d.message) :
    d.Varies stricter d :=
  ⟨rfl, fun _ herror => herror, h⟩

theorem Diagnostic.Varies.eq_of_isError {d d' : Diagnostic} (h : d.Varies stricter d')
    (hstricter : stricter) (herror : d.isError = true) : d' = d := by
  have hlevel : d.level = .error := eq_of_beq herror
  have hlevel' : d'.level = .error := eq_of_beq (h.stays hstricter herror)
  rw [h.same, hlevel', ← hlevel]

/-- In the stricter run, the errors of the other one stand as they are. -/
theorem Diagnostic.mem_of_varies {ds ds' : List Diagnostic}
    (h : List.Forall₂ (Diagnostic.Varies stricter) ds ds') (hstricter : stricter) {d : Diagnostic}
    (hd : d ∈ ds) (herror : d.isError = true) : d ∈ ds' := by
  induction h with
  | nil => exact absurd hd List.not_mem_nil
  | cons hfirst _ ih =>
      rcases List.mem_cons.mp hd with rfl | hd
      · rw [hfirst.eq_of_isError hstricter herror]
        exact List.mem_cons_self
      · exact List.mem_cons_of_mem _ (ih hd)

structure Context.Varies (stricter : Prop) (context context' : Context) : Prop where
  registry : context'.registry = context.registry
  known : context'.known = context.known
  level : stricter → ∀ category, context.level category = .error →
    context'.level category = .error

structure Interpretation.Varies (stricter : Prop) (said said' : Interpretation) : Prop where
  css : said'.css = said.css
  diagnostics : List.Forall₂ (Diagnostic.Varies stricter) said.diagnostics said'.diagnostics

namespace Interpretation

theorem Varies.refl {said : Interpretation}
    (h : ∀ d ∈ said.diagnostics, BeginsOtherwise d.message) : said.Varies stricter said :=
  ⟨rfl, List.forall₂_same.mpr fun d hd => .refl (h d hd)⟩

theorem Varies.pass : Varies stricter .pass .pass :=
  ⟨rfl, .nil⟩

theorem Varies.failed (h : context.Varies stricter context') (className : Text)
    (category : Category) {message : Text} (hmessage : BeginsOtherwise message)
    (suggestion : Option Text) :
    Varies stricter (.failed (context.diagnostic className category message suggestion))
      (.failed (context'.diagnostic className category message suggestion)) := by
  refine ⟨rfl, .cons ⟨rfl, fun hstricter herror => ?_, hmessage⟩ .nil⟩
  exact beq_iff_eq.mpr (h.level hstricter category (eq_of_beq herror))

end Interpretation

open Interpretation (Varies)

/-! ## Interpreters -/

theorem interpretLiteral_varies (h : context.Varies stricter context') (name : Text) :
    Varies stricter (interpretLiteral context name) (interpretLiteral context' name) := by
  unfold interpretLiteral
  rw [h.registry, h.known]
  split
  · exact .pass
  · cases hparse : Literal.parse context.known name with
    | ok l =>
        refine .refl fun d hd => ?_
        obtain ⟨w, hw, rfl⟩ := List.mem_map.mp hd
        exact Literal.beginsOtherwise_of_mem_warnings hparse w hw
    | error e =>
        simp only
        split
        · exact .pass
        · exact .failed h _ _ e.beginsOtherwise _

theorem modifiedRuleset_beginsOtherwise {base css : Text} {placement : Placement}
    {said : Interpretation} (h : modifiedRuleset name base placement css = some said) :
    ∀ d ∈ said.diagnostics, BeginsOtherwise d.message := by
  rcases modifiedRuleset_cases h with ⟨problem, -, rfl⟩ | ⟨-, modified, -, -, rfl⟩
  · exact List.forall_mem_singleton.mpr problem.beginsOtherwise
  · intro d hd
    obtain ⟨s, -, rfl⟩ := List.mem_map.mp hd
    exact ⟨_, rfl, by decide⟩

theorem modifiedRuleset_varies (name base : Text) (placement : Placement) (css : Text) :
    Option.Rel (Varies stricter) (modifiedRuleset name base placement css)
      (modifiedRuleset name base placement css) := by
  cases hsaid : modifiedRuleset name base placement css with
  | none => exact .none
  | some said => exact .some (.refl (modifiedRuleset_beginsOtherwise hsaid))

theorem modifiedDeclarations_varies (h : context.Varies stricter context') (name base : Text)
    (placement : Placement) :
    Varies stricter (modifiedDeclarations context name base placement)
      (modifiedDeclarations context' name base placement) := by
  unfold modifiedDeclarations
  rw [h.registry]
  cases context.registry.flatten base with
  | error e => exact .failed h _ _ e.beginsOtherwise _
  | ok css =>
      simp only
      split <;> exact .refl fun d hd => absurd hd List.not_mem_nil

theorem interpretModified_varies (h : context.Varies stricter context') (name : Text) :
    Option.Rel (Varies stricter) (interpretModified context name)
      (interpretModified context' name) := by
  unfold interpretModified
  rw [h.registry]
  cases segments? name with
  | none => exact .some .pass
  | some segments =>
      simp only
      split
      · exact .some .pass
      · cases context.registry.get? (segments.getLast?.getD []) with
        | none => exact .some .pass
        | some d =>
            simp only
            cases readPlacement segments.dropLast with
            | error e => exact .some (.failed h _ _ e.beginsOtherwise _)
            | ok placement =>
                simp only
                cases d.body with
                | ruleset css => exact modifiedRuleset_varies ..
                | declaration _ | composes _ | composesAndDeclaration _ _ =>
                    exact .some (modifiedDeclarations_varies h ..)

/-- What an interpreter says may vary, but not whether it decides: the same one is asked last. -/
theorem firstDecision_varies {is : List Interpreter}
    (h : ∀ i ∈ is,
      Option.Rel (Varies stricter) (i.interpret context name) (i.interpret context' name)) :
    Option.Rel (Varies stricter) (Generator.firstDecision context name is)
      (Generator.firstDecision context' name is) := by
  induction is with
  | nil => exact .some .pass
  | cons i rest ih =>
      obtain ⟨hi, hrest⟩ := List.forall_mem_cons.mp h
      have hlater := ih hrest
      rw [Generator.firstDecision, Generator.firstDecision]
      split
      · exact hlater
      · generalize i.interpret context name = said at hi
        generalize i.interpret context' name = said' at hi
        cases hi with
        | none => exact .none
        | @some said said' hsaid =>
            rw [Option.bind_some, Option.bind_some, hsaid.css]
            cases said.css with
            | some css => exact .some hsaid
            | none =>
                generalize Generator.firstDecision context name rest = later at hlater
                generalize Generator.firstDecision context' name rest = later' at hlater
                cases hlater with
                | none => exact .none
                | some hlater =>
                    exact .some ⟨hlater.css, List.rel_append hsaid.diagnostics hlater.diagnostics⟩

theorem firstDecision_standard_varies (h : context.Varies stricter context') (name : Text) :
    Option.Rel (Varies stricter) (Generator.firstDecision context name Interpreter.standard)
      (Generator.firstDecision context' name Interpreter.standard) := by
  refine firstDecision_varies fun i hi => ?_
  rcases List.mem_pair.mp hi with rfl | rfl
  · exact .some (interpretLiteral_varies h name)
  · exact interpretModified_varies h name

/-! ## Settings -/

namespace Generator

def withSeverity (g : Generator) (policy : UnknownPolicy) (explicit : NameSet) : Generator :=
  { g with config := { g.config with unknownPolicy := policy }, explicit }

structure Stricter (policy policy' : UnknownPolicy) (explicit explicit' : NameSet) : Prop where
  policy : policy = .alwaysError → policy' = .alwaysError
  explicit : ∀ name ∈ explicit, name ∈ explicit'

variable {policy policy' : UnknownPolicy} {explicit explicit' : NameSet}

theorem level_eq_error_iff {category : Category} :
    context.level category = .error ↔
      ¬ (category = .validation ∧ context.isExplicit = false ∧
        context.config.unknownPolicy = .warnUnlessExplicit) := by
  simp only [Context.level, Bool.not_eq_true']
  split
  next hwarns => simp [hwarns]
  next hfails => simp only [hfails, not_false_eq_true]

theorem context_varies (g : Generator) (name : Text) :
    ((g.withSeverity policy explicit).context name).Varies
      (Stricter policy policy' explicit explicit')
      ((g.withSeverity policy' explicit').context name) := by
  refine ⟨rfl, rfl, fun hstricter category herror => ?_⟩
  rw [level_eq_error_iff] at herror ⊢
  rintro ⟨hcategory, hhidden, hlenient⟩
  refine herror ⟨hcategory, ?_, ?_⟩
  · refine decide_eq_false fun hmem => ?_
    exact of_decide_eq_false hhidden (hstricter.explicit name hmem)
  · change policy' = .warnUnlessExplicit at hlenient
    change policy = .warnUnlessExplicit
    cases hpolicy : policy with
    | warnUnlessExplicit => rfl
    | alwaysError =>
        rw [hstricter.policy hpolicy] at hlenient
        cases hlenient

/-- The diagnostics but for those of classes that nothing defines. -/
def reports (ds : List Diagnostic) : List Diagnostic :=
  ds.filter fun d => d.message ≠ undefinedMessage

theorem reports_varies {ds ds' : List Diagnostic}
    (h : List.Forall₂ (Diagnostic.Varies stricter) ds ds') :
    List.Forall₂ (Diagnostic.Varies stricter) (reports ds) (reports ds') := by
  refine List.rel_filter (fun d d' hd => ?_) h
  rw [hd.same]

theorem message_locate (g : Generator) (name : Text) (d : Diagnostic) :
    (g.locate name d).message = d.message := by
  unfold locate
  split <;> rfl

theorem reports_locate (g : Generator) (name : Text) (ds : List Diagnostic) :
    reports (ds.map (g.locate name)) = (reports ds).map (g.locate name) := by
  rw [reports, List.filter_map, reports]
  congr 2
  funext d
  simp only [Function.comp, message_locate]

/-- All that an undefined class adds is its own error. -/
theorem reports_conclude (g : Generator) (name : Text) (said : Interpretation) :
    reports (g.conclude name said).diagnostics = reports said.diagnostics := by
  rw [conclude]
  split
  · have hmessage : (g.undefinedError name).message = undefinedMessage := rfl
    have hundefined : reports [g.undefinedError name] = [] :=
      List.filter_cons_of_neg fun hother => of_decide_eq_true hother hmessage
    rw [reports, List.filter_append, ← reports, ← reports, hundefined, List.append_nil]
  · rfl

/-! ## Classes -/

/-- One class in two runs: the same text, the same reports up to levels, and in the stricter run
all errors of the other one. -/
structure Outcome.Varies (stricter : Prop) (o o' : Outcome) : Prop where
  css : o'.css = o.css
  reports : List.Forall₂ (Diagnostic.Varies stricter) (reports o.diagnostics)
    (reports o'.diagnostics)
  errors : stricter → ∀ d ∈ o.diagnostics, d.isError = true → d ∈ o'.diagnostics

theorem Outcome.Varies.refl {o : Outcome} (h : ∀ d ∈ o.diagnostics, BeginsOtherwise d.message) :
    o.Varies stricter o :=
  ⟨rfl, reports_varies (List.forall₂_same.mpr fun d hd => .refl (h d hd)), fun _ _ hd _ => hd⟩

theorem varies_locate {d d' : Diagnostic} (h : d.Varies stricter d') (g : Generator) (name : Text) :
    (g.locate name d).Varies stricter (g.locate name d') := by
  refine ⟨?_, fun hstricter herror => ?_, ?_⟩
  · unfold locate
    split
    · rw [h.same]
    · exact h.same
  · rw [isError_locate] at herror ⊢
    exact h.stays hstricter herror
  · rw [message_locate]
    exact h.message

theorem Outcome.Varies.locate {o o' : Outcome} (h : o.Varies stricter o') (g : Generator)
    (name : Text) :
    Outcome.Varies stricter ⟨o.css, o.diagnostics.map (g.locate name)⟩
      ⟨o'.css, o'.diagnostics.map (g.locate name)⟩ := by
  refine ⟨h.css, ?_, fun hstricter d hd herror => ?_⟩
  · rw [reports_locate, reports_locate]
    refine List.forall₂_map_left_iff.mpr (List.forall₂_map_right_iff.mpr (h.reports.imp ?_))
    exact fun _ _ hd => varies_locate hd g name
  · obtain ⟨found, hfound, rfl⟩ := List.mem_map.mp hd
    rw [isError_locate] at herror
    exact List.mem_map_of_mem (h.errors hstricter found hfound herror)

theorem mem_conclude {g : Generator} {said : Interpretation} {d : Diagnostic}
    (h : d ∈ said.diagnostics) : d ∈ (g.conclude name said).diagnostics := by
  rw [conclude]
  split
  · exact List.mem_append_left _ h
  · exact h

theorem conclude_varies (g g' : Generator) {said said' : Interpretation}
    (h : said.Varies stricter said') (hsaid : said.Exclusive (g.context name))
    (hsaid' : said'.Exclusive (g'.context name))
    (hexplicit : stricter → name ∈ g.explicit → name ∈ g'.explicit)
    (hundefined : g'.undefinedError name = g.undefinedError name) :
    (g.conclude name said).Varies stricter (g'.conclude name said') := by
  refine ⟨?_, ?_, fun hstricter d hd herror => ?_⟩
  · rw [css_conclude, css_conclude]
    exact h.css
  · rw [reports_conclude, reports_conclude]
    exact reports_varies h.diagnostics
  · rcases conclude_eq g hsaid with ⟨heq, -⟩ | ⟨hcss, hmember, hempty, heq⟩
    · rw [heq] at hd
      exact mem_conclude (Diagnostic.mem_of_varies h.diagnostics hstricter hd herror)
    · -- Nothing is said in the stricter run either, and so the class is undefined there too.
      have hsilent := h.diagnostics
      rw [hempty, List.forall₂_nil_left_iff] at hsilent
      rcases conclude_eq g' hsaid' with ⟨-, hreports⟩ | ⟨-, -, -, heq'⟩
      · exact absurd hsilent (hreports (h.css.trans hcss) (hexplicit hstricter hmember))
      · rw [heq] at hd
        rw [heq', hundefined]
        exact hd

theorem body_beginsOtherwise (g : Generator) (name : Text) (d : Definition) :
    ∀ found ∈ (g.body name d).diagnostics, BeginsOtherwise found.message := by
  unfold body
  cases d.body with
  | declaration css => exact fun _ hd => absurd hd List.not_mem_nil
  | ruleset css =>
      simp only
      split
      next problem _ => exact List.forall_mem_singleton.mpr problem.beginsOtherwise
      next ruleset _ =>
        intro found hfound
        rw [Option.mem_toList, Ruleset.simplification?] at hfound
        obtain ⟨r, -, rfl⟩ := Option.map_eq_some_iff.mp hfound
        exact ⟨_, rfl, by decide⟩
  | composes _ | composesAndDeclaration _ _ =>
      simp only
      split
      next e _ => exact List.forall_mem_singleton.mpr e.beginsOtherwise
      next => exact fun _ hd => absurd hd List.not_mem_nil

theorem outcome_varies_of_undefined (g : Generator)
    (hstandard : g.interpreters = Interpreter.standard) (hname : g.registry.get? name = none) :
    Option.Rel (Outcome.Varies (Stricter policy policy' explicit explicit'))
      ((g.withSeverity policy explicit).outcome name)
      ((g.withSeverity policy' explicit').outcome name) := by
  have hvaries : Option.Rel (Interpretation.Varies (Stricter policy policy' explicit explicit'))
      _ _ := firstDecision_standard_varies (context_varies g name) name
  have houtcome (policy : UnknownPolicy) (explicit : NameSet) :
      (g.withSeverity policy explicit).outcome name =
        (firstDecision ((g.withSeverity policy explicit).context name) name
          Interpreter.standard).map fun said =>
            ⟨said.css, ((g.withSeverity policy explicit).conclude name said).diagnostics.map
              (g.locate name)⟩ := by
    rw [outcome_of_undefined (g := g.withSeverity policy explicit) hname, ← hstandard]
    rfl
  rw [houtcome, houtcome]
  generalize hsaid : firstDecision ((g.withSeverity policy explicit).context name) name
    Interpreter.standard = said at hvaries
  generalize hsaid' : firstDecision ((g.withSeverity policy' explicit').context name) name
    Interpreter.standard = said' at hvaries
  cases hvaries with
  | none => exact .none
  | some hvaries =>
      have hconclude := (conclude_varies (g.withSeverity policy explicit)
        (g.withSeverity policy' explicit') hvaries (firstDecision_exclusive hsaid)
        (firstDecision_exclusive hsaid') (fun hstricter => hstricter.explicit name) rfl).locate g name
      rw [css_conclude, css_conclude] at hconclude
      exact .some hconclude

theorem outcome_varies (g : Generator) (hstandard : g.interpreters = Interpreter.standard)
    (name : Text) :
    Option.Rel (Outcome.Varies (Stricter policy policy' explicit explicit'))
      ((g.withSeverity policy explicit).outcome name)
      ((g.withSeverity policy' explicit').outcome name) := by
  cases hget : g.registry.get? name with
  | none => exact outcome_varies_of_undefined g hstandard hget
  | some d =>
      have hdefine : ∀ found ∈ ((g.withSeverity policy explicit).define name d).diagnostics,
          BeginsOtherwise found.message := body_beginsOtherwise _ name d
      rw [outcome_of_defined (g := g.withSeverity policy explicit) hget,
        outcome_of_defined (g := g.withSeverity policy' explicit') hget]
      exact .some ((Outcome.Varies.refl hdefine).locate g name)

/-- The error for an undefined class is given to explicit classes, and it is the only diagnostic
with its message. -/
theorem undefined_of_message (g : Generator) (hstandard : g.interpreters = Interpreter.standard)
    {o : Outcome} (ho : g.outcome name = some o) {d : Diagnostic} (hd : d ∈ o.diagnostics)
    (hmessage : d.message = undefinedMessage) :
    d.className ∈ g.explicit ∧ d = g.locate d.className (g.undefinedError d.className) := by
  cases hget : g.registry.get? name with
  | some definition =>
      rw [outcome_of_defined hget] at ho
      cases ho
      obtain ⟨found, hfound, rfl⟩ := List.mem_map.mp hd
      rw [message_locate] at hmessage
      exact absurd hmessage (body_beginsOtherwise g name definition found hfound).ne
  | none =>
      rw [outcome_of_undefined hget, hstandard] at ho
      obtain ⟨said, hsaid, rfl⟩ := Option.map_eq_some_iff.mp ho
      obtain ⟨found, hfound, rfl⟩ := List.mem_map.mp hd
      rw [message_locate] at hmessage
      rcases conclude_eq g (firstDecision_exclusive hsaid) with ⟨heq, -⟩ | ⟨-, hexplicit, -, heq⟩
      · rw [heq] at hfound
        have hself : (g.context name).Varies True (g.context name) := ⟨rfl, rfl, fun _ _ h => h⟩
        have hvaries := firstDecision_standard_varies hself name
        rw [hsaid, Option.rel_some_some] at hvaries
        exact absurd hmessage
          (List.forall₂_same.mp hvaries.diagnostics found hfound).message.ne
      · rw [heq] at hfound
        rw [List.mem_singleton.mp hfound]
        have hclass : (g.locate name (g.undefinedError name)).className = name := by
          unfold locate
          split <;> rfl
        rw [hclass]
        exact ⟨hexplicit, rfl⟩

/-! ## Batches -/

theorem reports_flatMap (f : Text → List Diagnostic) (names : List Text) :
    reports (names.flatMap f) = names.flatMap fun name => reports (f name) :=
  List.filter_flatMap

theorem textOf_of_varies {g g' : Generator}
    (h : Option.Rel (Outcome.Varies stricter) (g.outcome name) (g'.outcome name)) :
    g'.textOf name = g.textOf name := by
  rw [textOf, textOf]
  generalize g.outcome name = o at h
  generalize g'.outcome name = o' at h
  cases h with
  | none => rfl
  | some h => exact congrArg (·.getD []) h.css

theorem reports_of_varies {g g' : Generator}
    (h : Option.Rel (Outcome.Varies stricter) (g.outcome name) (g'.outcome name)) :
    List.Forall₂ (Diagnostic.Varies stricter) (reports (g.diagnosticsOf name))
        (reports (g'.diagnosticsOf name)) ∧
      (stricter → ∀ d ∈ g.diagnosticsOf name, d.isError = true → d ∈ g'.diagnosticsOf name) := by
  rw [diagnosticsOf, diagnosticsOf]
  generalize g.outcome name = o at h
  generalize g'.outcome name = o' at h
  cases h with
  | none => exact ⟨.nil, fun _ _ hd => absurd hd List.not_mem_nil⟩
  | some h => exact ⟨h.reports, h.errors⟩

theorem outcome_eq_none_iff {g g' : Generator}
    (h : Option.Rel (Outcome.Varies stricter) (g.outcome name) (g'.outcome name)) :
    g'.outcome name = none ↔ g.outcome name = none := by
  generalize g.outcome name = o at h
  generalize g'.outcome name = o' at h
  cases h with
  | none => exact Iff.rfl
  | some h => exact iff_of_false (Option.some_ne_none _) (Option.some_ne_none _)

/-- Two batches whose classes vary, emitted in the same order, vary as one class does. -/
theorem resultOf_varies {g g' : Generator}
    (h : ∀ name, Option.Rel (Outcome.Varies stricter) (g.outcome name) (g'.outcome name))
    (horder : g'.emissionOrder = g.emissionOrder) (batch : List Text) :
    Outcome.Varies stricter ⟨some (g.resultOf batch).css, (g.resultOf batch).diagnostics⟩
      ⟨some (g'.resultOf batch).css, (g'.resultOf batch).diagnostics⟩ := by
  refine ⟨?_, ?_, fun hstricter d hd herror => ?_⟩
  · have htext : g'.textOf = g.textOf := funext fun name => textOf_of_varies (h name)
    simp only [resultOf, htext, horder]
  · simp only [resultOf, reports_flatMap]
    have hnames : List.Forall₂ (· = ·) (namesOf batch) (namesOf batch) :=
      List.forall₂_same.mpr fun _ _ => rfl
    refine List.rel_flatMap hnames fun name name' heq => ?_
    rw [← heq]
    exact (reports_of_varies (h name)).1
  · obtain ⟨name, hname, hd⟩ := List.mem_flatMap.mp hd
    exact List.mem_flatMap.mpr ⟨name, hname, (reports_of_varies (h name)).2 hstricter d hd herror⟩

theorem generate_varies (g : Generator) (hstandard : g.interpreters = Interpreter.standard)
    (batch : List Text) :
    Option.Rel
      (fun r r' => Outcome.Varies (Stricter policy policy' explicit explicit')
        ⟨some r.css, r.diagnostics⟩ ⟨some r'.css, r'.diagnostics⟩)
      ((g.withSeverity policy explicit).generate batch)
      ((g.withSeverity policy' explicit').generate batch) := by
  have hvaries : ∀ name, Option.Rel (Outcome.Varies (Stricter policy policy' explicit explicit'))
      ((g.withSeverity policy explicit).outcome name)
      ((g.withSeverity policy' explicit').outcome name) := outcome_varies g hstandard
  by_cases hall : ∀ name ∈ namesOf batch, (g.withSeverity policy explicit).outcome name ≠ none
  · have hall' : ∀ name ∈ namesOf batch, (g.withSeverity policy' explicit').outcome name ≠ none :=
      fun name hname => mt (outcome_eq_none_iff (hvaries name)).mp (hall name hname)
    rw [generate_eq_some_iff.mpr ⟨hall, rfl⟩, generate_eq_some_iff.mpr ⟨hall', rfl⟩]
    exact .some (resultOf_varies hvaries rfl batch)
  · simp only [not_forall, not_not] at hall
    obtain ⟨name, hname, hstops⟩ := hall
    rw [generate_eq_none hname hstops,
      generate_eq_none hname ((outcome_eq_none_iff (hvaries name)).mpr hstops)]
    exact .none

theorem undefined_of_generate (g : Generator) (hstandard : g.interpreters = Interpreter.standard)
    {batch : List Text} {r : Result} (hr : g.generate batch = some r) {d : Diagnostic}
    (hd : d ∈ r.diagnostics) (hmessage : d.message = undefinedMessage) :
    d.className ∈ g.explicit ∧ d = g.locate d.className (g.undefinedError d.className) := by
  obtain ⟨hall, rfl⟩ := generate_eq_some_iff.mp hr
  obtain ⟨name, hname, hd⟩ := List.mem_flatMap.mp hd
  obtain ⟨o, ho⟩ := Option.ne_none_iff_exists'.mp (hall name hname)
  rw [diagnosticsOf, ho] at hd
  exact undefined_of_message g hstandard ho hd hmessage

/-- Whatever the explicit classes and the policy for unknown names are, a batch has a result or has
none, and if it has, the same text is generated and, but for the errors for undefined classes, the
same is reported up to levels. Stricter settings keep every error. -/
theorem generate_severity (g : Generator) (hstandard : g.interpreters = Interpreter.standard)
    (policy policy' : UnknownPolicy) (explicit explicit' : NameSet) (batch : List Text) :
    Option.Rel
      (fun r r' => r'.css = r.css ∧
        List.Forall₂ (fun d d' => d' = { d with level := d'.level }) (reports r.diagnostics)
          (reports r'.diagnostics) ∧
        ((policy = .alwaysError → policy' = .alwaysError) →
          (∀ name ∈ explicit, name ∈ explicit') →
          List.Forall₂ (fun d d' => d.isError = true → d'.isError = true) (reports r.diagnostics)
            (reports r'.diagnostics) ∧
          ∀ d ∈ r.diagnostics, d.isError = true → d ∈ r'.diagnostics) ∧
        ∀ d ∈ r.diagnostics, d.message = undefinedMessage →
          d.className ∈ explicit ∧ d = g.locate d.className (g.undefinedError d.className))
      ((g.withSeverity policy explicit).generate batch)
      ((g.withSeverity policy' explicit').generate batch) := by
  have hvaries : Option.Rel (fun r r' : Result =>
      Outcome.Varies (Stricter policy policy' explicit explicit') ⟨some r.css, r.diagnostics⟩
        ⟨some r'.css, r'.diagnostics⟩) _ _ := generate_varies g hstandard batch
  generalize hr : (g.withSeverity policy explicit).generate batch = result at hvaries ⊢
  generalize (g.withSeverity policy' explicit').generate batch = result' at hvaries ⊢
  cases hvaries with
  | none => exact .none
  | some hvaries =>
      refine .some ⟨Option.some.inj hvaries.css, hvaries.reports.imp fun _ _ hd => hd.same,
        fun hpolicy hexplicit => ?_, fun d hd hmessage => ?_⟩
      · have hstricter : Stricter policy policy' explicit explicit' := ⟨hpolicy, hexplicit⟩
        exact ⟨hvaries.reports.imp fun _ _ hd => hd.stays hstricter, hvaries.errors hstricter⟩
      · exact undefined_of_generate (g.withSeverity policy explicit) hstandard hr hd hmessage

/-- A misspelt property, and a class that is undefined once it is explicit. -/
theorem generate_severity_misspelt :
    let g : Generator := {
      registry := .empty, interpreters := Interpreter.standard, known := .ofNames ["color".toList] }
    let batch := ["colour:red".toList, "card".toList]
    g.interpreters = Interpreter.standard ∧
      ∃ r r', (g.withSeverity .warnUnlessExplicit .empty).generate batch = some r ∧
        (g.withSeverity .alwaysError (.ofList ["card".toList])).generate batch = some r' ∧
        r.diagnostics.map (·.level) = [.warning] ∧ r'.diagnostics.map (·.level) = [.error, .error] ∧
        r'.css = r.css ∧
        List.Forall₂ (fun d d' => d' = { d with level := d'.level }) (reports r.diagnostics)
          (reports r'.diagnostics) ∧
        List.Forall₂ (fun d d' => d.isError = true → d'.isError = true) (reports r.diagnostics)
          (reports r'.diagnostics) := by
  intro g batch
  have hwarns : ((g.withSeverity .warnUnlessExplicit .empty).generate batch).map
      (fun r => r.diagnostics.map (·.level)) = some [.warning] := by decide +kernel
  have hfails : ((g.withSeverity .alwaysError (.ofList ["card".toList])).generate batch).map
      (fun r => r.diagnostics.map (·.level)) = some [.error, .error] := by decide +kernel
  obtain ⟨r, hr, hwarns⟩ := Option.map_eq_some_iff.mp hwarns
  obtain ⟨r', hr', hfails⟩ := Option.map_eq_some_iff.mp hfails
  have hvaries := generate_severity g rfl .warnUnlessExplicit .alwaysError .empty
    (.ofList ["card".toList]) batch
  rw [hr, hr', Option.rel_some_some] at hvaries
  obtain ⟨hcss, hsame, hstricter, -⟩ := hvaries
  have hstays := (hstricter (fun _ => rfl) fun _ hname => absurd hname List.not_mem_nil).1
  exact ⟨rfl, r, r', hr, hr', hwarns, hfails, hcss, hsame, hstays⟩

end Generator

end UtilityCss
