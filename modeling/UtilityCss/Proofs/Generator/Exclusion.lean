import UtilityCss.Proofs.Generator.Batch
import UtilityCss.Proofs.Ruleset.Overlap

/-!
# Errors and text exclude each other

A class either fails, and then one diagnostic says why, or it has text, and then nothing but
warnings. Of the two interpreters at most one has a say about a class, and an explicit class that
neither decides gets an error in any case. Only a ruleset whose edits overlap may lose its text and
warn all the same, or stop the program.
-/

namespace UtilityCss

open Text Css ClassName Interpreter

/-- Nothing but warnings beside a text, and without one a single diagnostic, which is an error for
an explicit class. -/
structure Interpretation.Exclusive (context : Context) (said : Interpretation) : Prop where
  warns : said.css ≠ none → ∀ d ∈ said.diagnostics, d.isError = false
  single : said.css = none → said.diagnostics.length ≤ 1
  fails : said.css = none → context.isExplicit = true → ∀ d ∈ said.diagnostics, d.isError = true

namespace Interpretation

variable {context : Context}

theorem Exclusive.pass : Exclusive context .pass :=
  ⟨fun h => absurd rfl h, fun _ => Nat.zero_le 1, fun _ _ _ hd => absurd hd List.not_mem_nil⟩

theorem Exclusive.failed {d : Diagnostic} (h : context.isExplicit = true → d.isError = true) :
    Exclusive context (.failed d) := by
  refine ⟨fun hcss => absurd rfl hcss, fun _ => Nat.le_refl 1, ?_⟩
  intro _ hexplicit d' hd'
  rw [List.mem_singleton.mp hd']
  exact h hexplicit

theorem Exclusive.decided {css : Text} {ds : List Diagnostic}
    (h : ∀ d ∈ ds, d.isError = false) : Exclusive context ⟨some css, ds⟩ :=
  ⟨fun _ => h, fun hnone => absurd hnone (Option.some_ne_none css),
    fun hnone => absurd hnone (Option.some_ne_none css)⟩

end Interpretation

section Interpreters

variable {context : Context} {name : Text}

/-- Whoever declares a class hears of its failure as an error. -/
theorem Context.isError_diagnostic (h : context.isExplicit = true) (category : Category)
    (message : Text) (suggestion : Option Text) :
    (context.diagnostic name category message suggestion).isError = true := by
  simp [Context.diagnostic, Context.level, Diagnostic.isError, h]

theorem interpretLiteral_exclusive (context : Context) (name : Text) :
    (interpretLiteral context name).Exclusive context := by
  unfold interpretLiteral
  split
  · exact .pass
  · cases Literal.parse context.known name with
    | error e =>
        simp only
        split
        · exact .pass
        · exact .failed fun h => Context.isError_diagnostic h _ _ _
    | ok l =>
        refine .decided ?_
        intro d hd
        obtain ⟨w, -, rfl⟩ := List.mem_map.mp hd
        rfl

/-- A ruleset under modifiers fails its check, or is the changed text with a warning for each
modifier that was left out. -/
theorem modifiedRuleset_cases {base css : Text} {placement : Placement} {said : Interpretation}
    (h : modifiedRuleset name base placement css = some said) :
    (∃ problem, Ruleset.check base css = .error problem ∧
        said = .failed (.error name problem.message problem.suggestion)) ∨
      ∃ ruleset modified, Ruleset.check base css = .ok ruleset ∧
        Ruleset.modify base (escape name) placement css = some modified ∧
        said = ⟨some modified.css, modified.skipped.map (skippedWarning name)⟩ := by
  rw [modifiedRuleset] at h
  cases hcheck : Ruleset.check base css with
  | error problem =>
      rw [hcheck] at h
      exact Or.inl ⟨problem, rfl, (Option.some.inj h).symm⟩
  | ok ruleset =>
      rw [hcheck] at h
      obtain ⟨modified, hmodified, rfl⟩ := Option.map_eq_some_iff.mp h
      exact Or.inr ⟨ruleset, modified, rfl, hmodified, rfl⟩

theorem modifiedRuleset_exclusive (context : Context) {base css : Text} {placement : Placement}
    {said : Interpretation} (h : modifiedRuleset name base placement css = some said) :
    said.Exclusive context := by
  rcases modifiedRuleset_cases h with ⟨problem, -, rfl⟩ | ⟨-, modified, -, -, rfl⟩
  · exact .failed fun _ => rfl
  · refine .decided fun d hd => ?_
    obtain ⟨s, -, rfl⟩ := List.mem_map.mp hd
    rfl

theorem modifiedDeclarations_exclusive (context : Context) (name base : Text)
    (placement : Placement) :
    (modifiedDeclarations context name base placement).Exclusive context := by
  unfold modifiedDeclarations
  cases context.registry.flatten base with
  | error e => exact .failed fun h => Context.isError_diagnostic h _ _ _
  | ok css =>
      simp only
      split <;> exact .decided fun d hd => absurd hd List.not_mem_nil

/-- All that the interpreter of modified classes can say: nothing, why the modifiers do not fit, or
what becomes of the registered class in the last segment. -/
theorem interpretModified_cases (context : Context) (name : Text) :
    interpretModified context name = some .pass ∨
      ∃ names base d, segments? name = some (names ++ [base]) ∧
        context.registry.get? base = some d ∧
        ((∃ e : LiteralError, interpretModified context name =
            some (.failed (context.diagnostic name e.category e.message e.suggestion))) ∨
          ∃ placement, readPlacement names = .ok placement ∧
            ((∃ css, d.body = .ruleset css ∧
                interpretModified context name = modifiedRuleset name base placement css) ∨
              interpretModified context name =
                some (modifiedDeclarations context name base placement))) := by
  cases hsegments : segments? name with
  | none => exact Or.inl (by simp only [interpretModified, hsegments])
  | some segments =>
      rcases List.eq_nil_or_concat segments with hnil | ⟨names, base, hconcat⟩
      · left
        simp [interpretModified, hsegments, hnil]
      · rw [List.concat_eq_append] at hconcat
        subst hconcat
        by_cases hnames : names = []
        · left
          simp [interpretModified, hsegments, hnames]
        · cases hbase : context.registry.get? base with
          | none =>
              left
              simp [interpretModified, hsegments, hbase]
          | some d =>
              right
              refine ⟨names, base, d, rfl, hbase, ?_⟩
              have hsome : names.isEmpty = false := by
                rw [List.isEmpty_eq_false_iff]
                exact hnames
              cases hplacement : readPlacement names with
              | error e =>
                  refine Or.inl ⟨e, ?_⟩
                  simp [interpretModified, hsegments, hsome, hbase, hplacement]
              | ok placement =>
                  refine Or.inr ⟨placement, rfl, ?_⟩
                  cases hbody : d.body with
                  | ruleset css =>
                      refine Or.inl ⟨css, rfl, ?_⟩
                      simp [interpretModified, hsegments, hsome, hbase, hplacement, hbody]
                  | declaration _ | composes _ | composesAndDeclaration _ _ =>
                      right
                      simp [interpretModified, hsegments, hsome, hbase, hplacement, hbody]

/-! ## One interpreter at most -/

theorem endsInRegistered_of_segments {registry : Registry} {names : List Text} {base : Text}
    (h : segments? name = some (names ++ [base])) :
    endsInRegistered registry name = registry.contains base := by
  rw [endsInRegistered, h, Option.bind_some, List.getLast?_concat, Option.any_some]

theorem interpretLiteral_of_endsInRegistered (h : endsInRegistered context.registry name = true) :
    interpretLiteral context name = .pass := by
  rw [interpretLiteral, h, Bool.or_true, if_pos rfl]

/-- A name of which the interpreter of modified classes has something to say ends in a registered
class, and that of literal classes leaves such a name alone. -/
theorem pass_or_pass (context : Context) (name : Text) :
    interpretLiteral context name = .pass ∨ interpretModified context name = some .pass := by
  rcases interpretModified_cases context name with hpass | ⟨names, base, d, hsegments, hbase, -⟩
  · exact Or.inr hpass
  · refine Or.inl (interpretLiteral_of_endsInRegistered ?_)
    rw [endsInRegistered_of_segments hsegments, Registry.contains_eq_isSome, hbase]
    rfl

def Interpreter.claims (i : Interpreter) (context : Context) (name : Text) : Bool :=
  i.accepts name && (i.interpret context name).any (·.css.isSome)

theorem firstDecision_css_isSome {is : List Interpreter} {said : Interpretation}
    (h : Generator.firstDecision context name is = some said) :
    said.css.isSome = is.any (·.claims context name) := by
  induction is generalizing said with
  | nil =>
      cases h
      rfl
  | cons i rest ih =>
      rw [Generator.firstDecision] at h
      rw [List.any_cons, Interpreter.claims]
      split at h
      next hskips =>
        rw [Bool.not_eq_true'] at hskips
        simpa [hskips] using ih h
      next haccepts =>
        rw [Bool.not_eq_true', Bool.not_eq_false] at haccepts
        obtain ⟨first, hfirst, hrest⟩ := Option.bind_eq_some_iff.mp h
        rw [haccepts, hfirst, Option.any_some, Bool.true_and]
        cases hcss : first.css with
        | some css =>
            rw [hcss, Option.some.injEq] at hrest
            rw [← hrest, hcss]
            rfl
        | none =>
            rw [hcss] at hrest
            obtain ⟨later, hlater, rfl⟩ := Option.map_eq_some_iff.mp hrest
            exact (ih hlater : later.css.isSome = _)

theorem firstDecision_of_pass {i : Interpreter} (h : i.interpret context name = some .pass)
    (rest : List Interpreter) :
    Generator.firstDecision context name (i :: rest) =
      Generator.firstDecision context name rest := by
  rw [Generator.firstDecision]
  split
  · rfl
  · rw [h]
    exact Option.map_id'

theorem firstDecision_of_rest_pass {rest : List Interpreter}
    (h : Generator.firstDecision context name rest = some .pass) (i : Interpreter) :
    Generator.firstDecision context name (i :: rest) =
      if i.accepts name then i.interpret context name else some .pass := by
  rw [Generator.firstDecision, h]
  cases i.accepts name with
  | false => rfl
  | true =>
      cases hsaid : i.interpret context name with
      | none => rfl
      | some said =>
          cases said with
          | mk css diagnostics =>
              cases css with
              | none => simp [Interpretation.pass]
              | some css => rfl

/-- Where one of the two interpreters passes, the other one decides. -/
theorem firstDecision_of_literal_pass (h : interpretLiteral context name = .pass) :
    Generator.firstDecision context name Interpreter.standard =
      if hasModifiedForm name then interpretModified context name else some .pass := by
  have hskip := firstDecision_of_pass (i := literalClass) (congrArg some h) [modifiedClass]
  exact hskip.trans (firstDecision_of_rest_pass rfl modifiedClass)

theorem firstDecision_of_modified_pass (h : interpretModified context name = some .pass) :
    Generator.firstDecision context name Interpreter.standard =
      if hasLiteralForm name then some (interpretLiteral context name) else some .pass :=
  firstDecision_of_rest_pass (firstDecision_of_pass (i := modifiedClass) h []) literalClass

/-- Together the two interpreters say what one of them says. -/
theorem firstDecision_standard (context : Context) (name : Text) :
    let said := Generator.firstDecision context name Interpreter.standard
    said = some .pass ∨ said = some (interpretLiteral context name) ∨
      said = interpretModified context name := by
  intro said
  rcases pass_or_pass context name with hliteral | hmodified
  · have hsaid : said = _ := firstDecision_of_literal_pass hliteral
    rw [hsaid]
    split
    · exact Or.inr (Or.inr rfl)
    · exact Or.inl rfl
  · have hsaid : said = _ := firstDecision_of_modified_pass hmodified
    rw [hsaid]
    split
    · exact Or.inr (Or.inl rfl)
    · exact Or.inl rfl

/-! ## Decided without a text -/

/-- The name of a registered ruleset under modifiers, whose edits overlap. -/
def Registry.OverlapsFor (registry : Registry) (name : Text) : Prop :=
  ∃ names base d css placement, segments? name = some (names ++ [base]) ∧
    registry.get? base = some d ∧ d.body = .ruleset css ∧ readPlacement names = .ok placement ∧
    Ruleset.Overlaps (Ruleset.changeUnder base (escape name) placement) css

theorem styleRule_ne_nil (className : Text) (placement : Placement) (declarations : Text) :
    styleRule className placement declarations ≠ [] := by
  refine Ruleset.blocks_ne_nil ?_ _
  intro hnil
  simp [block] at hnil

theorem interpretLiteral_css_ne_nil (context : Context) (name : Text) :
    (interpretLiteral context name).css ≠ some [] := by
  unfold interpretLiteral
  split
  · exact (Option.some_ne_none []).symm
  · cases Literal.parse context.known name with
    | error e =>
        simp only
        split <;> exact (Option.some_ne_none []).symm
    | ok l =>
        intro hnil
        exact styleRule_ne_nil _ _ _ (Option.some.inj hnil)

theorem modifiedRuleset_diagnostics_eq_nil {base css : Text} {placement : Placement}
    {said : Interpretation} (hsaid : modifiedRuleset name base placement css = some said)
    (hcss : said.css = some [])
    (h : ¬ Ruleset.Overlaps (Ruleset.changeUnder base (escape name) placement) css) :
    said.diagnostics = [] := by
  rcases modifiedRuleset_cases hsaid with ⟨problem, -, rfl⟩ | ⟨-, modified, -, hmodified, rfl⟩
  · cases hcss
  · have hskipped := Ruleset.modify_skipped_eq_nil hmodified (Option.some.inj hcss) h
    simp only [hskipped, List.map_nil]

theorem overlaps_of_modifiedRuleset_eq_none {base css : Text} {placement : Placement}
    (h : modifiedRuleset name base placement css = none) :
    Ruleset.Overlaps (Ruleset.changeUnder base (escape name) placement) css := by
  unfold modifiedRuleset at h
  split at h
  next => cases h
  next => exact Ruleset.overlaps_of_modify_eq_none (Option.map_eq_none_iff.mp h)

theorem modifiedDeclarations_diagnostics_eq_nil {base : Text} {placement : Placement}
    (hcss : (modifiedDeclarations context name base placement).css = some []) :
    (modifiedDeclarations context name base placement).diagnostics = [] := by
  unfold modifiedDeclarations at hcss ⊢
  cases hflatten : context.registry.flatten base with
  | error e =>
      rw [hflatten] at hcss
      cases hcss
  | ok css =>
      simp only
      split <;> rfl

/-- What may come back for a class. No answer, or one that warns beside an empty text, is for
rulesets whose edits overlap. -/
structure IsAnswer (context : Context) (name : Text) (answer : Option Interpretation) : Prop where
  exclusive : ∀ said, answer = some said → said.Exclusive context
  silent : ∀ said, answer = some said → said.css = some [] →
    ¬ context.registry.OverlapsFor name → said.diagnostics = []
  stops : answer = none → context.registry.OverlapsFor name

theorem IsAnswer.of_said {said : Interpretation} (hexclusive : said.Exclusive context)
    (hsilent : said.css = some [] → said.diagnostics = []) : IsAnswer context name (some said) := by
  refine ⟨fun said' heq => ?_, fun said' heq hcss _ => ?_, fun h => absurd h (Option.some_ne_none _)⟩
  · cases heq
    exact hexclusive
  · cases heq
    exact hsilent hcss

theorem isAnswer_interpretModified (context : Context) (name : Text) :
    IsAnswer context name (interpretModified context name) := by
  rcases interpretModified_cases context name with hpass | ⟨names, base, d, hsegments, hbase, hcase⟩
  · rw [hpass]
    exact .of_said .pass fun _ => rfl
  · rcases hcase with ⟨e, hfailed⟩ | ⟨placement, hread, ⟨css, hbody, hruleset⟩ | hdeclarations⟩
    · rw [hfailed]
      refine .of_said (.failed fun h => Context.isError_diagnostic h _ _ _) fun hcss => ?_
      cases hcss
    · rw [hruleset]
      have hfor (h : Ruleset.Overlaps (Ruleset.changeUnder base (escape name) placement) css) :
          context.registry.OverlapsFor name :=
        ⟨names, base, d, css, placement, hsegments, hbase, hbody, hread, h⟩
      exact ⟨fun _ hsaid => modifiedRuleset_exclusive context hsaid,
        fun _ hsaid hcss h => modifiedRuleset_diagnostics_eq_nil hsaid hcss (mt hfor h),
        fun h => hfor (overlaps_of_modifiedRuleset_eq_none h)⟩
    · rw [hdeclarations]
      exact .of_said (modifiedDeclarations_exclusive context name base placement)
        modifiedDeclarations_diagnostics_eq_nil

theorem isAnswer_firstDecision (context : Context) (name : Text) :
    IsAnswer context name (Generator.firstDecision context name Interpreter.standard) := by
  rcases firstDecision_standard context name with hpass | hliteral | hmodified
  · rw [hpass]
    exact .of_said .pass fun _ => rfl
  · rw [hliteral]
    exact .of_said (interpretLiteral_exclusive context name) fun hcss =>
      absurd hcss (interpretLiteral_css_ne_nil context name)
  · rw [hmodified]
    exact isAnswer_interpretModified context name

theorem firstDecision_exclusive {said : Interpretation}
    (h : Generator.firstDecision context name Interpreter.standard = some said) :
    said.Exclusive context :=
  (isAnswer_firstDecision context name).exclusive said h

end Interpreters

/-! ## What becomes of a class -/

namespace Generator

variable {lost : Prop}

/-- Nothing but warnings beside a text, and without one a single diagnostic, unless a text got
lost. -/
structure Outcome.Exclusive (lost : Prop) (o : Outcome) : Prop where
  warns : o.css ≠ none → ∀ d ∈ o.diagnostics, d.isError = false
  single : o.css.getD [] = [] → o.diagnostics.length ≤ 1 ∨ lost

theorem Outcome.Exclusive.failed (d : Diagnostic) : Exclusive lost ⟨none, [d]⟩ :=
  ⟨fun h => absurd rfl h, fun _ => Or.inl (Nat.le_refl 1)⟩

theorem Outcome.Exclusive.silent (css : Option Text) : Exclusive lost ⟨css, []⟩ :=
  ⟨fun _ _ hd => absurd hd List.not_mem_nil, fun _ => Or.inl (Nat.zero_le 1)⟩

theorem body_exclusive (g : Generator) (name : Text) (d : Definition) :
    (g.body name d).Exclusive lost := by
  unfold body
  cases d.body with
  | ruleset css =>
      simp only
      cases Ruleset.check name css with
      | error problem => exact .failed _
      | ok ruleset =>
          simp only [Ruleset.simplification?]
          cases ruleset.onlyRule? name with
          | none => exact .silent _
          | some r =>
              refine ⟨fun _ => ?_, fun _ => Or.inl (Nat.le_refl 1)⟩
              intro d hd
              rw [List.mem_singleton.mp hd]
              rfl
  | declaration css => exact .silent _
  | composes _ | composesAndDeclaration _ _ =>
      simp only
      cases g.registry.flatten name with
      | error e => exact .failed _
      | ok css => exact .silent _

theorem withComment_eq_nil {config : Config} {d : Definition} {css : Text}
    (h : withComment config d css = []) : css = [] := by
  unfold withComment at h
  split at h
  · split at h
    · simp at h
    · exact h
  · exact h

theorem define_exclusive (g : Generator) (name : Text) (d : Definition) :
    (g.define name d).Exclusive lost := by
  have hbody : (g.body name d).Exclusive lost := body_exclusive g name d
  obtain ⟨hwarns, hsingle⟩ := hbody
  have hdefine : g.define name d =
      ⟨(g.body name d).css.map (withComment g.config d), (g.body name d).diagnostics⟩ := rfl
  rw [hdefine]
  cases hcss : (g.body name d).css with
  | none => exact ⟨fun h => absurd rfl h, fun _ => hsingle (by rw [hcss]; rfl)⟩
  | some css =>
      refine ⟨fun _ => hwarns (by rw [hcss]; exact Option.some_ne_none css), fun hempty => ?_⟩
      have hnil : css = [] := withComment_eq_nil hempty
      exact hsingle (by rw [hcss, hnil]; rfl)

theorem css_conclude (g : Generator) (name : Text) (said : Interpretation) :
    (g.conclude name said).css = said.css := by
  rw [conclude]
  split
  next hnothing => exact (Option.isNone_iff_eq_none.mp hnothing.1).symm
  next => rfl

/-- An explicit class of which no error says what is wrong gets one that nothing defines it. -/
theorem conclude_eq (g : Generator) {name : Text} {said : Interpretation}
    (hsaid : said.Exclusive (g.context name)) :
    (g.conclude name said = ⟨said.css, said.diagnostics⟩ ∧
        (said.css = none → name ∈ g.explicit → said.diagnostics ≠ [])) ∨
      said.css = none ∧ name ∈ g.explicit ∧ said.diagnostics = [] ∧
        g.conclude name said = ⟨none, [g.undefinedError name]⟩ := by
  by_cases h : said.css.isNone ∧ name ∈ g.explicit ∧ !(said.diagnostics.any Diagnostic.isError)
  · right
    obtain ⟨hcss, hexplicit, hany⟩ := h
    have hnone : said.css = none := Option.isNone_iff_eq_none.mp hcss
    have hempty : said.diagnostics = [] := by
      rw [List.eq_nil_iff_forall_not_mem]
      intro d hd
      have herror := hsaid.fails hnone (decide_eq_true hexplicit) d hd
      simp only [Bool.not_eq_true', List.any_eq_false] at hany
      exact hany d hd herror
    have hconclude : g.conclude name said = ⟨none, said.diagnostics ++ [g.undefinedError name]⟩ :=
      if_pos ⟨hcss, hexplicit, hany⟩
    rw [hempty, List.nil_append] at hconclude
    exact ⟨hnone, hexplicit, hempty, hconclude⟩
  · refine Or.inl ⟨if_neg h, fun hcss hexplicit hempty => h ⟨?_, hexplicit, ?_⟩⟩
    · rw [hcss]
      rfl
    · rw [hempty]
      rfl

theorem conclude_exclusive (g : Generator) {name : Text} {said : Interpretation}
    (h : firstDecision (g.context name) name Interpreter.standard = some said) :
    (g.conclude name said).Exclusive (g.registry.OverlapsFor name) := by
  have hsaid := firstDecision_exclusive h
  rcases conclude_eq g hsaid with ⟨heq, -⟩ | ⟨-, -, -, heq⟩
  · rw [heq]
    refine ⟨hsaid.warns, fun htext => ?_⟩
    cases hcss : said.css with
    | none => exact Or.inl (hsaid.single hcss)
    | some css =>
        have hnil : css = [] := by simpa [hcss] using htext
        rw [hnil] at hcss
        by_cases hfit : g.registry.OverlapsFor name
        · exact Or.inr hfit
        · left
          simp only [(isAnswer_firstDecision _ name).silent said h hcss hfit]
          exact Nat.zero_le 1
  · rw [heq]
    exact .failed _

theorem isError_locate (g : Generator) (name : Text) (d : Diagnostic) :
    (g.locate name d).isError = d.isError := by
  unfold locate
  split <;> rfl

theorem Outcome.Exclusive.locate {o : Outcome} (h : o.Exclusive lost) (g : Generator)
    (name : Text) : Outcome.Exclusive lost ⟨o.css, o.diagnostics.map (g.locate name)⟩ := by
  refine ⟨fun hcss d hd => ?_, fun htext => ?_⟩
  · obtain ⟨d', hd', rfl⟩ := List.mem_map.mp hd
    rw [isError_locate]
    exact h.warns hcss d' hd'
  · rw [List.length_map]
    exact h.single htext

theorem outcome_of_defined {g : Generator} {name : Text} {d : Definition}
    (h : g.registry.get? name = some d) :
    g.outcome name =
      some ⟨(g.define name d).css, (g.define name d).diagnostics.map (g.locate name)⟩ := by
  rw [outcome, h]
  rfl

/-- What becomes of a class without a definition. -/
theorem outcome_of_undefined {g : Generator} {name : Text} (h : g.registry.get? name = none) :
    g.outcome name = (firstDecision (g.context name) name g.interpreters).map fun said =>
      ⟨said.css, (g.conclude name said).diagnostics.map (g.locate name)⟩ := by
  rw [outcome, h]
  simp only [interpret, Option.map_map, Function.comp_def, css_conclude]

theorem outcome_exclusive (g : Generator) (hstandard : g.interpreters = Interpreter.standard)
    {name : Text} {o : Outcome} (h : g.outcome name = some o) :
    o.Exclusive (g.registry.OverlapsFor name) := by
  cases hget : g.registry.get? name with
  | some d =>
      rw [outcome_of_defined hget] at h
      cases h
      exact (define_exclusive g name d).locate g name
  | none =>
      rw [outcome_of_undefined hget, hstandard] at h
      obtain ⟨said, hsaid, rfl⟩ := Option.map_eq_some_iff.mp h
      rw [← css_conclude g name said]
      exact (conclude_exclusive g hsaid).locate g name

theorem overlapsFor_of_outcome_eq_none {g : Generator}
    (hstandard : g.interpreters = Interpreter.standard) {name : Text} (h : g.outcome name = none) :
    g.registry.OverlapsFor name := by
  cases hget : g.registry.get? name with
  | some d =>
      rw [outcome_of_defined hget] at h
      cases h
  | none =>
      rw [outcome_of_undefined hget, hstandard] at h
      exact (isAnswer_firstDecision _ name).stops (Option.map_eq_none_iff.mp h)

theorem filter_isError_locate (g : Generator) (name : Text) (ds : List Diagnostic) :
    ((ds.map (g.locate name)).filter Diagnostic.isError).length =
      (ds.filter Diagnostic.isError).length := by
  have hsame : Diagnostic.isError ∘ g.locate name = Diagnostic.isError :=
    funext (isError_locate g name)
  rw [List.filter_map, List.length_map, hsame]

/-- An explicit class without a definition has one error, unless an interpreter decides it. -/
theorem errors_of_explicit (g : Generator) (hstandard : g.interpreters = Interpreter.standard)
    {name : Text} (hexplicit : name ∈ g.explicit) (hundefined : g.registry.get? name = none)
    {o : Outcome} (h : g.outcome name = some o) :
    (o.diagnostics.filter Diagnostic.isError).length =
      if g.interpreters.any (·.claims (g.context name) name) then 0 else 1 := by
  rw [outcome_of_undefined hundefined] at h
  obtain ⟨said, hdecision, rfl⟩ := Option.map_eq_some_iff.mp h
  have hclaims := firstDecision_css_isSome hdecision
  rw [hstandard] at hdecision
  have hsaid := firstDecision_exclusive hdecision
  rw [filter_isError_locate, ← hclaims]
  rcases conclude_eq g hsaid with ⟨heq, hreports⟩ | ⟨hcss, -, -, heq⟩
  · rw [heq]
    cases hcss : said.css with
    | some css =>
        have hwarns := hsaid.warns (by rw [hcss]; exact Option.some_ne_none css)
        have hnone : said.diagnostics.filter Diagnostic.isError = [] := by
          rw [List.filter_eq_nil_iff]
          intro d hd
          rw [hwarns d hd]
          exact Bool.false_ne_true
        rw [hnone]
        rfl
    | none =>
        have hall := hsaid.fails hcss (decide_eq_true hexplicit)
        have hone : said.diagnostics.length = 1 := by
          have hsingle := hsaid.single hcss
          have hpos := List.length_pos_of_ne_nil (hreports hcss hexplicit)
          omega
        rw [List.filter_eq_self.mpr hall, hone]
        rfl
  · rw [heq, hcss]
    rfl

/-- With the two interpreters, a class that fails writes nothing and a class that writes only warns.
A class that writes nothing has one diagnostic at most, unless it is a ruleset under modifiers whose
edits overlap, and only such a class may stop the program. -/
theorem outcome_excludes (registry : Registry) (known : KnownProperties) (config : Config)
    (explicit : NameSet) (locations : NameMap (List Location)) (name : Text) :
    let g : Generator :=
      { registry, interpreters := Interpreter.standard, known, config, explicit, locations }
    (g.outcome name = none → registry.OverlapsFor name) ∧
      (∀ o, g.outcome name = some o →
        let text := o.css.getD []
        let found := o.diagnostics
        ((∃ d ∈ found, d.level = .error) → text = []) ∧
          (text ≠ [] → ∀ d ∈ found, d.level = .warning) ∧
          (text = [] → found.length ≤ 1 ∨ registry.OverlapsFor name) ∧
          (name ∈ explicit → registry.get? name = none →
            (found.filter Diagnostic.isError).length =
              if g.interpreters.any (·.claims (g.context name) name) then 0 else 1)) ∧
      ∀ context, interpretLiteral context name = .pass ∨
        interpretModified context name = some .pass := by
  intro g
  refine ⟨overlapsFor_of_outcome_eq_none rfl, ?_, fun context => pass_or_pass context name⟩
  intro o houtcome text found
  obtain ⟨hwarns, hsingle⟩ := outcome_exclusive g rfl houtcome
  have htext : text ≠ [] → ∀ d ∈ found, d.isError = false := by
    intro hne
    refine hwarns fun hnone => hne ?_
    simp only [text, hnone, Option.getD_none]
  have hlevel : ∀ d : Diagnostic, d.isError = false → d.level = .warning := by
    intro d hd
    cases hcase : d.level with
    | error =>
        rw [Diagnostic.isError, hcase] at hd
        cases hd
    | warning => rfl
  refine ⟨?_, fun hne d hd => hlevel d (htext hne d hd), hsingle, fun hexplicit hundefined => ?_⟩
  · rintro ⟨d, hd, herror⟩
    by_contra hne
    have hwarning := hlevel d (htext hne d hd)
    rw [herror] at hwarning
    cases hwarning
  · exact errors_of_explicit g rfl hexplicit hundefined houtcome

/-- A rule that goes, and as many blanks behind it as the changed rule behind them has bytes. -/
def lostRuleset : Text :=
  ['.', 'b', '\x7b', '\x7d'] ++ List.replicate 34 '\x0b' ++ ".a:hover,.a:hover".toList ++
    ['\x7b', '\x7d']

/-- All of the changed rule is cut away with the blanks, but not the warnings about it. -/
theorem outcome_lostRuleset :
    let g : Generator := {
      registry := .ofList [(['a'], { body := .ruleset lostRuleset })],
      interpreters := Interpreter.standard, known := .standard }
    (g.outcome "hover:a".toList).map (fun o => (o.css.getD [], o.diagnostics.length)) =
      some ([], 2) := by
  decide +kernel

end Generator

end UtilityCss
