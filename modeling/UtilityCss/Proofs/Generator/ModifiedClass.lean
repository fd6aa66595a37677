import UtilityCss.Proofs.ClassName.Segment
import UtilityCss.Proofs.Composition.Flatten
import UtilityCss.Proofs.Generator.Exclusion
import UtilityCss.Proofs.Text.Lines

/-!
# A registered class, plain and under modifiers

By itself a registered class is written by the generator, under modifiers by an interpreter. Both
read the same definition: they fail for the same reasons, and classes of declarations are given the
same declarations. A ruleset may also be without an answer under modifiers, if its edits do not fit.
-/

namespace UtilityCss

open Text Css ClassName Interpreter

variable {context : Context} {name base : Text} {names : List Text} {ms : List Modifier}
  {s : ModifierSet} {placement : Placement} {d : Definition}

theorem readPrefixes_eq_ok (h : names.map Modifier.ofName? = ms.map some) :
    readPrefixes names = .ok ms := by
  induction names generalizing ms with
  | nil => rw [List.map_eq_nil_iff.mp h.symm, readPrefixes]
  | cons front names ih =>
      cases ms with
      | nil => cases h
      | cons m ms =>
          obtain ⟨hfront, hnames⟩ := List.cons.inj h
          simp only [readPrefixes, hfront, ih hnames]

theorem readPlacement_eq_ok (h : names.map Modifier.ofName? = ms.map some)
    (hset : ModifierSet.ofList ms = .ok s) : readPlacement names = .ok s.placement := by
  simp only [readPlacement, readPrefixes_eq_ok h, hset]

/-- A class under modifiers has a name in front of its own. -/
theorem ne_nil_of_segments (hsegments : segments? name = some (names ++ [base]))
    (hne : name ≠ base) : names ≠ [] := by
  rintro rfl
  exact hne (joinSegments_of_segments? hsegments).symm

/-- None of the parts between the colons of a name is empty, the last one among them. -/
theorem base_ne_nil (hform : hasModifiedForm name = true)
    (hsegments : segments? name = some (names ++ [base])) (hnames : names ≠ []) : base ≠ [] := by
  rintro rfl
  have hparts := (Bool.and_eq_true_iff.mp hform).2
  rw [← joinSegments_of_segments? hsegments, joinSegments,
    join_append hnames (List.cons_ne_nil _ _), List.append_assoc, List.singleton_append,
    splitAtChar_append, List.all_append] at hparts
  exact Bool.false_ne_true (Bool.and_eq_true_iff.mp hparts).2

theorem name_ne_nil (hform : hasModifiedForm name = true) : name ≠ [] := by
  rintro rfl
  exact absurd hform (by decide)

section Interpreted

variable (hsegments : segments? name = some (names ++ [base])) (hnames : names ≠ [])
  (hbase : context.registry.get? base = some d) (hread : readPlacement names = .ok placement)

include hsegments hnames hbase hread

theorem interpretModified_of_ruleset {css : Text} (hbody : d.body = .ruleset css) :
    interpretModified context name = modifiedRuleset name base placement css := by
  simp [interpretModified, hsegments, hnames, hbase, hread, hbody]

theorem interpretModified_of_declarations (hd : d.isRuleset = false) :
    interpretModified context name = some (modifiedDeclarations context name base placement) := by
  cases hbody : d.body with
  | ruleset css => simp [Definition.isRuleset, hbody] at hd
  | declaration _ | composes _ | composesAndDeclaration _ _ =>
      simp [interpretModified, hsegments, hnames, hbase, hread, hbody]

end Interpreted

/-- The generator leaves such a name to the interpreter of modified classes. -/
theorem firstDecision_modified (hform : hasModifiedForm name = true)
    (hsegments : segments? name = some (names ++ [base]))
    (hbase : context.registry.get? base = some d) :
    Generator.firstDecision context name Interpreter.standard = interpretModified context name := by
  have hends : endsInRegistered context.registry name = true := by
    rw [endsInRegistered_of_segments hsegments, Registry.contains_eq_isSome, hbase]
    rfl
  rw [firstDecision_of_literal_pass (interpretLiteral_of_endsInRegistered hends), if_pos hform]

theorem Definition.isRuleset_iff : d.isRuleset = true ↔ ∃ css, d.body = .ruleset css := by
  rw [isRuleset]
  cases d.body <;> simp

namespace Generator

variable {g : Generator}

/-- All definitions but rulesets are written as what they flatten to. -/
theorem body_of_flatten (h : g.registry.get? base = some d) (hd : d.isRuleset = false) :
    g.body base d =
      match g.registry.flatten base with
      | .error e => ⟨none, [.error base e.message e.suggestion]⟩
      | .ok css => ⟨plainRule? base css, []⟩ := by
  unfold body
  cases hbody : d.body with
  | ruleset css =>
      rw [Definition.isRuleset, hbody] at hd
      cases hd
  | declaration css => rw [Registry.flatten_of_declaration h hbody]
  | composes _ | composesAndDeclaration _ _ => rfl

end Generator

/-! ## Failures -/

/-- Why a class fails: what its errors say, without the name that they are about. -/
def Diagnostic.failures (ds : List Diagnostic) : List (Text × Option Text) :=
  (ds.filter Diagnostic.isError).map fun d => (d.message, d.suggestion)

theorem Diagnostic.failures_eq_nil_iff {ds : List Diagnostic} :
    failures ds = [] ↔ ds.any isError = false := by
  simp [failures]

open Diagnostic (failures)

theorem failures_eq_nil {ds : List Diagnostic} (h : ∀ d ∈ ds, d.isError = false) :
    failures ds = [] :=
  Diagnostic.failures_eq_nil_iff.mpr (List.any_eq_false.mpr fun d hd => by simp [h d hd])

theorem failures_singleton {d : Diagnostic} (h : d.isError = true) :
    failures [d] = [(d.message, d.suggestion)] := by
  simp [failures, h]

theorem Generator.failures_locate (g : Generator) (name : Text) (ds : List Diagnostic) :
    failures (ds.map (g.locate name)) = failures ds := by
  have herror : Diagnostic.isError ∘ g.locate name = Diagnostic.isError :=
    funext (isError_locate g name)
  rw [failures, List.filter_map, herror, List.map_map, failures]
  congr 1
  funext d
  simp only [Function.comp, locate]
  split <;> rfl

theorem failures_body_of_check (g : Generator) {css : Text} (hbody : d.body = .ruleset css) :
    failures (g.body base d).diagnostics =
      match Ruleset.check base css with
      | .error problem => [(problem.message, problem.suggestion)]
      | .ok _ => [] := by
  cases hcheck : Ruleset.check base css with
  | error problem =>
      simp only [Generator.body, hbody, hcheck]
      exact failures_singleton rfl
  | ok ruleset =>
      have hexclusive : (g.body base d).Exclusive False := Generator.body_exclusive g base d
      have hplain := hexclusive.warns
      simp only [Generator.body, hbody, hcheck] at hplain ⊢
      exact failures_eq_nil (hplain (Option.some_ne_none _))

/-- A ruleset is checked on either path, and nothing else makes it fail. -/
theorem failures_modifiedRuleset (g : Generator) {css : Text} (hbody : d.body = .ruleset css)
    {said : Interpretation} (hsaid : modifiedRuleset name base placement css = some said) :
    failures said.diagnostics = failures (g.body base d).diagnostics := by
  rw [failures_body_of_check g hbody]
  have hwarns := (modifiedRuleset_exclusive (g.context name) hsaid).warns
  rcases modifiedRuleset_cases hsaid with ⟨problem, hcheck, rfl⟩ | ⟨ruleset, modified, hcheck, -, rfl⟩
  · rw [hcheck]
    exact failures_singleton rfl
  · rw [hcheck]
    exact failures_eq_nil (hwarns (Option.some_ne_none _))

/-- A ruleset that passes the check has no answer where its edits do not fit. -/
theorem modifiedRuleset_eq_none_iff (g : Generator) {css : Text} (hbody : d.body = .ruleset css) :
    modifiedRuleset name base placement css = none ↔
      failures (g.body base d).diagnostics = [] ∧
        Ruleset.modify base (escape name) placement css = none := by
  rw [failures_body_of_check g hbody, modifiedRuleset]
  cases Ruleset.check base css with
  | error problem => exact iff_of_false (Option.some_ne_none _) fun h => List.cons_ne_nil _ _ h.1
  | ok ruleset => exact Option.map_eq_none_iff.trans (and_iff_right rfl).symm

theorem failures_modifiedDeclarations (g : Generator) (hbase : g.registry.get? base = some d)
    (hd : d.isRuleset = false) (name : Text) (placement : Placement) :
    failures (modifiedDeclarations (g.context name) name base placement).diagnostics =
      failures (g.body base d).diagnostics := by
  rw [Generator.body_of_flatten hbase hd]
  cases hflatten : g.registry.flatten base with
  | error e =>
      simp only [modifiedDeclarations, Generator.context, hflatten]
      exact failures_singleton rfl
  | ok css =>
      simp only [modifiedDeclarations, Generator.context, hflatten]
      split <;> rfl

theorem modifiedRuleset_fails {css : Text} {said : Interpretation}
    (hsaid : modifiedRuleset name base placement css = some said) (h : said.css = none) :
    failures said.diagnostics ≠ [] := by
  rcases modifiedRuleset_cases hsaid with ⟨problem, -, rfl⟩ | ⟨-, modified, -, -, rfl⟩
  · exact List.cons_ne_nil _ _
  · cases h

theorem modifiedDeclarations_fails
    (h : (modifiedDeclarations context name base placement).css = none) :
    failures (modifiedDeclarations context name base placement).diagnostics ≠ [] := by
  unfold modifiedDeclarations at h ⊢
  split
  next =>
    rw [Interpretation.failed, failures_singleton rfl]
    exact List.cons_ne_nil _ _
  next css hflatten =>
    rw [hflatten] at h
    simp only at h
    split at h <;> cases h

/-! ## Plain and modified use -/

namespace Generator

variable {g : Generator}

/-- Where the interpreters decide or fail, nothing is added to what they say. -/
theorem conclude_of_said {said : Interpretation}
    (h : said.css = none → failures said.diagnostics ≠ []) :
    g.conclude name said = ⟨said.css, said.diagnostics⟩ := by
  refine if_neg fun hnothing => ?_
  obtain ⟨hnone, -, hany⟩ := hnothing
  refine h (Option.isNone_iff_eq_none.mp hnone) (Diagnostic.failures_eq_nil_iff.mpr ?_)
  simpa using hany

def withoutComments (g : Generator) : Generator :=
  { g with config := { g.config with emitComments := false } }

theorem withComment_withoutComments (d : Definition) (css : Text) :
    withComment g.withoutComments.config d css = css := by
  unfold withComment
  split <;> rfl

theorem generate_base (hne : base ≠ []) (hbase : g.registry.get? base = some d) :
    g.generate [base] = some
      { css := ((g.body base d).css.map (withComment g.config d)).getD [],
        diagnostics := (g.body base d).diagnostics.map (g.locate base) } := by
  rw [generate_singleton hne, outcome_of_defined hbase]
  rfl

theorem generate_name (hne : name ≠ []) (hname : g.registry.get? name = none) :
    g.generate [name] = (firstDecision (g.context name) name g.interpreters).map fun said =>
      { css := said.css.getD [],
        diagnostics := (g.conclude name said).diagnostics.map (g.locate name) } := by
  rw [generate_singleton hne, outcome_of_undefined hname, Option.map_map]
  rfl

theorem hasErrors_of_failures {r r' : Result}
    (h : failures r.diagnostics = failures r'.diagnostics) : r.hasErrors = r'.hasErrors := by
  rw [Result.hasErrors, Result.hasErrors, Bool.eq_iff_iff, ← not_iff_not, Bool.not_eq_true,
    Bool.not_eq_true, ← Diagnostic.failures_eq_nil_iff, ← Diagnostic.failures_eq_nil_iff, h]

/-- What the interpreter says of a class fails where the class itself does, and it decides where it
does not fail. -/
theorem interpretModified_agrees (hsegments : segments? name = some (names ++ [base]))
    (hfronts : names ≠ []) (hbase : g.registry.get? base = some d)
    (hread : readPlacement names = .ok placement) {said : Interpretation}
    (hsaid : interpretModified (g.context name) name = some said) :
    failures said.diagnostics = failures (g.body base d).diagnostics ∧
      (said.css = none → failures said.diagnostics ≠ []) := by
  cases hruleset : d.isRuleset with
  | false =>
      rw [interpretModified_of_declarations hsegments hfronts hbase hread hruleset] at hsaid
      cases hsaid
      exact ⟨failures_modifiedDeclarations g hbase hruleset name _, modifiedDeclarations_fails⟩
  | true =>
      obtain ⟨css, hbody⟩ := Definition.isRuleset_iff.mp hruleset
      rw [interpretModified_of_ruleset hsegments hfronts hbase hread hbody] at hsaid
      exact ⟨failures_modifiedRuleset g hbody hsaid, modifiedRuleset_fails hsaid⟩

theorem interpretModified_eq_none_iff (hsegments : segments? name = some (names ++ [base]))
    (hfronts : names ≠ []) (hbase : g.registry.get? base = some d)
    (hread : readPlacement names = .ok placement) :
    interpretModified (g.context name) name = none ↔
      ∃ css, d.body = .ruleset css ∧ failures (g.body base d).diagnostics = [] ∧
        Ruleset.modify base (escape name) placement css = none := by
  cases hruleset : d.isRuleset with
  | false =>
      rw [interpretModified_of_declarations hsegments hfronts hbase hread hruleset]
      refine iff_of_false (Option.some_ne_none _) fun h => ?_
      obtain ⟨css, hbody, -⟩ := h
      rw [Definition.isRuleset_iff.mpr ⟨css, hbody⟩] at hruleset
      cases hruleset
  | true =>
      obtain ⟨css, hbody⟩ := Definition.isRuleset_iff.mp hruleset
      rw [interpretModified_of_ruleset hsegments hfronts hbase hread hbody,
        modifiedRuleset_eq_none_iff g hbody]
      constructor
      · exact fun h => ⟨css, hbody, h⟩
      · rintro ⟨css', hbody', h⟩
        cases hbody.symm.trans hbody'
        exact h

/-- Where declarations do not fail, they are the same on either path. -/
theorem css_modifiedDeclarations (hbase : g.registry.get? base = some d)
    (hruleset : d.isRuleset = false) (hnone : failures (g.body base d).diagnostics = [])
    (name : Text) (placement : Placement) :
    let said := modifiedDeclarations (g.context name) name base placement
    ∃ declarations, g.registry.flatten base = .ok declarations ∧
      (declarations = [] ∧ (g.body base d).css = none ∧ said.css = some [] ∨
        (g.body base d).css = some (block (classSelector base) declarations) ∧
          said.css = some (styleRule name placement declarations)) := by
  intro said
  have hsaid : said = modifiedDeclarations (g.context name) name base placement := rfl
  rw [body_of_flatten hbase hruleset] at hnone ⊢
  simp only [modifiedDeclarations, context] at hsaid
  cases hflatten : g.registry.flatten base with
  | error e =>
      rw [hflatten] at hnone
      exact absurd hnone (List.cons_ne_nil _ _)
  | ok css =>
      rw [hflatten] at hsaid
      rw [hsaid]
      refine ⟨css, rfl, ?_⟩
      cases hempty : css.isEmpty with
      | true =>
          exact Or.inl ⟨List.isEmpty_iff.mp hempty, by simp [plainRule?, hempty], by simp [hempty]⟩
      | false => exact Or.inr ⟨by simp [plainRule?, hempty], by simp [hempty]⟩

/-- A registered class that is used under modifiers has a result unless it is a ruleset that does not
fail by itself and whose edits do not fit, which takes edits that overlap. The result fails exactly if
the class fails without modifiers, and for the same reason. If it does not, a class of declarations
gets a rule with the declarations that it flattens to on both paths, or none on both. -/
theorem generate_modified (g : Generator) (hstandard : g.interpreters = Interpreter.standard)
    (hbase : g.registry.get? base = some d) (hname : g.registry.get? name = none)
    (hform : hasModifiedForm name = true) (hsegments : segments? name = some (names ++ [base]))
    (hnames : names.map Modifier.ofName? = ms.map some) (hset : ModifierSet.ofList ms = .ok s) :
    ∃ plain bare, g.generate [base] = some plain ∧ g.withoutComments.generate [base] = some bare ∧
      (g.generate [name] = none ↔ ∃ css, d.body = .ruleset css ∧ plain.hasErrors = false ∧
        Ruleset.modify base (escape name) s.placement css = none) ∧
      (g.generate [name] = none → g.registry.OverlapsFor name) ∧
      ∀ modified, g.generate [name] = some modified →
        modified.hasErrors = plain.hasErrors ∧
          failures modified.diagnostics = failures plain.diagnostics ∧
          (d.isRuleset = false → plain.hasErrors = false →
            ∃ declarations, g.registry.flatten base = .ok declarations ∧
              (declarations = [] ∧ plain.css = [] ∧ modified.css = [] ∨
                bare.css = block (classSelector base) declarations ∧
                  modified.css = styleRule name s.placement declarations)) := by
  have hfronts : names ≠ [] := ne_nil_of_segments hsegments fun heq => by
    rw [heq, hbase] at hname
    cases hname
  have hread := readPlacement_eq_ok hnames hset
  have hsaid : firstDecision (g.context name) name g.interpreters =
      interpretModified (g.context name) name := by
    rw [hstandard]
    exact firstDecision_modified hform hsegments hbase
  have hne := base_ne_nil hform hsegments hfronts
  have hgenerate := generate_name (name_ne_nil hform) hname
  rw [hsaid] at hgenerate
  have hbare : g.withoutComments.body base d = g.body base d := rfl
  refine ⟨_, _, generate_base hne hbase, generate_base (g := g.withoutComments) hne hbase,
    ?_, ?_, ?_⟩
  · rw [hgenerate, Option.map_eq_none_iff,
      interpretModified_eq_none_iff hsegments hfronts hbase hread]
    simp only [Result.hasErrors, ← Diagnostic.failures_eq_nil_iff, failures_locate]
  · rw [hgenerate, Option.map_eq_none_iff]
    exact (isAnswer_interpretModified _ name).stops
  · intro modified hmodified
    rw [hgenerate] at hmodified
    obtain ⟨said, hanswer, rfl⟩ := Option.map_eq_some_iff.mp hmodified
    obtain ⟨hsame, hfails⟩ := interpretModified_agrees hsegments hfronts hbase hread hanswer
    have hfailures : failures ((g.conclude name said).diagnostics.map (g.locate name)) =
        failures ((g.body base d).diagnostics.map (g.locate base)) := by
      rw [conclude_of_said hfails, failures_locate, failures_locate, hsame]
    refine ⟨hasErrors_of_failures hfailures, hfailures, fun hruleset herrors => ?_⟩
    have hnone := Diagnostic.failures_eq_nil_iff.mpr herrors
    rw [failures_locate] at hnone
    rw [interpretModified_of_declarations hsegments hfronts hbase hread hruleset,
      Option.some.injEq] at hanswer
    subst hanswer
    obtain ⟨declarations, hflatten, hcss⟩ :=
      css_modifiedDeclarations hbase hruleset hnone name s.placement
    refine ⟨declarations, hflatten, ?_⟩
    rcases hcss with ⟨hempty, hplain, hwritten⟩ | ⟨hplain, hwritten⟩
    · exact Or.inl ⟨hempty, by rw [hplain]; rfl, by rw [hwritten]; rfl⟩
    · rw [hbare, hplain, hwritten]
      exact Or.inr ⟨withComment_withoutComments d _, rfl⟩

theorem generate_modified_composed :
    let d : Definition := {
      body := .composesAndDeclaration ["pad".toList] "color: red;".toList,
      comment := some "A card.".toList }
    let g : Generator := {
      registry := .ofList [("pad".toList, { body := .declaration "padding: 0;".toList }),
        ("card".toList, d)],
      interpreters := Interpreter.standard, known := .standard }
    let name := "md:hover:card".toList
    let base := "card".toList
    let names := ["md".toList, "hover".toList]
    let md : Modifier := ⟨.media, "md".toList, "@media (width >= 48rem)".toList⟩
    let hover : Modifier := ⟨.state, "hover".toList, ":hover".toList⟩
    let s : ModifierSet := { media := some md, states := [hover] }
    let declarations := "padding: 0;\ncolor: red;".toList
    g.registry.get? base = some d ∧ g.registry.get? name = none ∧ hasModifiedForm name = true ∧
      segments? name = some (names ++ [base]) ∧
      names.map Modifier.ofName? = [md, hover].map some ∧ ModifierSet.ofList [md, hover] = .ok s ∧
      ∃ plain bare modified, g.generate [base] = some plain ∧
        g.withoutComments.generate [base] = some bare ∧ g.generate [name] = some modified ∧
        plain.hasErrors = false ∧ modified.hasErrors = false ∧
        bare.css = block (classSelector base) declarations ∧
        modified.css = styleRule name s.placement declarations := by
  intro d g name base names md hover s declarations
  have hbase : g.registry.get? base = some d := by decide +kernel
  have hname : g.registry.get? name = none := by decide +kernel
  have hform : hasModifiedForm name = true := by decide +kernel
  have hsegments : segments? name = some (names ++ [base]) := by decide +kernel
  have hnames : names.map Modifier.ofName? = [md, hover].map some := by decide +kernel
  have hset : ModifierSet.ofList [md, hover] = .ok s := by rfl
  obtain ⟨plain, bare, hplain, hbare, hstops, -, hagrees⟩ :=
    generate_modified g rfl hbase hname hform hsegments hnames hset
  have hpad : g.registry.get? "pad".toList =
      some { body := .declaration "padding: 0;".toList } := by decide +kernel
  have hflatten : g.registry.flatten base = .ok declarations := by
    rw [Registry.flatten, Registry.flattenAll_of_get? (by decide) (by decide) hbase rfl,
      show d.references = ["pad".toList] from rfl,
      Registry.flattenAll_of_get? (by decide) (by decide) hpad rfl]
    simp only [Definition.references, Registry.flattenAll]
    rfl
  have hreturns : g.generate [name] ≠ none := by
    rw [Ne, hstops]
    rintro ⟨css, hbody, -⟩
    cases hbody
  obtain ⟨modified, hmodified⟩ := Option.ne_none_iff_exists'.mp hreturns
  obtain ⟨hsame, -, hcss⟩ := hagrees modified hmodified
  have hfails : plain.hasErrors = false := by
    rw [generate_base (by decide) hbase, Option.some.injEq, body_of_flatten hbase rfl,
      hflatten] at hplain
    rw [← hplain]
    rfl
  obtain ⟨declared, hdeclared, hwritten⟩ := hcss rfl hfails
  rw [hflatten, Except.ok.injEq] at hdeclared
  subst hdeclared
  obtain ⟨hbareCss, hmodifiedCss⟩ := hwritten.resolve_left fun hempty =>
    List.cons_ne_nil _ _ hempty.1
  exact ⟨hbase, hname, hform, hsegments, hnames, hset, plain, bare, modified, hplain, hbare,
    hmodified, hfails, hsame.trans hfails, hbareCss, hmodifiedCss⟩

/-- A rule that goes, and more blanks behind it than the changed rule behind them has bytes. -/
def unfitRuleset : Text :=
  ['.', 'b', '\x7b', '\x7d'] ++ List.replicate 18 '\x0b' ++ ['.', 'a', '\x7b', '\x7d']

/-- The class has a result without errors, and stops the program under a modifier. -/
theorem generate_unfitRuleset :
    let d : Definition := { body := .ruleset unfitRuleset }
    let g : Generator := {
      registry := .ofList [(['a'], d)], interpreters := Interpreter.standard, known := .standard }
    let name := "hover:a".toList
    let hover : Modifier := ⟨.state, "hover".toList, ":hover".toList⟩
    g.registry.get? ['a'] = some d ∧ g.registry.get? name = none ∧ hasModifiedForm name = true ∧
      segments? name = some ["hover".toList, ['a']] ∧
      Modifier.ofName? "hover".toList = some hover ∧
      ModifierSet.ofList [hover] = .ok { states := [hover] } ∧
      (g.generate [['a']]).map (·.hasErrors) = some false ∧ g.generate [name] = none := by
  intro d g name hover
  refine ⟨?_, ?_, ?_, ?_, ?_, rfl, ?_, ?_⟩
  all_goals decide +kernel

end Generator

end UtilityCss
