import UtilityCss.Generator.Interpreter
import UtilityCss.Proofs.Css.Bland
import UtilityCss.Proofs.Modifier.Table
import UtilityCss.Proofs.Ruleset.Contained
import UtilityCss.Proofs.Selector.Suffix

/-!
# The rule of a class, read back

Whatever characters a class name has, its rule is read back as it was put together: the name is
escaped, the modifiers of the table fit their places, and bland declarations stay bland when they
are indented.
-/

namespace UtilityCss

open Text Css Ruleset Selector

variable {name D M : Text} {p : Placement} {s : ModifierSet}

/-- Steady text leaves no bracket open, and no brace. -/
theorem Selector.Steady.scans {t : Text} (h : Steady t) : Scans 0 t 0 := by
  have hscans := h 0 [] 0 .nil
  rwa [List.append_nil] at hscans

theorem Selector.Steady.fitsPrelude {t : Text} (h : Steady t) : FitsPrelude t :=
  fitsPrelude_iff.mpr ⟨h.scans.whole.stands, passed_of_preludeDepth? h.scans.preludeDepth?_eq⟩

theorem Selector.Steady.fitsBody {t : Text} (h : Steady t) : FitsBody t :=
  fitsBody_of_whole h.scans.whole

theorem steady_classSelector (name : Text) : Steady (classSelector name) :=
  Steady.append (s := ['.']) (.char (by decide)) (steady_escape name)

/-- The selector of a class under modifiers of the table changes no brackets. -/
theorem steady_selector (name : Text) {suffix : Text} (hsuffix : IsSuffix suffix) :
    Steady (classSelector name ++ suffix ++ [' ']) :=
  ((steady_classSelector name).append hsuffix.steady).append (.char (by decide))

theorem Modifier.fitsPrelude_of_fixed {m : Modifier} (h : m ∈ fixed) (hkind : m.kind = .media) :
    FitsPrelude m.css := by
  have htable : ∀ m ∈ fixed, m.kind = .media → FitsPrelude m.css := by
    decide +kernel
  exact htable m h hkind

theorem ModifierSet.IsSorted.isSuffix (hsorted : s.IsSorted)
    (htable : ∀ m ∈ s.toList, m ∈ Modifier.fixed) : IsSuffix s.placement.suffix := by
  have hstates : ∀ m ∈ s.states, m ∈ Modifier.states := fun m hm =>
    (Modifier.mem_of_fixed (htable m (by simp [toList, hm]))).1 (hsorted.states m hm)
  have helement : ∀ m ∈ s.pseudoElement, m ∈ Modifier.pseudoElements := fun m hm =>
    (Modifier.mem_of_fixed (htable m (by simp [toList, Option.mem_def.mp hm]))).2
      (hsorted.pseudoElement m hm)
  exact (isSuffix_states hstates).append (isSuffix_of_element helement)

theorem not_mem_classSelector (name : Text) : '\n' ∉ classSelector name := by
  have hplain (c : Char) (hc : isPlain c = true) : c ≠ '\n' := by
    rintro rfl
    exact absurd hc (by decide)
  have hescape : ∀ c ∈ escape name, c ≠ '\n' := by
    refine forall_mem_escape hplain (by decide) (by decide) fun c _ hc => ?_
    rintro rfl
    exact absurd hc (by decide)
  exact fun hmem => (List.mem_cons.mp hmem).elim (by decide) fun hmem => hescape '\n' hmem rfl

/-- Outside blocks, the body of a rule is indented once. -/
theorem styleRule_bare (hheaders : p.headers = []) :
    styleRule name p D = classSelector name ++ p.suffix ++ [' '] ++
      '\x7b' :: (['\n'] ++ (indent (trimEnd D) ++ ['\n']) ++ ['\x7d']) := by
  rw [styleRule, hheaders, blocks, List.foldr_nil, block]
  simp

/-- In a media block it is indented twice. -/
theorem styleRule_underMedia (hheaders : p.headers = [M]) (hsuffix : '\n' ∉ p.suffix) :
    styleRule name p D = M ++ [' '] ++
      '\x7b' :: (innerText (classSelector name ++ p.suffix ++ [' '])
        (['\n'] ++ (indent (indent (trimEnd D)) ++ ['\n', ' ', ' '])) ++ ['\x7d']) := by
  have hheader : '\n' ∉ classSelector name ++ p.suffix := by
    rw [List.mem_append, not_or]
    exact ⟨not_mem_classSelector name, hsuffix⟩
  rw [styleRule, hheaders, blocks, List.foldr_cons, List.foldr_nil, block_block hheader]
  simp [innerText]

/-! ## The rule that is read -/

/-- A rule whose body stands between blanks, with its parts as they were put in. -/
theorem ruleAt_indented (atRules : List Text) (start : Nat) (header : Text) {ws ws' t : Text}
    (hblank : ∀ c ∈ ws ++ ws', isAsciiBlank c = true)
    (ht : (lines (trim t)).map trim = (lines (trim D)).map trim) :
    let r := ruleAt atRules start (header ++ [' ']) (ws ++ (t ++ ws'))
    r.selector = trimEnd header ∧ r.atRules = atRules ∧
      (lines r.declarations).map trim = (lines (trim D)).map trim := by
  refine ⟨trimEnd_append_blanks (by simp [isBlank]) header, rfl, ?_⟩
  rw [ruleAt, trim_padded fun c hc => isBlank_of_isAsciiBlank (hblank c hc), ht]

theorem parse_styleRule_bare (hheaders : p.headers = []) (hsuffix : IsSuffix p.suffix)
    (hbland : IsBland D) :
    ∃ r, Ruleset.parse (styleRule name p D) = { rules := [r], leadingComments := [] } ∧
      r.selector = trimEnd (classSelector name ++ p.suffix) ∧ r.atRules = [] ∧
      (lines r.declarations).map trim = (lines (trim D)).map trim := by
  have hselector := steady_selector name hsuffix
  have hblank : ∀ c ∈ ['\n'] ++ ['\n'], isAsciiBlank c = true := by simp [isAsciiBlank]
  have hlines : (lines (trim (indent (trimEnd D)))).map trim = (lines (trim D)).map trim := by
    rw [map_trim_lines_indent (trimEnd_eq_nil_or D), trim_trimEnd]
  have hbody := (hbland.trimEnd.indent.padded hblank).whole
  rw [styleRule_bare hheaders]
  exact ⟨_, parse_rule (c := '.') rfl (by decide) (by decide) hselector.fitsPrelude
    (fitsBody_of_whole hbody), ruleAt_indented [] 0 _ hblank hlines⟩

theorem parse_styleRule_underMedia (hheaders : p.headers = [M]) (hsuffix : IsSuffix p.suffix)
    (hquery : "@media ".toList <+: M) (hends : EndsFirm M) (hfits : FitsPrelude M)
    (hbland : IsBland D) :
    ∃ r, Ruleset.parse (styleRule name p D) = { rules := [r], leadingComments := [] } ∧
      r.selector = trimEnd (classSelector name ++ p.suffix) ∧ r.atRules = [M] ∧
      (lines r.declarations).map trim = (lines (trim D)).map trim := by
  have hselector := steady_selector name hsuffix
  have hblank : ∀ c ∈ ['\n'] ++ ['\n', ' ', ' '], isAsciiBlank c = true := by simp [isAsciiBlank]
  have hlines : (lines (trim (indent (indent (trimEnd D))))).map trim =
      (lines (trim D)).map trim := by
    have hsolid := trimEnd_eq_nil_or D
    rw [map_trim_lines_indent (indent_eq_nil_or hsolid), map_trim_lines_indent hsolid, trim_trimEnd]
  have hbody := (hbland.trimEnd.indent.indent.padded hblank).whole
  have hfeed : '\n' ∉ p.suffix := fun hmem => absurd (hsuffix.chars '\n' hmem) (by decide)
  rw [styleRule_underMedia hheaders hfeed]
  exact ⟨_, parse_media_rule (c := '.') rfl (by decide) (by decide) hquery hends.endsSolid
    hselector.fitsPrelude (fitsBody_of_whole hbody)
    ((fitsPrelude_append_space hends.getLast?_ne).mpr hfits) hselector.fitsBody,
    ruleAt_indented [M] (size M + 5) _ hblank hlines⟩

/-- A class name with any characters, under modifiers of the table and no ancestor, and bland
declarations: the text of the rule is read as one rule, with the selector and the media query that
were put in, and with the declarations line by line, up to blanks. -/
theorem parse_styleRule (name : Text) (hsorted : s.IsSorted)
    (htable : ∀ m ∈ s.toList, m ∈ Modifier.fixed) (hancestor : s.ancestor = none)
    {declarations : Text} (hbland : IsBland declarations) :
    ∃ r, Ruleset.parse (styleRule name s.placement declarations) =
        { rules := [r], leadingComments := [] } ∧
      r.selector = trimEnd (classSelector name ++ s.placement.suffix) ∧
      r.atRules = s.placement.media.toList ∧
      (lines r.declarations).map trim = (lines (trim declarations)).map trim := by
  have hsuffix := hsorted.isSuffix htable
  have hheaders : s.placement.headers = s.placement.media.toList := by
    simp [Placement.headers, ModifierSet.placement, hancestor]
  cases hmedia : s.media with
  | none =>
      have hnone : s.placement.media.toList = [] := by simp [ModifierSet.placement, hmedia]
      rw [hnone] at hheaders ⊢
      exact parse_styleRule_bare hheaders hsuffix hbland
  | some m =>
      have hsome : s.placement.media.toList = [m.css] := by simp [ModifierSet.placement, hmedia]
      have hmember := htable m (by simp [ModifierSet.toList, hmedia])
      have hkind := hsorted.media m hmedia
      have hshape := Modifier.isShaped_fixed hmember
      rw [hsome] at hheaders ⊢
      exact parse_styleRule_underMedia hheaders hsuffix (hshape.media hkind) hshape.ends
        (Modifier.fitsPrelude_of_fixed hmember hkind) hbland

theorem parse_styleRule_hostile :
    let name : Text := ['0', '\n', '\x22', '\x7b', ';', '/', '*', 'é', '\x7d']
    let s : ModifierSet := {
      media := some ⟨.media, "md".toList, "@media (width >= 48rem)".toList⟩,
      states := [⟨.state, "hover".toList, ":hover".toList⟩],
      pseudoElement := some ⟨.pseudoElement, "after".toList, "::after".toList⟩ }
    let declarations := "color: red;\r\n\n  margin: 0; ".toList
    let selector :=
      ".\x5c30 \x5ca \x5c\x22\x5c\x7b\x5c;\x5c/\x5c*\x5cé\x5c\x7d:hover::after".toList
    s.IsSorted ∧ (∀ m ∈ s.toList, m ∈ Modifier.fixed) ∧ s.ancestor = none ∧
      IsBland declarations ∧
      ∃ r, Ruleset.parse (styleRule name s.placement declarations) =
          { rules := [r], leadingComments := [] } ∧
        r.selector = selector ∧
        r.atRules = ["@media (width >= 48rem)".toList] ∧
        (lines r.declarations).map trim = ["color: red;".toList, [], "margin: 0;".toList] := by
  intro name s declarations selector
  have hsorted : s.IsSorted := by constructor <;> simp [s]
  have htable : ∀ m ∈ s.toList, m ∈ Modifier.fixed := by decide +kernel
  have hbare : declarations.all isBare = true := by decide +kernel
  have hslash : '/' ∉ declarations := by decide +kernel
  have hbland : IsBland declarations :=
    ⟨List.all_eq_true.mp hbare, fun hin => hslash (hin.subset List.mem_cons_self)⟩
  have hselector : trimEnd (classSelector name ++ s.placement.suffix) = selector := by
    decide +kernel
  have hdeclarations : (lines (trim declarations)).map trim =
      ["color: red;".toList, [], "margin: 0;".toList] := by decide +kernel
  obtain ⟨r, hparse, hr⟩ := parse_styleRule name hsorted htable rfl hbland
  rw [hselector, hdeclarations] at hr
  exact ⟨hsorted, htable, rfl, hbland, r, hparse, hr⟩

end UtilityCss
