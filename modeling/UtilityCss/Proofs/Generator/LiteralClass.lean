import UtilityCss.Generator.LiteralClass
import UtilityCss.Proofs.ClassName.Literal
import UtilityCss.Proofs.Generator.StyleRule

/-!
# Which literal classes keep to themselves

The text of a literal class copies the value, and the arguments of modifiers, out of the class name
as they are; only the selector is escaped. So a class keeps to itself exactly if these parts fit
their places.
-/

namespace UtilityCss

open Text Css ClassName Ruleset Selector

theorem oneLine_of_solid {t : Text} (h : ∀ c ∈ t, isBlank c = false) : OneLine t := by
  intro c hc hblank
  rw [h c hc] at hblank
  cases hblank

theorem oneLine_spacedFrom {quote : Option Char} {t : Text} (h : OneLine t) :
    OneLine (spacedFrom quote t) := by
  fun_induction spacedFrom quote t with
  | case1 => exact .nil
  | case2 => exact h
  | case3 quote c rest ih =>
      obtain ⟨hslash, hpair⟩ := oneLine_cons.mp h
      exact oneLine_cons.mpr ⟨hslash, oneLine_cons.mpr ((oneLine_cons.mp hpair).imp_right ih)⟩
  | case4 _ _ _ _ _ ih => exact oneLine_cons.mpr ((oneLine_cons.mp h).imp_right ih)
  | case5 _ _ _ _ _ ih => exact oneLine_cons.mpr ((oneLine_cons.mp h).imp_right ih)
  | case6 _ _ _ _ ih => exact oneLine_cons.mpr ⟨fun _ => rfl, ih (oneLine_cons.mp h).2⟩
  | case7 _ _ _ _ _ _ ih => exact oneLine_cons.mpr ((oneLine_cons.mp h).imp_right ih)

theorem oneLine_formatValue {raw : Text} (h : OneLine raw) (isImportant : Bool) :
    OneLine (formatValue raw isImportant) := by
  have hvalue : OneLine (trim (spaced raw)) := (oneLine_spacedFrom h).of_subset (trim_subset _)
  unfold formatValue
  dsimp only
  split
  · split
    · decide
    · exact hvalue.append (by decide)
  · exact hvalue

structure IsDeclarationLine (t : Text) : Prop where
  line : OneLine t
  begins : BeginsSolid t
  ends : EndsFirm t

theorem IsDeclarationLine.trim_eq {t : Text} (h : IsDeclarationLine t) : trim t = t :=
  trim_of_solid h.begins h.ends.endsSolid

namespace Literal

variable {known : KnownProperties} {name : Text} {l : Literal}

/-- What a literal is made of stands in its class name. -/
theorem subset_of_parse (h : parse known name = .ok l) :
    (∀ m ∈ l.modifiers.toList, ∃ front, front ⊆ name ∧ Modifier.ofName? front = some m) ∧
      l.property ⊆ name ∧
      ∃ raw isImportant, raw ⊆ name ∧ l.value = formatValue raw isImportant := by
  obtain ⟨body, isImportant, segments, ms, property, value, values, hsplit, hsegments, hread, -,
    hmodifiers, hproperty, hvalue, -⟩ := parse_eq_ok_iff_read.mp h
  have hbody : body ⊆ name := by
    rw [splitImportant_eq_iff] at hsplit
    cases isImportant with
    | true =>
        rw [hsplit.1 rfl]
        exact List.subset_append_left _ _
    | false =>
        rw [(hsplit.2 rfl).1]
        exact List.Subset.refl _
  obtain ⟨fronts, hpieces, hnames, -⟩ := readModifiers_spec segments
  rw [hread] at hpieces hnames
  rw [hpieces, segments?_pieces_iff (List.cons_ne_nil _ _)] at hsegments
  obtain ⟨-, -, raw, hjoined, hraw⟩ := hsegments
  have hpiece {t : Text} (ht : t ∈ fronts ++ [property, raw]) : t ⊆ name := by
    refine List.Subset.trans ?_ hbody
    rw [hjoined]
    exact subset_joinSegments ht
  refine ⟨fun m hm => ?_, ?_, raw, isImportant, hpiece (by simp), ?_⟩
  · rw [ModifierSet.toList_ofList hmodifiers] at hm
    have hsome : some m ∈ fronts.map Modifier.ofName? := by
      rw [hnames]
      exact List.mem_map_of_mem hm
    obtain ⟨front, hfront, hfound⟩ := List.mem_map.mp hsome
    exact ⟨front, hpiece (List.mem_append_left _ hfront), hfound⟩
  · rw [hproperty]
    exact hpiece (by simp)
  · rw [hvalue, joinSegments_of_segments? hraw]

theorem isSorted_of_parse (h : parse known name = .ok l) : l.modifiers.IsSorted := by
  obtain ⟨_, _, _, _, _, _, _, _, _, _, _, hmodifiers, _⟩ := parse_eq_ok_iff_read.mp h
  exact ModifierSet.isSorted_ofList hmodifiers

theorem isShaped_of_parse (hname : OneLine name) (h : parse known name = .ok l) :
    ∀ m ∈ l.modifiers.toList, m.IsShaped := by
  intro m hm
  obtain ⟨front, hfront, hfound⟩ := (subset_of_parse h).1 m hm
  exact Modifier.isShaped_ofName? (hname.of_subset hfront) hfound

theorem isDeclarationLine_of_parse (hname : ∀ c ∈ name, isBlank c = false)
    (h : parse known name = .ok l) : IsDeclarationLine l.declaration := by
  have hline : OneLine name := oneLine_of_solid hname
  obtain ⟨-, hproperty, raw, isImportant, hraw, hvalue⟩ := subset_of_parse h
  refine ⟨?_, ?_, ⟨_, ';', rfl, by decide, by decide⟩⟩
  · have hfront : OneLine (l.property ++ ": ".toList) :=
      (hline.of_subset hproperty).append (by decide)
    have hformat := oneLine_formatValue (hline.of_subset hraw) isImportant
    rw [declaration, hvalue]
    exact (hfront.append hformat).append (by decide)
  · rw [declaration]
    cases hp : l.property with
    | nil => exact ⟨':', _, rfl, by decide⟩
    | cons c rest =>
        rw [hp] at hproperty
        exact ⟨c, _, rfl, hname c (hproperty List.mem_cons_self)⟩

end Literal

variable {name S D ws ws' : Text} {p : Placement}

theorem Modifier.IsTail.getLast?_ne (hS : IsTail S) : S.getLast? ≠ some '\x5c' := by
  rcases hS.ends with rfl | hends
  · exact nofun
  · exact hends.getLast?_ne

theorem Modifier.IsTail.head?_space_ne (hS : IsTail S) : (S ++ [' ']).head? ≠ some '*' := by
  cases S with
  | nil => decide
  | cons c S =>
      rw [List.cons_append, List.head?_cons, hS.starts c rfl]
      decide

/-- Of a selector only what modifiers put behind the class is in question. -/
theorem fitsPrelude_selector_iff (hS : Modifier.IsTail S) :
    FitsPrelude (classSelector name ++ S ++ [' ']) ↔ FitsPrelude S := by
  rw [List.append_assoc,
    fitsPrelude_append (steady_classSelector name).fitsPrelude hS.head?_space_ne,
    fitsPrelude_append_space hS.getLast?_ne]

theorem fitsBody_selector_iff (hS : Modifier.IsTail S) :
    FitsBody (classSelector name ++ S ++ [' ']) ↔ FitsBody S := by
  rw [List.append_assoc, fitsBody_append (steady_classSelector name).fitsBody hS.head?_space_ne,
    fitsBody_append_blanks (by simp [isAsciiBlank]) hS.getLast?_ne]

theorem fitsBody_padded_iff (hblank : ∀ c ∈ ws ++ ws', isAsciiBlank c = true)
    (hD : IsDeclarationLine D) : FitsBody (ws ++ (D ++ ws')) ↔ FitsBody D := by
  obtain ⟨hws, hws'⟩ := List.forall_mem_append.mp hblank
  rw [fitsBody_blanks_append hws, fitsBody_append_blanks hws' hD.ends.getLast?_ne]

/-- Blanks around the parts only move the body. -/
theorem ruleAt_padded (atRules : List Text) (start : Nat) (header : Text)
    (hblank : ∀ c ∈ ws ++ ws', isAsciiBlank c = true) (hD : IsDeclarationLine D) :
    ruleAt atRules start (header ++ [' ']) (ws ++ (D ++ ws')) =
      { selector := trimEnd header, declarations := D,
        selectorSpan := ⟨start, start + size (trimEnd header)⟩,
        bodySpan := ⟨start + size header + 2,
          start + size header + 2 + size D + (size ws + size ws')⟩,
        atRules } := by
  have hheader : trimEnd (header ++ [' ']) = trimEnd header :=
    trimEnd_append_blanks (by simp [isBlank]) header
  have hbody : trim (ws ++ (D ++ ws')) = D := by
    rw [trim_padded fun c hc => isBlank_of_isAsciiBlank (hblank c hc), hD.trim_eq]
  have hspace : start + size (header ++ [' ']) + 1 = start + size header + 2 := by
    rw [size_append]
    rfl
  have hsize : size (ws ++ (D ++ ws')) = size D + (size ws + size ws') := by
    simp only [size_append]
    omega
  simp only [ruleAt, hheader, hbody, hspace, hsize, Nat.add_assoc]

/-! ## The rule of a class -/

def ownRule (name : Text) (p : Placement) (declarations : Text) : Rule :=
  let header := classSelector name ++ p.suffix
  let start := (p.media.map fun m => size m + 5).getD 0
  let bodyStart := start + size header + 2
  { selector := trimEnd header, declarations,
    selectorSpan := ⟨start, start + size (trimEnd header)⟩,
    bodySpan := ⟨bodyStart, bodyStart + size declarations + 4 * (p.headers.length + 1)⟩,
    atRules := p.headers }

/-- The parts that are copied into a rule fit their places. In a media block the suffix of the
selector is read twice, the first time as a part of the body of the block. -/
structure IsContained (p : Placement) (declarations : Text) : Prop where
  suffix : FitsPrelude p.suffix
  body : FitsBody declarations
  media : ∀ m ∈ p.media, FitsPrelude m ∧ FitsBody p.suffix

theorem isContained_iff :
    IsContained p D ↔ FitsPrelude p.suffix ∧ FitsBody D ∧
      ∀ m ∈ p.media, FitsPrelude m ∧ FitsBody p.suffix :=
  ⟨fun h => ⟨h.suffix, h.body, h.media⟩, fun ⟨hsuffix, hbody, hmedia⟩ => ⟨hsuffix, hbody, hmedia⟩⟩

instance (p : Placement) (declarations : Text) : Decidable (IsContained p declarations) :=
  decidable_of_iff _ isContained_iff.symm

/-- Without blocks around it a rule keeps to itself exactly if its parts fit. -/
theorem selfContained_bare_iff (hheaders : p.headers = []) (hS : Modifier.IsTail p.suffix)
    (hD : IsDeclarationLine D) :
    SelfContained (styleRule name p D) (ownRule name p D) ↔ FitsPrelude p.suffix ∧ FitsBody D := by
  have hmedia : p.media = none := by
    simpa using (List.append_eq_nil_iff.mp hheaders).1
  have hsolid := hD.ends.endsSolid
  have hblank : ∀ c ∈ ['\n', ' ', ' '] ++ ['\n'], isAsciiBlank c = true := by
    simp [isAsciiBlank]
  have hcss : styleRule name p D = classSelector name ++ p.suffix ++ [' '] ++
      '\x7b' :: (['\n', ' ', ' '] ++ (D ++ ['\n']) ++ ['\x7d']) := by
    rw [styleRule_bare hheaders, hsolid.trimEnd_eq, indent_line hD.line hsolid]
    rfl
  have hrule : ownRule name p D = ruleAt [] 0 (classSelector name ++ p.suffix ++ [' '])
      (['\n', ' ', ' '] ++ (D ++ ['\n'])) := by
    rw [ruleAt_padded [] 0 _ hblank hD, ownRule, hheaders, hmedia]
    rfl
  rw [hcss, hrule, selfContained_rule_iff (c := '.') rfl (by decide) (by decide),
    fitsPrelude_selector_iff hS, fitsBody_padded_iff hblank hD]

/-- In a media block the media query has to fit too, and the suffix as a part of a body. -/
theorem selfContained_underMedia_iff {m : Text} (hmedia : p.media = some m)
    (hheaders : p.headers = [m]) (hquery : "@media ".toList <+: m) (hends : EndsFirm m)
    (hS : Modifier.IsTail p.suffix) (hD : IsDeclarationLine D) :
    SelfContained (styleRule name p D) (ownRule name p D) ↔
      FitsPrelude p.suffix ∧ FitsBody D ∧ FitsPrelude m ∧ FitsBody p.suffix := by
  have hsolid := hD.ends.endsSolid
  have hdeep : OneLine (' ' :: ' ' :: D) := .append (s := [' ', ' ']) (by decide) hD.line
  have hblank : ∀ c ∈ ['\n', ' ', ' ', ' ', ' '] ++ ['\n', ' ', ' '], isAsciiBlank c = true := by
    simp [isAsciiBlank]
  have hcss : styleRule name p D = m ++ [' '] ++ '\x7b' ::
      (innerText (classSelector name ++ p.suffix ++ [' '])
        (['\n', ' ', ' ', ' ', ' '] ++ (D ++ ['\n', ' ', ' '])) ++ ['\x7d']) := by
    rw [styleRule_underMedia hheaders hS.line.not_mem_feed, hsolid.trimEnd_eq,
      indent_line hD.line hsolid, indent_line hdeep (hsolid.append [' ', ' '])]
    rfl
  have hrule : ownRule name p D = ruleAt [m] (size m + 5)
      (classSelector name ++ p.suffix ++ [' '])
      (['\n', ' ', ' ', ' ', ' '] ++ (D ++ ['\n', ' ', ' '])) := by
    rw [ruleAt_padded [m] _ _ hblank hD, ownRule, hheaders, hmedia]
    rfl
  rw [hcss, hrule,
    selfContained_media_iff (c := '.') rfl (by decide) (by decide) hquery hends.endsSolid,
    fitsPrelude_append_space hends.getLast?_ne, fitsPrelude_selector_iff hS,
    fitsBody_selector_iff hS, fitsBody_padded_iff hblank hD]

theorem selfContained_styleRule_iff (hancestor : p.ancestor = none)
    (hmedia : ∀ m ∈ p.media, "@media ".toList <+: m ∧ EndsFirm m)
    (hS : Modifier.IsTail p.suffix) (hD : IsDeclarationLine D) :
    SelfContained (styleRule name p D) (ownRule name p D) ↔ IsContained p D := by
  rw [isContained_iff]
  cases hm : p.media with
  | none =>
      have hheaders : p.headers = [] := by rw [Placement.headers, hm, hancestor]; rfl
      rw [selfContained_bare_iff hheaders hS hD]
      simp
  | some m =>
      have hheaders : p.headers = [m] := by rw [Placement.headers, hm, hancestor]; rfl
      obtain ⟨hquery, hends⟩ := hmedia m hm
      rw [selfContained_underMedia_iff hm hheaders hquery hends hS hD]
      simp

/-! ## Literal classes -/

namespace Interpreter

variable {context : Context} {css : Text} {l : Literal}

theorem css_interpretLiteral (hcss : (interpretLiteral context name).css = some css)
    (hl : Literal.parse context.known name = .ok l) :
    css = styleRule name l.modifiers.placement l.declaration := by
  rw [interpretLiteral] at hcss
  split at hcss
  · cases hcss
  · rw [hl] at hcss
    exact (Option.some.inj hcss).symm

/-- A literal class without an ancestor is read in front of any style sheet as its own rule, and
the style sheet as it is without the class, exactly if what is copied out of its name fits. -/
theorem literalClass_selfContained_iff (haccepts : literalClass.accepts name = true)
    {ds : List Diagnostic} (hsaid : literalClass.interpret context name = some ⟨some css, ds⟩)
    (hl : Literal.parse context.known name = .ok l) (hancestor : l.modifiers.ancestor = none) :
    SelfContained css (ownRule name l.modifiers.placement l.declaration) ↔
      IsContained l.modifiers.placement l.declaration := by
  have hsolid : ∀ c ∈ name, isBlank c = false := by
    have hform := (Bool.and_eq_true_iff.mp haccepts).1
    simpa using hform
  have hsorted := Literal.isSorted_of_parse hl
  have hshaped := Literal.isShaped_of_parse (oneLine_of_solid hsolid) hl
  have hcss : (interpretLiteral context name).css = some css :=
    congrArg Interpretation.css (Option.some.inj hsaid)
  rw [css_interpretLiteral hcss hl]
  refine selfContained_styleRule_iff ?_ ?_ (hsorted.isTail hshaped)
    (Literal.isDeclarationLine_of_parse hsolid hl)
  · rw [ModifierSet.placement, hancestor]
    rfl
  · intro m hm
    obtain ⟨modifier, hmodifier, rfl⟩ := Option.map_eq_some_iff.mp hm
    have hmember : modifier ∈ l.modifiers.toList := by
      simp [ModifierSet.toList, hmodifier]
    have hshape := hshaped modifier hmember
    exact ⟨hshape.media (hsorted.media modifier hmodifier), hshape.ends⟩

theorem literalClass_selfContained_iff_mediaHover :
    let context : Context := {
      registry := .empty, known := .ofNames ["color".toList], config := {}, isExplicit := true }
    let name := "md:hover:color:red".toList
    let l : Literal := {
      modifiers := {
        media := some ⟨.media, "md".toList, "@media (width >= 48rem)".toList⟩,
        states := [⟨.state, "hover".toList, ":hover".toList⟩] },
      property := "color".toList, value := "red".toList, warnings := [] }
    let css := styleRule name l.modifiers.placement l.declaration
    literalClass.accepts name = true ∧ literalClass.interpret context name = some ⟨some css, []⟩ ∧
      Literal.parse context.known name = .ok l ∧
      SelfContained css (ownRule name l.modifiers.placement l.declaration) := by
  intro context name l css
  have haccepts : literalClass.accepts name = true := by decide +kernel
  have hcss : literalClass.interpret context name = some ⟨some css, []⟩ := by rfl
  have hl : Literal.parse context.known name = .ok l := rfl
  have hcontained : IsContained l.modifiers.placement l.declaration := by decide +kernel
  exact ⟨haccepts, hcss, hl, (literalClass_selfContained_iff haccepts hcss hl rfl).mpr hcontained⟩

/-- A value may close the block it stands in and open another. -/
theorem literalClass_not_selfContained_braces :
    let context : Context := {
      registry := .empty, known := .ofNames ["color".toList], config := {}, isExplicit := true }
    let name := "color:red".toList ++ ['\x7d', 'b', '\x7b'] ++ "c:d".toList
    let l : Literal := {
      modifiers := {}, property := "color".toList,
      value := "red".toList ++ ['\x7d', 'b', '\x7b'] ++ "c:d".toList, warnings := [] }
    let css := styleRule name l.modifiers.placement l.declaration
    literalClass.accepts name = true ∧ literalClass.interpret context name = some ⟨some css, []⟩ ∧
      Literal.parse context.known name = .ok l ∧
      (parse css).rules.map (·.declarations) = ["color: red".toList, "c:d;".toList] ∧
      ¬ SelfContained css (ownRule name l.modifiers.placement l.declaration) := by
  intro context name l css
  have haccepts : literalClass.accepts name = true := by decide +kernel
  have hcss : literalClass.interpret context name = some ⟨some css, []⟩ := by rfl
  have hread : (parse css).rules.map (·.declarations) =
      ["color: red".toList, "c:d;".toList] := by decide +kernel
  refine ⟨haccepts, hcss, rfl, hread, fun h => ?_⟩
  have hown : (parse (css ++ ['\n', '\n'] ++ [])).rules ≠
      ownRule name l.modifiers.placement l.declaration ::
        (parse []).rules.map (Rule.shift (size css + 2)) := by
    decide +kernel
  exact hown (h [])

end Interpreter

end UtilityCss
