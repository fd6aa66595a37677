import UtilityCss.ClassName.Literal
import UtilityCss.Proofs.ClassName.Segment
import UtilityCss.Proofs.Modifier.Sequence

/-!
# The grammar of literal classes

A class name is read as a literal class exactly if it can be put together from modifiers, a known
property and a value, joined by colons, perhaps with an important flag behind them. What it is read
as are the pieces it was put together from.
-/

namespace UtilityCss

open Text ClassName

structure Spelling where
  fronts : List Text
  property : Text
  raw : Text
  isImportant : Bool

namespace Spelling

def body (p : Spelling) : Text :=
  joinSegments (p.fronts ++ [p.property, p.raw])

def value (p : Spelling) : Text :=
  formatValue p.raw p.isImportant

/-- The class name that the pieces make; a flag that it ends in is never part of the value. -/
structure Spells (p : Spelling) (name : Text) : Prop where
  flagged : p.isImportant = true → name = p.body ++ important
  unflagged : p.isImportant = false → name = p.body ∧ ¬ important <:+ name

/-- The pieces are what their places ask for. The property may have the name of a modifier only
where the value is a single segment, since the last two segments are never modifiers. -/
structure IsGrammatical (known : KnownProperties) (ms : List Modifier) (p : Spelling) : Prop where
  modifiers : p.fronts.map Modifier.ofName? = ms.map some
  whole : ∀ front ∈ p.fronts, IsPart front
  isKnown : known.knows p.property = true
  wholeProperty : IsPart p.property
  plain : Modifier.ofName? p.property = none ∨ segments? p.raw = some [p.raw]
  balanced : ∃ values, segments? p.raw = some values
  filled : p.value ≠ [] ∧ p.value ≠ important

end Spelling

namespace Literal

theorem splitImportant_eq_iff {name body : Text} {isImportant : Bool} :
    splitImportant name = (body, isImportant) ↔
      (isImportant = true → name = body ++ important) ∧
        (isImportant = false → name = body ∧ ¬ important <:+ name) := by
  rw [splitImportant]
  split
  next found hfound =>
    rw [before?_eq_some_iff] at hfound
    subst hfound
    cases isImportant <;> simp [eq_comm]
  next hnone =>
    have hsuffix : ¬ important <:+ name := by
      rintro ⟨lead, rfl⟩
      simp [before?_eq_some_iff.mpr rfl] at hnone
    cases isImportant with
    | true =>
        refine iff_of_false (by simp) fun h => hsuffix ?_
        rw [h.1 rfl]
        exact List.suffix_append _ _
    | false => simp [hsuffix]

/-- The flag cuts nothing and leaves nothing open. A backslash at the end of the segment takes its
first character along, which is no matter. -/
theorem segmentsFrom_important {depth : Nat} {quote : Option Char} {t : Text}
    (h : segmentsFrom depth quote t = some [t]) :
    segmentsFrom depth quote (t ++ important) = some [t ++ important] := by
  induction t using pairedInduction generalizing depth quote with
  | nil =>
      obtain ⟨rfl, rfl⟩ := closed_of_segmentsFrom_nil h
      decide +kernel
  | lone =>
      obtain ⟨rfl, rfl⟩ := closed_of_segmentsFrom_nil (segmentsFrom_lone_iff.mp h).1
      decide +kernel
  | pair c t ih =>
      obtain ⟨p, hread, heq⟩ := segmentsFrom_pair_iff.mp h
      obtain rfl : t = p := (List.cons.inj (List.cons.inj heq).2).2
      exact segmentsFrom_pair_iff.mpr ⟨_, ih hread, rfl⟩
  | plain c t hc ih =>
      rcases segmentsFrom_step depth quote hc with hstep | ⟨rfl, rfl, rfl⟩ | ⟨depth', quote', hstep⟩
      · rw [hstep] at h
        cases h
      · cases (segmentsFrom_colon_iff.mp h).1
      · rw [hstep, map_consHead_iff (segmentsFrom_ne_nil _ _ _)] at h
        obtain ⟨p, hread, heq⟩ := h
        obtain rfl : t = p := (List.cons.inj heq).2
        rw [List.cons_append, hstep, ih hread, Option.map_some, consHead]

theorem segments?_append_important {body last : Text} {fronts : List Text}
    (h : segments? body = some (fronts ++ [last])) :
    segments? (body ++ important) = some (fronts ++ [last ++ important]) := by
  obtain ⟨hfronts, raw, rfl, hraw⟩ := (segments?_append_iff (List.cons_ne_nil _ _)).mp h
  obtain rfl := eq_of_segmentsFrom hraw
  exact (segments?_append_iff (List.cons_ne_nil _ _)).mpr
    ⟨hfronts, _, joinSegments_concat_append fronts last important, segmentsFrom_important hraw⟩

variable {left names : List Text} {ms : List Modifier}

/-- Of three or more segments the first names no modifier. -/
def Stops (left : List Text) : Prop :=
  ∀ property value next rest, left = property :: value :: next :: rest →
    Modifier.ofName? property = none

theorem readModifiers_spec (segments : List Text) :
    ∃ names, segments = names ++ (readModifiers segments).2 ∧
      names.map Modifier.ofName? = (readModifiers segments).1.map some ∧
      Stops (readModifiers segments).2 := by
  fun_induction readModifiers segments with
  | case1 name property value rest m hm ms left hread ih =>
      rw [hread] at ih
      obtain ⟨names, hsegments, hnames, hstop⟩ := ih
      exact ⟨name :: names, by rw [hsegments]; rfl, by simp [hm, hnames], hstop⟩
  | case2 name property value rest hm =>
      refine ⟨[], rfl, rfl, ?_⟩
      intro _ _ _ _ h
      rwa [← (List.cons.inj h).1]
  | case3 segments hshort =>
      exact ⟨[], rfl, rfl, fun _ _ _ _ h => absurd h (hshort _ _ _ _)⟩

theorem readModifiers_of_stops (hstop : Stops left) : readModifiers left = ([], left) := by
  match left with
  | [] => rfl
  | [_] => rfl
  | [_, _] => rfl
  | property :: value :: next :: rest =>
      rw [readModifiers, hstop property value next rest rfl]

theorem readModifiers_append (hnames : names.map Modifier.ofName? = ms.map some)
    (hleft : 2 ≤ left.length) (hstop : Stops left) :
    readModifiers (names ++ left) = (ms, left) := by
  induction names generalizing ms with
  | nil =>
      obtain rfl : ms = [] := List.map_eq_nil_iff.mp hnames.symm
      exact readModifiers_of_stops hstop
  | cons name names ih =>
      obtain ⟨m, ms, rfl, hname, hrest⟩ := List.map_eq_cons_iff.mp hnames.symm
      obtain ⟨property, value, rest, hbehind⟩ :
          ∃ property value rest, names ++ left = property :: value :: rest := by
        match h : names ++ left with
        | property :: value :: rest => exact ⟨property, value, rest, rfl⟩
        | [_] | [] =>
            have hlength := congrArg List.length h
            simp only [List.length_append, List.length_cons, List.length_nil] at hlength
            omega
      rw [List.cons_append, hbehind, readModifiers, ← hname, ← hbehind, ih hrest.symm]

variable {known : KnownProperties} {name body property raw : Text} {isImportant : Bool}
  {fronts values : List Text} {l : Literal}

/-- The segments of a text whose pieces are the fronts, a property and a value. -/
theorem segments?_pieces_iff (hvalues : values ≠ []) :
    segments? body = some (fronts ++ property :: values) ↔
      (∀ front ∈ fronts, IsPart front) ∧ IsPart property ∧
        ∃ raw, body = joinSegments (fronts ++ [property, raw]) ∧ segments? raw = some values := by
  have hpieces : fronts ++ property :: values = fronts ++ [property] ++ values := by simp
  rw [hpieces, segments?_append_iff hvalues, List.forall_mem_append, List.forall_mem_singleton,
    and_assoc]
  simp only [List.append_assoc, List.singleton_append]

theorem stops_iff (hraw : segments? raw = some values) :
    Stops (property :: values) ↔
      Modifier.ofName? property = none ∨ segments? raw = some [raw] := by
  constructor
  · intro hstop
    match values with
    | [] => exact absurd hraw (segments?_ne_nil raw)
    | [value] =>
        rw [eq_of_segmentsFrom hraw] at hraw
        exact .inr hraw
    | value :: next :: rest => exact .inl (hstop property value next rest rfl)
  · rintro h _ value next rest hleft
    obtain ⟨rfl, rfl⟩ := List.cons.inj hleft
    exact h.resolve_right fun hsingle => by simp [hraw] at hsingle

/-! ## Reading and writing -/

/-- What an accepted name passes through on its way. -/
theorem parse_eq_ok_iff_read :
    parse known name = .ok l ↔
      ∃ body isImportant segments ms property value values,
        splitImportant name = (body, isImportant) ∧ segments? body = some segments ∧
        readModifiers segments = (ms, property :: value :: values) ∧
        known.knows property = true ∧ ModifierSet.ofList ms = .ok l.modifiers ∧
        l.property = property ∧
        l.value = formatValue (joinSegments (value :: values)) isImportant ∧
        (l.value ≠ [] ∧ l.value ≠ important) ∧
        l.warnings = if hasAmbiguousCalc l.value then [ambiguousCalcWarning name] else [] := by
  constructor
  · intro h
    rw [parse] at h
    split at h
    next body isImportant hsplit =>
    split at h
    · cases h
    next segments hsegments =>
    split at h
    next ms property value values hread =>
      split at h
      · cases h
      next hknown =>
      split at h
      · cases h
      next modifiers hmodifiers =>
      dsimp only at h
      split at h
      · cases h
      next hfilled =>
      obtain rfl := Except.ok.inj h
      simp only [Bool.not_eq_true', Bool.not_eq_false] at hknown
      simp only [Bool.or_eq_true, List.isEmpty_iff, decide_eq_true_eq, not_or] at hfilled
      exact ⟨body, isImportant, segments, ms, property, value, values, hsplit, hsegments, hread,
        hknown, hmodifiers, rfl, rfl, hfilled, rfl⟩
    · cases h
  · rintro ⟨body, isImportant, segments, ms, property, value, values, hsplit, hsegments, hread,
      hknown, hmodifiers, hproperty, hvalue, hfilled, hwarnings⟩
    have hl : l = ⟨l.modifiers, property, l.value,
        if hasAmbiguousCalc l.value then [ambiguousCalcWarning name] else []⟩ := by
      rw [← hproperty, ← hwarnings]
    rw [hl, parse, hsplit]
    simp [hsegments, hread, hknown, hmodifiers, ← hvalue, hfilled]

/-- A literal class is read exactly if pieces that follow the grammar make its name, and those
pieces are what is read. -/
theorem parse_eq_ok_iff (known : KnownProperties) (name : Text) (l : Literal) :
    parse known name = .ok l ↔
      ∃ ms p, Spelling.IsGrammatical known ms p ∧ p.Spells name ∧
        ModifierSet.ofList ms = .ok l.modifiers ∧ l.modifiers.toList = ms ∧
        l.property = p.property ∧ l.value = p.value ∧
        l.warnings = if hasAmbiguousCalc p.value then [ambiguousCalcWarning name] else [] := by
  rw [parse_eq_ok_iff_read]
  constructor
  · rintro ⟨body, isImportant, segments, ms, property, value, values, hsplit, hsegments, hread,
      hknown, hmodifiers, hproperty, hvalue, hfilled, hwarnings⟩
    obtain ⟨fronts, hpieces, hnames, hstop⟩ := readModifiers_spec segments
    rw [hread] at hpieces hnames hstop
    dsimp only at hpieces hnames hstop
    rw [hpieces, segments?_pieces_iff (List.cons_ne_nil _ _)] at hsegments
    obtain ⟨hfronts, hpart, raw, hbody, hraw⟩ := hsegments
    rw [joinSegments_of_segments? hraw] at hvalue
    rw [hvalue] at hfilled hwarnings
    refine ⟨ms, ⟨fronts, property, raw, isImportant⟩,
      ⟨hnames, hfronts, hknown, hpart, (stops_iff hraw).mp hstop, ⟨_, hraw⟩, hfilled⟩, ?_,
      hmodifiers, ModifierSet.toList_ofList hmodifiers, hproperty, hvalue, hwarnings⟩
    rw [splitImportant_eq_iff, hbody] at hsplit
    exact ⟨hsplit.1, hsplit.2⟩
  · rintro ⟨ms, p, hp, hspells, hmodifiers, -, hproperty, hvalue, hwarnings⟩
    obtain ⟨values, hraw⟩ := hp.balanced
    obtain ⟨value, values, rfl⟩ :=
      List.exists_cons_of_ne_nil fun h => segments?_ne_nil p.raw (h ▸ hraw)
    refine ⟨p.body, p.isImportant, p.fronts ++ p.property :: value :: values, ms, p.property,
      value, values, splitImportant_eq_iff.mpr ⟨hspells.flagged, hspells.unflagged⟩, ?_, ?_,
      hp.isKnown, hmodifiers, hproperty, ?_, hvalue ▸ hp.filled, hvalue ▸ hwarnings⟩
    · exact (segments?_pieces_iff (List.cons_ne_nil _ _)).mpr
        ⟨hp.whole, hp.wholeProperty, p.raw, rfl, hraw⟩
    · exact readModifiers_append hp.modifiers (by simp) ((stops_iff hraw).mpr hp.plain)
    · rw [hvalue, Spelling.value, joinSegments_of_segments? hraw]

end Literal

end UtilityCss
