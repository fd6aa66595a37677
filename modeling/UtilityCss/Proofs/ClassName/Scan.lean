import UtilityCss.ClassName.Scan
import UtilityCss.Proofs.ClassName.Segment
import UtilityCss.Proofs.Ruleset.Positions

/-!
# Segments as slices of the name

The cutting by byte positions comes to an end on every name and gives its segments. It takes the
bytes of a character beyond ASCII for what they are not, ordinary characters of their own, but none
of them can cut, so that a slice always begins and ends at an ASCII character or at an end of the
name.
-/

namespace UtilityCss.ClassName

open Text Selector
open Ruleset (byteAt? slice? Holds PassesWideAt size_of_not_isWide holds_self)

variable {name part t : Text} {s : SegmentScan} {i : Nat} {b c : Char} {parts : List Text}

def answer (name : Text) : Option (List Text) → Except LiteralError (List Text)
  | some parts => .ok parts
  | none => .error (.unbalanced name)

theorem appendHead_consHead (lead : Text) (c : Char) (parts : List Text) :
    appendHead lead (consHead c parts) = appendHead (lead ++ [c]) parts := by
  cases parts <;> simp [appendHead, consHead]

theorem appendHead_nil {depth : Nat} {quote : Option Char}
    (h : segmentsFrom depth quote t = some parts) : appendHead [] parts = parts := by
  cases parts with
  | nil => exact absurd h (segmentsFrom_ne_nil depth quote t)
  | cons part parts => rfl

namespace SegmentScan

def IsQuoted (s : SegmentScan) : Prop :=
  ∀ q ∈ s.quote, isQuote q = true

theorem isQuoted_of_none (h : s.quote = none) : s.IsQuoted := by
  intro q hq
  rw [h] at hq
  cases hq

theorem take?_wide (hs : s.IsQuoted) (hb : IsWide b) : s.take? name i b = some (.ok s) := by
  obtain ⟨depth, quote, start, parts⟩ := s
  have hclosing : ¬ (b = ')' ∨ b = ']') := by
    rintro (rfl | rfl) <;> exact absurd hb (by decide)
  have hopening : ¬ (b = '(' ∨ b = '[') := by
    rintro (rfl | rfl) <;> exact absurd hb (by decide)
  have hcolon : ¬ (b = ':' ∧ depth = 0) := fun h => hb.ne (show ':'.toNat < 0x80 by decide) h.1
  cases quote with
  | some q =>
      have hq : b ≠ q := by
        rintro rfl
        exact not_isWide_of_isQuote (hs b rfl) hb
      rw [take?]
      simp only [if_neg hq]
  | none =>
      rw [take?]
      simp only [hb.isQuote_eq, Bool.false_eq_true, if_false, if_neg hopening, if_neg hclosing,
        if_neg hcolon]

/-- Two readings of one character agree: it has no place there, or it cuts, or both keep it and go
on under the same brackets and quote. -/
theorem take?_step (name : Text) (i : Nat) (hs : s.IsQuoted) (hc : c ≠ '\x5c') :
    (s.take? name i c = some (.error (.unbalanced name)) ∧
      ∀ t, segmentsFrom s.depth s.quote (c :: t) = none) ∨
    (c = ':' ∧ s.depth = 0 ∧ s.quote = none ∧ s.take? name i c =
      (slice? name s.start i).map fun part =>
        .ok { s with start := i + 1, parts := s.parts ++ [part] }) ∨
    ∃ depth quote, IsQuoted { s with depth, quote } ∧
      s.take? name i c = some (.ok { s with depth, quote }) ∧
      ∀ t, segmentsFrom s.depth s.quote (c :: t) =
        (segmentsFrom depth quote t).map (consHead c) := by
  obtain ⟨depth, quote, start, parts⟩ := s
  simp only [segmentsFrom_cons hc, take?]
  cases quote with
  | some q =>
      refine .inr (.inr ⟨depth, if c = q then none else some q, ?_, rfl, fun _ => rfl⟩)
      intro x hx
      split at hx
      · cases hx
      · exact hs x hx
  | none =>
      by_cases hquote : isQuote c = true
      · refine .inr (.inr ⟨depth, some c, ?_, by simp [hquote], by simp [hquote]⟩)
        rintro _ ⟨⟩
        exact hquote
      · by_cases hopening : c = '(' ∨ c = '['
        · exact .inr (.inr ⟨depth + 1, none, isQuoted_of_none rfl, by simp [hquote, hopening],
            by simp [hquote, hopening]⟩)
        · by_cases hclosing : c = ')' ∨ c = ']'
          · cases depth with
            | zero =>
                exact .inl ⟨by simp [hquote, hopening, hclosing],
                  by simp [hquote, hopening, hclosing]⟩
            | succ depth =>
                exact .inr (.inr ⟨depth, none, isQuoted_of_none rfl,
                  by simp [hquote, hopening, hclosing], by simp [hquote, hopening, hclosing]⟩)
          · by_cases hcolon : c = ':' ∧ depth = 0
            · obtain ⟨rfl, rfl⟩ := hcolon
              exact .inr (.inl ⟨rfl, rfl, rfl, rfl⟩)
            · exact .inr (.inr ⟨depth, none, isQuoted_of_none rfl,
                by simp [hquote, hopening, hclosing, hcolon],
                by simp [hquote, hopening, hclosing, hcolon]⟩)

end SegmentScan

theorem scanFrom?_end (hi : size name ≤ i) : scanFrom? name s i = s.finish? name := by
  rw [scanFrom?, if_neg (Nat.not_lt_of_le hi)]

theorem scanFrom?_escape (hi : i < size name) (hbyte : byteAt? name i = some '\x5c') :
    scanFrom? name s i = scanFrom? name s (i + 2) := by
  rw [scanFrom?, if_pos hi]
  simp only [hbyte, if_true]

theorem scanFrom?_byte (hi : i < size name) (hbyte : byteAt? name i = some b) (hb : b ≠ '\x5c') :
    scanFrom? name s i =
      match s.take? name i b with
      | none => none
      | some (.error e) => some (.error e)
      | some (.ok next) => scanFrom? name next (i + 1) := by
  rw [scanFrom?, if_pos hi]
  simp only [hbyte]
  exact if_neg hb

theorem passesWideAt_scanFrom? (hs : s.IsQuoted) :
    PassesWideAt name (size name) (scanFrom? name s) := by
  intro i b hi hbyte hwide
  rw [scanFrom?_byte hi hbyte (hwide.ne (by decide)), SegmentScan.take?_wide hs hwide]

theorem finish?_eq (h : Holds name s.start part (size name)) :
    s.finish? name = some (answer name
      ((segmentsFrom s.depth s.quote []).map fun parts => s.parts ++ appendHead part parts)) := by
  have hstart : min s.start (size name) = s.start :=
    Nat.min_eq_left (by rw [h.stop_eq]; exact Nat.le_add_right _ _)
  rw [SegmentScan.finish?, segmentsFrom, hstart, h.slice?_eq]
  by_cases hopen : s.depth = 0 ∧ s.quote = none
  · rw [if_neg (by simp [hopen]), if_pos hopen]
    simp [answer, appendHead]
  · rw [if_pos (by simpa [Decidable.imp_iff_not_or] using hopen), if_neg hopen]
    rfl

/-- What is found behind a position inside a segment, `part` being the text of it so far. -/
theorem scanFrom?_eq (s : SegmentScan) (part : Text) (hs : s.IsQuoted)
    (h : Holds name s.start (part ++ t) (size name)) :
    scanFrom? name s (s.start + size part) = some (answer name
      ((segmentsFrom s.depth s.quote t).map fun parts => s.parts ++ appendHead part parts)) := by
  induction t using pairedInduction generalizing s part with
  | nil =>
      rw [List.append_nil] at h
      rw [scanFrom?_end (Nat.le_of_eq h.stop_eq), finish?_eq h]
  | lone =>
      have hrest := h.behind
      have hstop := hrest.stop_eq
      rw [size_cons, size_nil, size_of_not_isWide (by decide)] at hstop
      rw [scanFrom?_escape hrest.lt (hrest.byteAt?_ascii (by decide)), scanFrom?_end (by omega),
        finish?_eq h]
      change _ =
        some (answer name (((segmentsFrom s.depth s.quote []).map (consHead '\x5c')).map _))
      simp only [Option.map_map, Function.comp_def, appendHead_consHead]
  | pair c t ih =>
      have hrest := h.behind
      have hassoc : part ++ '\x5c' :: c :: t = (part ++ ['\x5c', c]) ++ t := by
        rw [List.append_assoc]
        rfl
      have hone : '\x5c'.utf8Size = 1 := by decide
      have hpast : s.start + size part + 1 + c.utf8Size =
          s.start + size (part ++ ['\x5c', c]) := by
        simp only [size_append, size_cons, size_nil, hone]
        omega
      rw [hassoc] at h
      -- Behind the first byte of `c`, the reading is inside of it.
      have hjump := (passesWideAt_scanFrom? hs).escaped (hrest.tail_ascii (by decide))
      rw [scanFrom?_escape hrest.lt (hrest.byteAt?_ascii (by decide)), hjump, hpast, ih s _ hs h,
        segmentsFrom_pair]
      simp only [Option.map_map, Function.comp_def, appendHead_consHead, List.append_assoc,
        List.cons_append, List.nil_append]
  | plain c t hc ih =>
      have hrest := h.behind
      have hassoc : part ++ c :: t = (part ++ [c]) ++ t := by
        rw [List.append_assoc]
        rfl
      have hpast : s.start + size part + c.utf8Size = s.start + size (part ++ [c]) := by
        rw [size_append, size_cons, size_nil]
        omega
      have hbyte (hascii : ¬ IsWide c) := scanFrom?_byte (s := s) hrest.lt
        (hrest.byteAt?_ascii hascii) hc
      rcases SegmentScan.take?_step name (s.start + size part) hs hc with
        ⟨htake, hstep⟩ | ⟨rfl, hdepth, hquote, htake⟩ | ⟨depth, quote, hnext, htake, hstep⟩
      · have hascii : ¬ IsWide c := fun hwide => by
          rw [SegmentScan.take?_wide hs hwide] at htake
          cases htake
        rw [hbyte hascii, htake, hstep]
        rfl
      · have hcut := hrest.tail_ascii (by decide)
        rw [h.front.slice?_eq] at htake
        have hread := ih { s with start := s.start + size part + 1, parts := s.parts ++ [part] } []
          hs hcut
        simp only [size_nil, Nat.add_zero, hdepth, hquote] at hread
        rw [hbyte (by decide), htake, hdepth, hquote, segmentsFrom_colon]
        refine hread.trans ?_
        rw [segments?]
        cases hsegments : segmentsFrom 0 none t with
        | none => rfl
        | some parts =>
            rw [Option.map_some, Option.map_some, Option.map_some, appendHead_nil hsegments,
              appendHead, List.append_nil, List.append_assoc, List.singleton_append]
      · rw [hassoc] at h
        have hkept : scanFrom? name s (s.start + size part) =
            scanFrom? name { s with depth, quote } (s.start + size (part ++ [c])) := by
          by_cases hwide : IsWide c
          · rw [SegmentScan.take?_wide hs hwide, Option.some.injEq, Except.ok.injEq] at htake
            rw [← htake, ← hpast]
            exact (passesWideAt_scanFrom? hs).char hrest hwide
          · rw [hbyte hwide, htake, ← hpast, size_of_not_isWide hwide]
        rw [hkept, hstep, Option.map_map]
        refine (ih { s with depth, quote } (part ++ [c]) hnext h).trans ?_
        simp only [Function.comp_def, appendHead_consHead]

theorem scan?_eq (name : Text) : scan? name = some (answer name (segments? name)) := by
  have h := scanFrom?_eq {} [] (SegmentScan.isQuoted_of_none rfl) (holds_self name)
  rw [size_nil, Nat.add_zero] at h
  rw [scan?, h, segments?]
  cases hsegments : segmentsFrom 0 none name with
  | none => rfl
  | some parts =>
      rw [Option.map_some, appendHead_nil hsegments, List.nil_append]

/-! ## Cutting and joining -/

/-- Each segment is one by itself, and only the last one can end in a backslash that would take a
colon along. -/
theorem whole_of_segments? (h : segments? t = some parts) :
    (∀ part ∈ parts, segments? part = some [part]) ∧
      ∀ part ∈ parts.dropLast, endsUnpaired part = false := by
  induction parts generalizing t with
  | nil => exact ⟨nofun, nofun⟩
  | cons first parts ih =>
      by_cases hmore : parts = []
      · subst hmore
        rw [← eq_of_segmentsFrom h] at h
        exact ⟨fun part hpart => by rwa [List.mem_singleton.mp hpart], nofun⟩
      · obtain ⟨hfirst, rest, -, hrest⟩ := (segments?_cons_iff hmore).mp h
        obtain ⟨hwhole, hpaired⟩ := ih hrest
        rw [List.dropLast_cons_of_ne_nil hmore]
        exact ⟨List.forall_mem_cons.mpr ⟨hfirst.whole, hwhole⟩,
          List.forall_mem_cons.mpr ⟨hfirst.paired, hpaired⟩⟩

/-- A colon in a segment stands behind a backslash that takes it along, or where a bracket or a
quote is open. -/
theorem open_before_colon (h : segments? part = some [part]) {front behind : Text}
    (hcolon : part = front ++ ':' :: behind) :
    endsUnpaired front = true ∨ segments? front = none := by
  refine Classical.byContradiction fun hneither => ?_
  obtain ⟨hpaired, hread⟩ := not_or.mp hneither
  obtain ⟨fronts, hfronts⟩ := Option.ne_none_iff_exists'.mp hread
  obtain ⟨first, fronts, rfl⟩ :=
    List.exists_cons_of_ne_nil fun hnil => segments?_ne_nil front (hnil ▸ hfronts)
  have hcut := segmentsFrom_append hfronts (Bool.eq_false_iff.mpr hpaired) behind
  rw [← hcolon] at hcut
  obtain ⟨parts, hparts, heq⟩ := Option.map_eq_some_iff.mp (hcut.symm.trans h)
  obtain ⟨-, hnil⟩ := List.cons.inj heq
  exact segments?_ne_nil behind ((List.append_eq_nil_iff.mp hnil).2 ▸ hparts)

theorem segments?_joinSegments (hne : parts ≠ [])
    (hwhole : ∀ part ∈ parts, segments? part = some [part])
    (hpaired : ∀ part ∈ parts.dropLast, endsUnpaired part = false) :
    segments? (joinSegments parts) = some parts := by
  obtain ⟨fronts, last, rfl⟩ : ∃ fronts last, parts = fronts ++ [last] :=
    ⟨_, _, (List.dropLast_concat_getLast hne).symm⟩
  rw [List.dropLast_concat] at hpaired
  refine (segments?_append_iff (List.cons_ne_nil _ _)).mpr ⟨fun front hfront => ?_, last, rfl, ?_⟩
  · exact ⟨hwhole front (List.mem_append_left _ hfront), hpaired front hfront⟩
  · exact hwhole last (List.mem_append_right _ (List.mem_singleton_self last))

/-- Cutting a name, which never asks for a slice that is not there, is the inverse of joining by
colons: the segments are the only texts, each of them one segment and none but the last ending in
an unpaired backslash, that give the name when they are joined. No colon that cuts is left in one
of them. -/
theorem segments?_eq_some_iff (name : Text) (parts : List Text) :
    scan? name = some (answer name (segments? name)) ∧
      (segments? name = some parts ↔
        parts ≠ [] ∧ (∀ part ∈ parts, segments? part = some [part]) ∧
          (∀ part ∈ parts.dropLast, endsUnpaired part = false) ∧ joinSegments parts = name) ∧
      (segments? name = some parts →
        ∀ part ∈ parts, ∀ front behind, part = front ++ ':' :: behind →
          endsUnpaired front = true ∨ segments? front = none) := by
  refine ⟨scan?_eq name, ⟨fun h => ?_, ?_⟩, fun h part hpart front behind hcolon => ?_⟩
  · obtain ⟨hwhole, hpaired⟩ := whole_of_segments? h
    have hne : parts ≠ [] := fun hnil => segments?_ne_nil name (hnil ▸ h)
    exact ⟨hne, hwhole, hpaired, joinSegments_of_segments? h⟩
  · rintro ⟨hne, hwhole, hpaired, rfl⟩
    exact segments?_joinSegments hne hwhole hpaired
  · exact open_before_colon ((whole_of_segments? h).1 part hpart) hcolon

theorem segments?_eq_some_iff_escaped :
    let name := "a\x5cé:b(c:d):\x22x:y\x22:\x5c".toList
    let parts := ["a\x5cé", "b(c:d)", "\x22x:y\x22", "\x5c"].map String.toList
    scan? name = some (.ok parts) ∧ joinSegments parts = name ∧ segments? name = some parts ∧
      (endsUnpaired "b(c".toList = true ∨ segments? "b(c".toList = none) := by
  intro name parts
  have hread : segments? name = some parts := by decide +kernel
  obtain ⟨hscan, hiff, hopen⟩ := segments?_eq_some_iff name parts
  rw [hread] at hscan
  exact ⟨hscan, (hiff.mp hread).2.2.2, hread,
    hopen hread "b(c:d)".toList (by decide) "b(c".toList "d)".toList (by decide)⟩

end UtilityCss.ClassName
