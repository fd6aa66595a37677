import UtilityCss.ClassName.Segment

/-!
# Segments and joined texts

To cut a class name into segments undoes joining them by colons. In front of a colon stands a text
that is one segment by itself and does not end in a backslash that would take the colon along.
-/

namespace UtilityCss.ClassName

open Text

variable {depth : Nat} {quote : Option Char} {t rest part : Text} {parts : List Text}

/-- Read from the front, each backslash with the character behind it, the text ends in a backslash
that has none behind it. -/
def endsUnpaired : Text → Bool
  | [] => false
  | ['\x5c'] => true
  | '\x5c' :: _ :: t => endsUnpaired t
  | _ :: t => endsUnpaired t

structure IsPart (t : Text) : Prop where
  whole : segments? t = some [t]
  paired : endsUnpaired t = false

theorem joinSegments_cons (h : parts ≠ []) :
    joinSegments (part :: parts) = part ++ ':' :: joinSegments parts := by
  cases parts with
  | nil => exact absurd rfl h
  | cons next parts => simp [joinSegments, join]

theorem joinSegments_concat_append (fronts : List Text) (last tail : Text) :
    joinSegments (fronts ++ [last]) ++ tail = joinSegments (fronts ++ [last ++ tail]) := by
  induction fronts with
  | nil => rfl
  | cons front fronts ih =>
      rw [List.cons_append, List.cons_append,
        joinSegments_cons (List.append_ne_nil_of_right_ne_nil _ (List.cons_ne_nil _ _)),
        joinSegments_cons (List.append_ne_nil_of_right_ne_nil _ (List.cons_ne_nil _ _)), ← ih,
        List.append_assoc, List.cons_append]

theorem subset_joinSegments (h : part ∈ parts) : part ⊆ joinSegments parts := by
  induction parts with
  | nil => exact absurd h List.not_mem_nil
  | cons first parts ih =>
      by_cases hmore : parts = []
      · rw [hmore, List.mem_singleton] at h
        rw [hmore, h]
        exact List.Subset.refl _
      · rw [joinSegments_cons hmore]
        rcases List.mem_cons.mp h with rfl | h
        · exact List.subset_append_left _ _
        · exact fun c hc => List.mem_append_right _ (List.mem_cons_of_mem _ (ih h hc))

/-- Induction over a text that is read each backslash with the character behind it. -/
@[elab_as_elim]
theorem pairedInduction {motive : Text → Prop} (nil : motive []) (lone : motive ['\x5c'])
    (pair : ∀ c t, motive t → motive ('\x5c' :: c :: t))
    (plain : ∀ c t, c ≠ '\x5c' → motive t → motive (c :: t)) (t : Text) : motive t := by
  induction t using endsUnpaired.induct with
  | case1 => exact nil
  | case2 => exact lone
  | case3 c t ih => exact pair c t ih
  | case4 c t hlone hpair ih =>
      refine plain c t ?_ ih
      rintro rfl
      cases t with
      | nil => exact hlone rfl rfl
      | cons next t => exact hpair next t rfl rfl

theorem segmentsFrom_nil (depth : Nat) (quote : Option Char) :
    segmentsFrom depth quote [] = if depth = 0 ∧ quote = none then some [[]] else none :=
  rfl

/-- The equation of a character that is no backslash. -/
theorem segmentsFrom_cons {c : Char} (hc : c ≠ '\x5c') :
    segmentsFrom depth quote (c :: t) =
      match quote with
      | some q => (segmentsFrom depth (if c = q then none else some q) t).map (consHead c)
      | none =>
          if isQuote c then (segmentsFrom depth (some c) t).map (consHead c)
          else if c = '(' ∨ c = '[' then (segmentsFrom (depth + 1) none t).map (consHead c)
          else if c = ')' ∨ c = ']' then
            match depth with
            | 0 => none
            | depth + 1 => (segmentsFrom depth none t).map (consHead c)
          else if c = ':' ∧ depth = 0 then (segmentsFrom 0 none t).map ([] :: ·)
          else (segmentsFrom depth none t).map (consHead c) := by
  rw [segmentsFrom.eq_def]
  split
  next h => cases h
  next h => exact absurd (List.cons.inj h).1 hc
  next h => exact absurd (List.cons.inj h).1 hc
  next h =>
    obtain ⟨rfl, rfl⟩ := List.cons.inj h
    rfl

/-- What a character other than a backslash does: it has no place there, or it cuts, or it is kept
and the rest is read on under brackets and a quote that do not depend on the rest. -/
theorem segmentsFrom_step (depth : Nat) (quote : Option Char) {c : Char} (hc : c ≠ '\x5c') :
    (∀ t, segmentsFrom depth quote (c :: t) = none) ∨
      (c = ':' ∧ depth = 0 ∧ quote = none) ∨
      ∃ depth' quote', ∀ t,
        segmentsFrom depth quote (c :: t) = (segmentsFrom depth' quote' t).map (consHead c) := by
  simp only [segmentsFrom_cons hc]
  split
  · exact .inr (.inr ⟨_, _, fun _ => rfl⟩)
  · split
    · exact .inr (.inr ⟨_, _, fun _ => rfl⟩)
    · split
      · exact .inr (.inr ⟨_, _, fun _ => rfl⟩)
      · split
        · cases depth with
          | zero => exact .inl fun _ => rfl
          | succ depth => exact .inr (.inr ⟨_, _, fun _ => rfl⟩)
        · split
          next hcut => exact .inr (.inl ⟨hcut.1, hcut.2, rfl⟩)
          next => exact .inr (.inr ⟨_, _, fun _ => rfl⟩)

@[simp] theorem segmentsFrom_colon (t : Text) :
    segmentsFrom 0 none (':' :: t) = (segments? t).map ([] :: ·) :=
  segmentsFrom_cons (by decide)

theorem endsUnpaired_cons {c : Char} (hc : c ≠ '\x5c') :
    endsUnpaired (c :: t) = endsUnpaired t := by
  rw [endsUnpaired]
  · rintro rfl
    exact absurd rfl hc
  · rintro _ _ rfl
    exact absurd rfl hc

theorem segmentsFrom_pair (c : Char) :
    segmentsFrom depth quote ('\x5c' :: c :: t) =
      ((segmentsFrom depth quote t).map (consHead c)).map (consHead '\x5c') := by
  rw [Option.map_map]
  rfl

theorem consHead_ne_nil (c : Char) (parts : List Text) : consHead c parts ≠ [] := by
  cases parts <;> simp [consHead]

theorem map_consHead_ne_nil (c : Char) (read : Option (List Text)) :
    read.map (consHead c) ≠ some [] := by
  intro h
  obtain ⟨found, -, hfound⟩ := Option.map_eq_some_iff.mp h
  exact consHead_ne_nil c found hfound

theorem segmentsFrom_ne_nil (depth : Nat) (quote : Option Char) (t : Text) :
    segmentsFrom depth quote t ≠ some [] := by
  cases t with
  | nil =>
      rw [segmentsFrom_nil]
      split <;> simp
  | cons c t =>
      by_cases hc : c = '\x5c'
      · subst hc
        cases t with
        | nil => exact map_consHead_ne_nil _ _
        | cons c t =>
            rw [segmentsFrom_pair]
            exact map_consHead_ne_nil _ _
      · rcases segmentsFrom_step depth quote hc with h | ⟨rfl, rfl, rfl⟩ | ⟨_, _, h⟩
        · simp [h]
        · simp
        · rw [h]
          exact map_consHead_ne_nil _ _

/-- A character that is kept stands in front of the first segment. -/
theorem map_consHead_iff {c : Char} {read : Option (List Text)} (hread : read ≠ some []) :
    read.map (consHead c) = some (part :: parts) ↔
      ∃ p, read = some (p :: parts) ∧ part = c :: p := by
  constructor
  · intro h
    obtain ⟨found, rfl, hfound⟩ := Option.map_eq_some_iff.mp h
    cases found with
    | nil => exact absurd rfl hread
    | cons p behind =>
        obtain ⟨rfl, rfl⟩ := List.cons.inj hfound
        exact ⟨p, rfl, rfl⟩
  · rintro ⟨p, rfl, rfl⟩
    rfl

theorem segmentsFrom_nil_iff :
    segmentsFrom depth quote [] = some (part :: parts) ↔
      segmentsFrom depth quote [] = some [[]] ∧ part = [] ∧ parts = [] := by
  rw [segmentsFrom_nil]
  split
  · simp [eq_comm]
  · simp

/-- A name may end only where no bracket and no quote is open. -/
theorem closed_of_segmentsFrom_nil (h : segmentsFrom depth quote [] = some [[]]) :
    depth = 0 ∧ quote = none := by
  rw [segmentsFrom_nil] at h
  split at h
  next hclosed => exact hclosed
  next => cases h

theorem segmentsFrom_colon_iff :
    segmentsFrom 0 none (':' :: t) = some (part :: parts) ↔
      part = [] ∧ segments? t = some parts := by
  rw [segmentsFrom_colon, Option.map_eq_some_iff]
  constructor
  · rintro ⟨found, hfound, heq⟩
    obtain ⟨rfl, rfl⟩ := List.cons.inj heq
    exact ⟨rfl, hfound⟩
  · rintro ⟨rfl, hread⟩
    exact ⟨parts, hread, rfl⟩

theorem segmentsFrom_lone_iff :
    segmentsFrom depth quote ['\x5c'] = some (part :: parts) ↔
      segmentsFrom depth quote [] = some [[]] ∧ part = ['\x5c'] ∧ parts = [] := by
  change (segmentsFrom depth quote []).map (consHead '\x5c') = _ ↔ _
  rw [map_consHead_iff (segmentsFrom_ne_nil _ _ _)]
  constructor
  · rintro ⟨p, hread, rfl⟩
    obtain ⟨hnil, rfl, rfl⟩ := segmentsFrom_nil_iff.mp hread
    exact ⟨hnil, rfl, rfl⟩
  · rintro ⟨hnil, rfl, rfl⟩
    exact ⟨[], hnil, rfl⟩

theorem segmentsFrom_pair_iff {c : Char} :
    segmentsFrom depth quote ('\x5c' :: c :: t) = some (part :: parts) ↔
      ∃ p, segmentsFrom depth quote t = some (p :: parts) ∧ part = '\x5c' :: c :: p := by
  rw [segmentsFrom_pair, map_consHead_iff (map_consHead_ne_nil _ _)]
  constructor
  · rintro ⟨_, hread, rfl⟩
    obtain ⟨p, hp, rfl⟩ := (map_consHead_iff (segmentsFrom_ne_nil _ _ _)).mp hread
    exact ⟨p, hp, rfl⟩
  · rintro ⟨p, hp, rfl⟩
    exact ⟨c :: p, (map_consHead_iff (segmentsFrom_ne_nil _ _ _)).mpr ⟨p, hp, rfl⟩, rfl⟩

/-- A text of one segment is that segment. -/
theorem eq_of_segmentsFrom (h : segmentsFrom depth quote t = some [part]) : part = t := by
  induction t using pairedInduction generalizing depth quote part with
  | nil => exact (segmentsFrom_nil_iff.mp h).2.1
  | lone => exact (segmentsFrom_lone_iff.mp h).2.1
  | pair c t ih =>
      obtain ⟨p, hp, rfl⟩ := segmentsFrom_pair_iff.mp h
      rw [ih hp]
  | plain c t hc ih =>
      rcases segmentsFrom_step depth quote hc with hstep | ⟨rfl, rfl, rfl⟩ | ⟨_, _, hstep⟩
      · simp [hstep] at h
      · obtain ⟨-, hnone⟩ := segmentsFrom_colon_iff.mp h
        exact absurd hnone (segmentsFrom_ne_nil _ _ _)
      · rw [hstep, map_consHead_iff (segmentsFrom_ne_nil _ _ _)] at h
        obtain ⟨p, hp, rfl⟩ := h
        rw [ih hp]

/-- A colon behind some segments cuts, unless a backslash takes it along. -/
theorem segmentsFrom_append (h : segmentsFrom depth quote t = some (part :: parts))
    (hpaired : endsUnpaired t = false) (rest : Text) :
    segmentsFrom depth quote (t ++ ':' :: rest) =
      (segments? rest).map ((part :: parts) ++ ·) := by
  induction t using pairedInduction generalizing depth quote part parts with
  | nil =>
      obtain ⟨hread, rfl, rfl⟩ := segmentsFrom_nil_iff.mp h
      obtain ⟨rfl, rfl⟩ := closed_of_segmentsFrom_nil hread
      rw [List.nil_append, segmentsFrom_colon]
      rfl
  | lone => simp [endsUnpaired] at hpaired
  | pair c t ih =>
      obtain ⟨p, hread, rfl⟩ := segmentsFrom_pair_iff.mp h
      rw [List.cons_append, List.cons_append, segmentsFrom_pair, ih hread hpaired]
      simp only [Option.map_map, Function.comp_def, consHead, List.cons_append]
  | plain c t hc ih =>
      rw [endsUnpaired_cons hc] at hpaired
      rcases segmentsFrom_step depth quote hc with hstep | ⟨rfl, rfl, rfl⟩ | ⟨_, _, hstep⟩
      · simp [hstep] at h
      · obtain ⟨rfl, hread⟩ := segmentsFrom_colon_iff.mp h
        obtain ⟨p, ps, rfl⟩ :=
          List.exists_cons_of_ne_nil fun hnil => segmentsFrom_ne_nil 0 none t (hnil ▸ hread)
        rw [List.cons_append, segmentsFrom_colon, segments?, ih hread hpaired]
        simp only [Option.map_map, Function.comp_def, List.cons_append]
      · rw [hstep, map_consHead_iff (segmentsFrom_ne_nil _ _ _)] at h
        obtain ⟨p, hread, rfl⟩ := h
        rw [List.cons_append, hstep, ih hread hpaired]
        simp only [Option.map_map, Function.comp_def, consHead, List.cons_append]

/-- What the first of several segments is, and what stands behind it. -/
theorem exists_append_of_segmentsFrom (h : segmentsFrom depth quote t = some (part :: parts))
    (hmore : parts ≠ []) :
    segmentsFrom depth quote part = some [part] ∧ endsUnpaired part = false ∧
      ∃ rest, t = part ++ ':' :: rest ∧ segments? rest = some parts := by
  induction t using pairedInduction generalizing depth quote part with
  | nil => exact absurd (segmentsFrom_nil_iff.mp h).2.2 hmore
  | lone => exact absurd (segmentsFrom_lone_iff.mp h).2.2 hmore
  | pair c t ih =>
      obtain ⟨p, hp, rfl⟩ := segmentsFrom_pair_iff.mp h
      obtain ⟨hwhole, hpaired, rest, rfl, hrest⟩ := ih hp
      exact ⟨segmentsFrom_pair_iff.mpr ⟨p, hwhole, rfl⟩, hpaired, rest, rfl, hrest⟩
  | plain c t hc ih =>
      rcases segmentsFrom_step depth quote hc with hstep | ⟨rfl, rfl, rfl⟩ | ⟨_, _, hstep⟩
      · simp [hstep] at h
      · obtain ⟨rfl, hrest⟩ := segmentsFrom_colon_iff.mp h
        exact ⟨rfl, rfl, t, rfl, hrest⟩
      · rw [hstep, map_consHead_iff (segmentsFrom_ne_nil _ _ _)] at h
        obtain ⟨p, hp, rfl⟩ := h
        obtain ⟨hwhole, hpaired, rest, rfl, hrest⟩ := ih hp
        refine ⟨?_, by rwa [endsUnpaired_cons hc], rest, rfl, hrest⟩
        rw [hstep, hwhole]
        rfl

/-! ## All segments -/

theorem segments?_ne_nil (t : Text) : segments? t ≠ some [] :=
  segmentsFrom_ne_nil 0 none t

theorem segments?_cons_iff (hmore : parts ≠ []) :
    segments? t = some (part :: parts) ↔
      IsPart part ∧ ∃ rest, t = part ++ ':' :: rest ∧ segments? rest = some parts := by
  constructor
  · intro h
    obtain ⟨hwhole, hpaired, hrest⟩ := exists_append_of_segmentsFrom h hmore
    exact ⟨⟨hwhole, hpaired⟩, hrest⟩
  · rintro ⟨hpart, rest, rfl, hrest⟩
    rw [segments?, segmentsFrom_append hpart.whole hpart.paired, hrest]
    rfl

/-- Cutting and joining again changes nothing. -/
theorem joinSegments_of_segments? (h : segments? t = some parts) : joinSegments parts = t := by
  induction parts generalizing t with
  | nil => exact absurd h (segments?_ne_nil t)
  | cons part parts ih =>
      by_cases hmore : parts = []
      · subst hmore
        exact eq_of_segmentsFrom h
      · obtain ⟨-, rest, rfl, hrest⟩ := (segments?_cons_iff hmore).mp h
        rw [joinSegments_cons hmore, ih hrest]

/-- The segments of a text that begins with some given ones, `raw` being the text of the others. -/
theorem segments?_append_iff {fronts values : List Text} (hvalues : values ≠ []) :
    segments? t = some (fronts ++ values) ↔
      (∀ front ∈ fronts, IsPart front) ∧
        ∃ raw, t = joinSegments (fronts ++ [raw]) ∧ segments? raw = some values := by
  induction fronts generalizing t with
  | nil =>
      constructor
      · exact fun h => ⟨fun _ h => absurd h List.not_mem_nil, t, rfl, h⟩
      · rintro ⟨-, raw, rfl, h⟩
        exact h
  | cons front fronts ih =>
      rw [List.cons_append, segments?_cons_iff (List.append_ne_nil_of_right_ne_nil _ hvalues),
        List.forall_mem_cons, and_assoc]
      refine and_congr_right fun _ => ?_
      simp only [ih, List.cons_append,
        joinSegments_cons (List.append_ne_nil_of_right_ne_nil _ (List.cons_ne_nil _ _))]
      constructor
      · rintro ⟨_, rfl, hfronts, raw, rfl, hraw⟩
        exact ⟨hfronts, raw, rfl, hraw⟩
      · rintro ⟨hfronts, raw, rfl, hraw⟩
        exact ⟨_, rfl, hfronts, raw, rfl, hraw⟩

end UtilityCss.ClassName
