import UtilityCss.Proofs.Generator.Cascade
import UtilityCss.Proofs.Generator.KeyReading

/-!
# The order of emission

Sorted class names stand in one order, whatever order they come in. The names with one base make one
stretch of it, and in a stretch a rule that overrides another stands behind it: a name with states
behind the name without, and a state that is higher in the cascade behind a lower one.
-/

namespace UtilityCss.CascadeKey

open Text

variable {names order : List Text} {a b x : Text}

def Outranks (a b : Text) : Prop :=
  ∃ m ∈ statesOf a, ∀ other ∈ statesOf b, stage other.name < stage m.name

instance (a b : Text) : Decidable (Outranks a b) :=
  inferInstanceAs (Decidable (∃ m ∈ statesOf a, _))

def StandsBefore (order : List Text) (a b : Text) : Prop :=
  [a, b].Sublist order

/-- What the cascade asks of an order of class names. Between two names of one base stand names of
this base only, and of two such names the one without states comes first, or else the one whose
highest state is lower, or else the one that precedes the other as a text. -/
structure FollowsCascade (order : List Text) : Prop where
  grouped : ∀ a x b, [a, x, b].Sublist order → baseOf a = baseOf b → baseOf x = baseOf a
  plainFirst : ∀ a ∈ order, ∀ b ∈ order, baseOf a = baseOf b →
    statesOf a = [] → statesOf b ≠ [] → StandsBefore order a b
  lowerFirst : ∀ a ∈ order, ∀ b ∈ order, baseOf a = baseOf b →
    Outranks b a → StandsBefore order a b
  byName : ∀ a ∈ order, ∀ b ∈ order, baseOf a = baseOf b →
    ¬ Outranks a b → ¬ Outranks b a → Precedes a b → StandsBefore order a b

theorem outranks_iff : Outranks a b ↔ (ofName b).rank < (ofName a).rank := by
  have ha := isHighest_rank a
  have hb := isHighest_rank b
  constructor
  · rintro ⟨m, hm, hall⟩
    refine Nat.lt_of_lt_of_le ?_ (ha.above m hm)
    rcases hb.reached with ⟨-, hzero⟩ | ⟨other, hother, hrank⟩
    · rw [hzero]
      exact one_le_stage m.name
    · rw [← hrank]
      exact hall other hother
  · intro hlt
    rcases ha.reached with ⟨-, hzero⟩ | ⟨m, hm, hrank⟩
    · rw [hzero] at hlt
      exact absurd hlt (Nat.not_lt_zero _)
    · rw [← hrank] at hlt
      exact ⟨m, hm, fun other hother => Nat.lt_of_le_of_lt (hb.above other hother) hlt⟩

theorem outranks_of_plain (ha : statesOf a ≠ []) (hb : statesOf b = []) : Outranks a b := by
  obtain ⟨m, states, hstates⟩ := List.exists_cons_of_ne_nil ha
  exact ⟨m, hstates ▸ List.mem_cons_self, hb ▸ nofun⟩

theorem standsBefore_or (ha : a ∈ order) (hb : b ∈ order) (hne : a ≠ b) :
    StandsBefore order a b ∨ StandsBefore order b a := by
  induction order with
  | nil => exact absurd ha List.not_mem_nil
  | cons first order ih =>
      rcases List.mem_cons.mp ha with rfl | ha'
      · have hbehind := (List.mem_cons.mp hb).resolve_left (Ne.symm hne)
        exact Or.inl ((List.singleton_sublist.mpr hbehind).cons_cons a)
      · rcases List.mem_cons.mp hb with rfl | hb'
        · exact Or.inr ((List.singleton_sublist.mpr ha').cons_cons b)
        · exact (ih ha' hb').imp (fun h => h.cons first) (fun h => h.cons first)

theorem standsBefore_of_before (hnames : names.Nodup) (ha : a ∈ sortNames names)
    (hb : b ∈ sortNames names) (h : (ofName a).Before (ofName b)) :
    StandsBefore (sortNames names) a b := by
  have hne : a ≠ b := by
    rintro rfl
    exact not_before_self _ h
  refine (standsBefore_or ha hb hne).resolve_right fun hswapped => ?_
  have hpair := (pairwise_sortNames hnames).sublist hswapped
  exact not_before_of_before h (List.rel_of_pairwise_cons hpair (List.mem_singleton_self a))

/-- Keys between two keys of one base have this base. -/
theorem base_between {front key behind : CascadeKey} (hfront : front.Before key)
    (hbehind : key.Before behind) (h : front.base = behind.base) : key.base = front.base := by
  rcases hfront with hfront | ⟨heq, -⟩
  · rcases hbehind with hbehind | ⟨heq, -⟩
    · rw [← h] at hbehind
      exact absurd (hfront.trans hbehind) (not_precedes_self _)
    · rw [heq, ← h] at hfront
      exact absurd hfront (not_precedes_self _)
  · exact heq.symm

theorem followsCascade_sortNames (h : names.Nodup) : FollowsCascade (sortNames names) where
  grouped a x b hsublist hbase := by
    have hpairs := (pairwise_sortNames h).sublist hsublist
    have hfront := List.rel_of_pairwise_cons hpairs List.mem_cons_self
    have hbehind := List.rel_of_pairwise_cons hpairs.of_cons (List.mem_singleton_self b)
    exact base_eq_iff.mp (base_between hfront hbehind (base_eq_iff.mpr hbase))
  plainFirst a ha b hb hbase hplain hstates :=
    standsBefore_of_before h ha hb (Or.inr ⟨base_eq_iff.mpr hbase,
      Or.inl (outranks_iff.mp (outranks_of_plain hstates hplain))⟩)
  lowerFirst a ha b hb hbase hlower :=
    standsBefore_of_before h ha hb (Or.inr ⟨base_eq_iff.mpr hbase, Or.inl (outranks_iff.mp hlower)⟩)
  byName a ha b hb hbase hab hba hname := by
    rw [outranks_iff, Nat.not_lt] at hab hba
    exact standsBefore_of_before h ha hb (Or.inr ⟨base_eq_iff.mpr hbase,
      Or.inr ⟨Nat.le_antisymm hab hba, hname⟩⟩)

/-- Before is a strict order, so that only one order of some names agrees with it. -/
theorem sortNames_eq {other : List Text} (hnames : names.Nodup) (h : other.Perm names) :
    sortNames other = sortNames names := by
  refine List.Perm.eq_of_pairwise (fun a b _ _ hab hba => ?_)
    (pairwise_sortNames (h.nodup_iff.mpr hnames)) (pairwise_sortNames hnames)
    ((sortNames_perm other).trans (h.trans (sortNames_perm names).symm))
  exact absurd hba (not_before_of_before hab)

/-- Sorting different class names permutes them into an order that depends on the names only, not on
how they come, and that follows the cascade. -/
theorem sortNames_canonical (h : names.Nodup) :
    (sortNames names).Perm names ∧
      (∀ other : List Text, other.Perm names → sortNames other = sortNames names) ∧
      FollowsCascade (sortNames names) :=
  ⟨sortNames_perm names, fun _ hother => sortNames_eq h hother, followsCascade_sortNames h⟩

theorem sortNames_canonical_card :
    let names := ["hover:card", "md:card", "first:card", "card", "active:focus:card"].map
      String.toList
    names.Nodup ∧ sortNames names.reverse = sortNames names ∧
      StandsBefore (sortNames names) "card".toList "hover:card".toList ∧
      StandsBefore (sortNames names) "hover:card".toList "active:focus:card".toList ∧
      StandsBefore (sortNames names) "active:focus:card".toList "first:card".toList := by
  intro names
  have hnodup : names.Nodup := by decide
  obtain ⟨hperm, hcanonical, hcascade⟩ := sortNames_canonical hnodup
  have hmem : ∀ name ∈ names, name ∈ sortNames names := fun _ => hperm.mem_iff.mpr
  refine ⟨hnodup, hcanonical _ names.reverse_perm, ?_, ?_, ?_⟩
  · exact hcascade.plainFirst _ (hmem _ (by decide)) _ (hmem _ (by decide)) (by decide +kernel)
      (by decide +kernel) (by decide +kernel)
  · exact hcascade.lowerFirst _ (hmem _ (by decide)) _ (hmem _ (by decide)) (by decide +kernel)
      (by decide +kernel)
  · exact hcascade.lowerFirst _ (hmem _ (by decide)) _ (hmem _ (by decide)) (by decide +kernel)
      (by decide +kernel)

end UtilityCss.CascadeKey
