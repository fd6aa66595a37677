import UtilityCss.Modifier.Table
import UtilityCss.Proofs.Modifier.Sequence

/-!
# Canonical sequences

A sequence of modifiers is accepted exactly if it is canonical. What makes it so are conditions on
two modifiers, one of them in front of the other, so that a sequence can be judged while it grows:
every modifier is compared with those that have been accepted before it.
-/

namespace UtilityCss

open Text

namespace Modifier

variable {ms : List Modifier} {m : Modifier} {kind : Kind}

def ofKind (kind : Kind) (ms : List Modifier) : List Modifier :=
  ms.filter (·.kind = kind)

/-- Kinds in their order, states ascending by name and each with a fragment of its own, and at most
one modifier of any other kind. -/
structure IsCanonical (ms : List Modifier) : Prop where
  kinds : ms.Pairwise fun a b => a.kind.rank ≤ b.kind.rank
  media : (ofKind .media ms).length ≤ 1
  ancestor : (ofKind .ancestor ms).length ≤ 1
  names : (ofKind .state ms).Pairwise fun a b => Precedes a.name b.name
  fragments : (ofKind .state ms).Pairwise fun a b => a.css ≠ b.css
  pseudoElement : (ofKind .pseudoElement ms).length ≤ 1

/-- What a canonical sequence asks of two modifiers, the first of them in front of the second. -/
def MayPrecede (a b : Modifier) : Prop :=
  a.kind.rank < b.kind.rank ∨
    a.kind = .state ∧ b.kind = .state ∧ Precedes a.name b.name ∧ a.css ≠ b.css

instance (a b : Modifier) : Decidable (MayPrecede a b) :=
  inferInstanceAs (Decidable (_ ∨ _))

theorem MayPrecede.of_kinds {a b : Modifier} {front behind : Kind} (ha : a.kind = front)
    (hb : b.kind = behind) (h : front.rank < behind.rank) : MayPrecede a b := by
  subst ha hb
  exact Or.inl h

theorem pairwise_append_singleton {R : Modifier → Modifier → Prop} :
    (ms ++ [m]).Pairwise R ↔ ms.Pairwise R ∧ ∀ x ∈ ms, R x m := by
  simp [List.pairwise_append]

theorem mem_ofKind : m ∈ ofKind kind ms ↔ m ∈ ms ∧ m.kind = kind := by
  rw [ofKind, List.mem_filter, decide_eq_true_iff]

theorem ofKind_append (front behind : List Modifier) :
    ofKind kind (front ++ behind) = ofKind kind front ++ ofKind kind behind :=
  List.filter_append ..

theorem ofKind_eq_self (h : ∀ m ∈ ms, m.kind = kind) : ofKind kind ms = ms :=
  List.filter_eq_self.mpr fun m hm => decide_eq_true (h m hm)

theorem ofKind_eq_nil (h : ∀ m ∈ ms, m.kind ≠ kind) : ofKind kind ms = [] :=
  List.filter_eq_nil_iff.mpr fun m hm => by simpa using h m hm

theorem pairwise_ofKind {R : Modifier → Modifier → Prop} :
    (ofKind kind ms).Pairwise R ↔ ms.Pairwise fun a b => a.kind = kind → b.kind = kind → R a b := by
  simp only [ofKind, List.pairwise_filter, decide_eq_true_iff]

/-- At most one is none in front of another. -/
theorem length_ofKind_le_one :
    (ofKind kind ms).length ≤ 1 ↔ ms.Pairwise fun a b => a.kind = kind → b.kind ≠ kind := by
  have hone (l : List Modifier) : l.length ≤ 1 ↔ l.Pairwise fun _ _ => False := by
    match l with
    | [] => simp
    | [_] => simp
    | _ :: _ :: _ =>
        exact iff_of_false (by simp) fun h => (List.pairwise_cons.mp h).1 _ List.mem_cons_self
  rw [hone, pairwise_ofKind]

theorem mayPrecede_iff {a b : Modifier} :
    MayPrecede a b ↔ a.kind.rank ≤ b.kind.rank ∧ (a.kind = .media → b.kind ≠ .media) ∧
      (a.kind = .ancestor → b.kind ≠ .ancestor) ∧
      (a.kind = .state → b.kind = .state → Precedes a.name b.name) ∧
      (a.kind = .state → b.kind = .state → a.css ≠ b.css) ∧
      (a.kind = .pseudoElement → b.kind ≠ .pseudoElement) := by
  rw [MayPrecede]
  cases a.kind <;> cases b.kind <;> simp [Kind.rank]

theorem isCanonical_iff_pairwise : IsCanonical ms ↔ ms.Pairwise MayPrecede := by
  simp only [funext fun a => funext fun b => propext (@mayPrecede_iff a b), List.pairwise_and_iff,
    ← length_ofKind_le_one, ← pairwise_ofKind]
  constructor
  · intro h
    exact ⟨h.kinds, h.media, h.ancestor, h.names, h.fragments, h.pseudoElement⟩
  · rintro ⟨hkinds, hmedia, hancestor, hnames, hfragments, hpseudo⟩
    exact ⟨hkinds, hmedia, hancestor, hnames, hfragments, hpseudo⟩

instance (ms : List Modifier) : Decidable (IsCanonical ms) :=
  decidable_of_iff _ isCanonical_iff_pairwise.symm

end Modifier

namespace ModifierSet

open Modifier

variable {s next : ModifierSet} {m : Modifier} {ms : List Modifier}

theorem mem_toList {x : Modifier} :
    x ∈ s.toList ↔ x ∈ s.media ∨ x ∈ s.ancestor ∨ x ∈ s.states ∨ x ∈ s.pseudoElement := by
  simp [toList]

/-- The last state is behind all others. -/
theorem precedes_of_last (hnames : s.states.Pairwise fun a b => Precedes a.name b.name)
    (hlast : ∀ last ∈ s.states.getLast?, Precedes last.name m.name) :
    ∀ x ∈ s.states, Precedes x.name m.name := by
  intro x hx
  rcases List.eq_nil_or_concat s.states with hnil | ⟨front, last, hconcat⟩
  · rw [hnil] at hx
    exact absurd hx List.not_mem_nil
  · have hm : Precedes last.name m.name := hlast last (by simp [hconcat])
    rw [hconcat, List.concat_eq_append] at hx hnames
    rcases List.mem_append.mp hx with hfront | hx
    · exact ((pairwise_append_singleton.mp hnames).2 x hfront).trans hm
    · rwa [List.mem_singleton.mp hx]

theorem IsSorted.pairwise_states (hs : s.IsSorted) (hpairs : s.toList.Pairwise MayPrecede) :
    s.states.Pairwise fun a b => Precedes a.name b.name := by
  have hstates : s.states.Sublist s.toList := by
    rw [toList]
    exact (List.sublist_append_right _ _).trans (List.sublist_append_left _ _)
  refine (hpairs.sublist hstates).imp_of_mem ?_
  intro a b ha hb hab
  exact (mayPrecede_iff.mp hab).2.2.2.1 (hs.states a ha) (hs.states b hb)

/-- What is accepted may stand behind all that has been read. -/
theorem mayPrecede_of_push (hs : s.IsSorted) (hpairs : s.toList.Pairwise MayPrecede)
    (h : s.push m = .ok next) : ∀ x ∈ s.toList, MayPrecede x m := by
  intro x hx
  obtain ⟨hlast, hown⟩ := push_eq_ok_iff.mp h
  obtain ⟨hpseudo, hstates, hancestor⟩ := hs.none_behind hlast
  rw [mem_toList] at hx
  rcases pushOwnKind_eq_ok_iff.mp hown with ⟨hkind, hnone, -⟩ | ⟨hkind, hnone, -⟩ |
    ⟨hkind, hcss, hname, -⟩ | ⟨hkind, hnone, -⟩ <;>
    simp only [hkind, Kind.rank, Nat.reduceLT, forall_const] at hpseudo hstates hancestor
  · simp [hnone, hancestor, hstates, hpseudo] at hx
  · have hmedia : x ∈ s.media := by simpa [hnone, hstates, hpseudo] using hx
    exact .of_kinds (hs.media x hmedia) hkind (by decide)
  · rcases hx with hx | hx | hx | hx
    · exact .of_kinds (hs.media x hx) hkind (by decide)
    · exact .of_kinds (hs.ancestor x hx) hkind (by decide)
    · have hbefore := precedes_of_last (hs.pairwise_states hpairs) hname x hx
      exact Or.inr ⟨hs.states x hx, hkind, hbefore, hcss x hx⟩
    · simp [hpseudo] at hx
  · rcases hx with hx | hx | hx | hx
    · exact .of_kinds (hs.media x hx) hkind (by decide)
    · exact .of_kinds (hs.ancestor x hx) hkind (by decide)
    · exact .of_kinds (hs.states x hx) hkind (by decide)
    · simp [hnone] at hx

/-- Of a kind that occurs once, none has been read in front of a modifier of that kind. -/
theorem eq_none_of_mayPrecede {kind : Kind} {field : Option Modifier}
    (h : ∀ x ∈ s.toList, MayPrecede x m) (hkind : m.kind = kind) (hne : kind ≠ .state)
    (hfield : ∀ x ∈ field, x ∈ s.toList ∧ x.kind = kind) : field = none := by
  refine Option.eq_none_iff_forall_not_mem.mpr fun x hx => ?_
  obtain ⟨hmem, hxkind⟩ := hfield x hx
  rcases h x hmem with hrank | ⟨hstate, -⟩
  · rw [hxkind, hkind] at hrank
    exact absurd hrank (Nat.lt_irrefl _)
  · exact hne (hxkind ▸ hstate)

theorem exists_push_of_mayPrecede (hs : s.IsSorted) (h : ∀ x ∈ s.toList, MayPrecede x m) :
    ∃ next, s.push m = .ok next := by
  have hlast : ∀ last ∈ s.toList.getLast?, last.kind.rank ≤ m.kind.rank := fun last hx =>
    (mayPrecede_iff.mp (h last (List.mem_of_getLast? hx))).1
  simp only [push_eq_ok_iff, and_iff_right hlast, pushOwnKind_eq_ok_iff]
  cases hkind : m.kind with
  | media =>
      have hnone : s.media = none := eq_none_of_mayPrecede h hkind (by decide) fun x hx =>
        ⟨mem_toList.mpr (.inl hx), hs.media x hx⟩
      exact ⟨_, .inl ⟨rfl, hnone, rfl⟩⟩
  | ancestor =>
      have hnone : s.ancestor = none := eq_none_of_mayPrecede h hkind (by decide) fun x hx =>
        ⟨mem_toList.mpr (.inr (.inl hx)), hs.ancestor x hx⟩
      exact ⟨_, .inr (.inl ⟨rfl, hnone, rfl⟩)⟩
  | state =>
      have hstate (x : Modifier) (hx : x ∈ s.states) :
          Precedes x.name m.name ∧ x.css ≠ m.css := by
        have hpair := (mayPrecede_iff.mp (h x (mem_toList.mpr (.inr (.inr (.inl hx)))))).2.2.2
        exact ⟨hpair.1 (hs.states x hx) hkind, hpair.2.1 (hs.states x hx) hkind⟩
      exact ⟨_, .inr (.inr (.inl ⟨rfl, fun x hx => (hstate x hx).2,
        fun last hx => (hstate last (List.mem_of_getLast? hx)).1, rfl⟩))⟩
  | pseudoElement =>
      have hnone : s.pseudoElement = none := eq_none_of_mayPrecede h hkind (by decide) fun x hx =>
        ⟨mem_toList.mpr (.inr (.inr (.inr hx))), hs.pseudoElement x hx⟩
      exact ⟨_, .inr (.inr (.inr ⟨rfl, hnone, rfl⟩))⟩

/-- Behind a canonical sequence, a modifier is accepted if the sequence is still canonical with
it. -/
theorem exists_push_iff (hs : s.IsSorted) (hpairs : s.toList.Pairwise MayPrecede) :
    (∃ next, s.push m = .ok next) ↔ (s.toList ++ [m]).Pairwise MayPrecede := by
  rw [pairwise_append_singleton, and_iff_right hpairs]
  exact ⟨fun ⟨_, h⟩ => mayPrecede_of_push hs hpairs h, exists_push_of_mayPrecede hs⟩

/-! ## A whole sequence -/

theorem exists_pushAll_iff (hs : s.IsSorted) (hpairs : s.toList.Pairwise MayPrecede) :
    (∃ next, s.pushAll ms = .ok next) ↔ (s.toList ++ ms).Pairwise MayPrecede := by
  induction ms generalizing s with
  | nil =>
      rw [List.append_nil]
      exact iff_of_true ⟨s, rfl⟩ hpairs
  | cons m ms ih =>
      have hfirst := exists_push_iff (m := m) hs hpairs
      have hsplit : s.toList ++ m :: ms = (s.toList ++ [m]) ++ ms := by
        rw [List.append_assoc, List.singleton_append]
      rw [pushAll]
      cases hpush : s.push m with
      | ok next =>
          obtain ⟨hnext, hlist⟩ := push_spec hs hpush
          have hgrown := hfirst.mp ⟨next, hpush⟩
          rw [← hlist] at hgrown
          rw [hsplit, ← hlist]
          exact ih hnext hgrown
      | error e =>
          refine iff_of_false (by simp) fun hall => ?_
          rw [hsplit] at hall
          obtain ⟨next, hok⟩ := hfirst.mpr (List.pairwise_append.mp hall).1
          rw [hpush] at hok
          cases hok

theorem exists_ofList_iff : (∃ s, ofList ms = .ok s) ↔ IsCanonical ms := by
  rw [isCanonical_iff_pairwise]
  exact exists_pushAll_iff isSorted_empty List.Pairwise.nil

/-- Each field holds what is of its kind. -/
theorem IsSorted.ofKind_toList (hs : s.IsSorted) :
    ofKind .media s.toList = s.media.toList ∧ ofKind .ancestor s.toList = s.ancestor.toList ∧
      ofKind .state s.toList = s.states ∧
      ofKind .pseudoElement s.toList = s.pseudoElement.toList := by
  have hfield {kind : Kind} {field : Option Modifier} (h : ∀ m ∈ field, m.kind = kind) :
      ∀ m ∈ field.toList, m.kind = kind := fun m hm => h m (Option.mem_toList.mp hm)
  have hne {a b : Kind} {l : List Modifier} (h : ∀ m ∈ l, m.kind = a) (hab : a ≠ b) :
      ofKind b l = [] := ofKind_eq_nil fun m hm => by rw [h m hm]; exact hab
  have hmedia := hfield hs.media
  have hancestor := hfield hs.ancestor
  have hpseudo := hfield hs.pseudoElement
  simp only [toList, ofKind_append]
  refine ⟨?_, ?_, ?_, ?_⟩
  · rw [ofKind_eq_self hmedia, hne hancestor (by decide), hne hs.states (by decide),
      hne hpseudo (by decide), List.append_nil, List.append_nil, List.append_nil]
  · rw [hne hmedia (by decide), ofKind_eq_self hancestor, hne hs.states (by decide),
      hne hpseudo (by decide), List.nil_append, List.append_nil, List.append_nil]
  · rw [hne hmedia (by decide), hne hancestor (by decide), ofKind_eq_self hs.states,
      hne hpseudo (by decide), List.nil_append, List.nil_append, List.append_nil]
  · rw [hne hmedia (by decide), hne hancestor (by decide), hne hs.states (by decide),
      ofKind_eq_self hpseudo, List.nil_append, List.nil_append, List.nil_append]

theorem getD_css (field : Option Modifier) :
    (field.map (·.css)).getD [] = field.toList.flatMap (·.css) := by
  cases field <;> simp

theorem placement_ofList (h : ofList ms = .ok s) :
    s.placement.headers = (ofKind .media ms ++ ofKind .ancestor ms).map (·.css) ∧
      s.placement.states = (ofKind .state ms).flatMap (·.css) ∧
      s.placement.suffix = s.placement.states ++ (ofKind .pseudoElement ms).flatMap (·.css) := by
  obtain ⟨hmedia, hancestor, hstates, hpseudo⟩ := (isSorted_ofList h).ofKind_toList
  rw [toList_ofList h] at hmedia hancestor hstates hpseudo
  rw [hmedia, hancestor, hstates, hpseudo]
  refine ⟨?_, rfl, ?_⟩
  · rw [Placement.headers, placement, List.map_append]
    cases s.media <;> cases s.ancestor <;> rfl
  · rw [Placement.suffix, placement, getD_css]

/-- A sequence is accepted exactly if it is canonical. The set of an accepted sequence lists it
unchanged; of its texts, those of the media condition and of the ancestor go around the rule, and
those of the states, in their order, and of the pseudo-element behind the selector. -/
theorem ofList_canonical (ms : List Modifier) :
    ((∃ s, ofList ms = .ok s) ↔ IsCanonical ms) ∧
      ∀ s, ofList ms = .ok s →
        s.media.toList ++ s.ancestor.toList ++ s.states ++ s.pseudoElement.toList = ms ∧
        s.placement.headers = (ofKind .media ms ++ ofKind .ancestor ms).map (·.css) ∧
        s.placement.states = (ofKind .state ms).flatMap (·.css) ∧
        s.placement.suffix = s.placement.states ++ (ofKind .pseudoElement ms).flatMap (·.css) :=
  ⟨exists_ofList_iff, fun _ h => ⟨toList_ofList h, placement_ofList h⟩⟩

theorem ofList_canonical_chain :
    let ms := (["md", "dark", "first", "nth-child(2n~+~1)", "before"].map String.toList).filterMap
      ofName?
    IsCanonical ms ∧ ∃ s, ofList ms = .ok s ∧ s.toList = ms ∧
      s.placement.suffix = ":first-child:nth-child(2n + 1)::before".toList := by
  intro ms
  have hcanonical : IsCanonical ms := by decide +kernel
  obtain ⟨haccepts, hkept⟩ := ofList_canonical ms
  obtain ⟨s, hs⟩ := haccepts.mpr hcanonical
  obtain ⟨hlist, -, hstates, hsuffix⟩ := hkept s hs
  refine ⟨hcanonical, s, hs, hlist, ?_⟩
  rw [hsuffix, hstates]
  decide +kernel

/-- Two names of one pseudo-class, in alphabetical order. -/
example : ¬ IsCanonical ((["first", "first-child"].map String.toList).filterMap ofName?) := by
  decide +kernel

end ModifierSet

end UtilityCss
