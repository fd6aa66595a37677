import UtilityCss.Modifier.Table
import UtilityCss.Proofs.Css.Layout
import UtilityCss.Proofs.Modifier.Sequence

/-!
# The texts of modifiers

Whatever its argument is, a modifier gives a text of one line that ends neither in a blank nor in a
backslash, and that begins with what its kind asks for.
-/

namespace UtilityCss

open Text Css

namespace Text

def EndsFirm (t : Text) : Prop :=
  ∃ front c, t = front ++ [c] ∧ isBlank c = false ∧ c ≠ '\x5c'

theorem EndsFirm.append {t : Text} (h : EndsFirm t) (s : Text) : EndsFirm (s ++ t) := by
  obtain ⟨front, c, rfl, hc⟩ := h
  exact ⟨s ++ front, c, (List.append_assoc ..).symm, hc⟩

theorem EndsFirm.endsSolid {t : Text} (h : EndsFirm t) : EndsSolid t := by
  obtain ⟨front, c, heq, hc, -⟩ := h
  exact ⟨front, c, heq, hc⟩

theorem EndsFirm.getLast?_ne {t : Text} (h : EndsFirm t) : t.getLast? ≠ some '\x5c' := by
  obtain ⟨front, c, rfl, -, hc⟩ := h
  simpa using hc

theorem trim_subset (t : Text) : trim t ⊆ t := by
  intro c hc
  obtain ⟨blanks, hstart, -⟩ := exists_append_trimStart t
  obtain ⟨blanks', hend, -⟩ := exists_trimEnd_append (trimStart t)
  rw [hstart, hend]
  exact List.mem_append_right _ (List.mem_append_left _ hc)

end Text

namespace Modifier

structure IsShaped (m : Modifier) : Prop where
  media : m.kind = .media → "@media ".toList <+: m.css
  other : m.kind ≠ .media → m.css.head? = some ':'
  ends : EndsFirm m.css
  line : OneLine m.css

theorem isShaped_fixed {m : Modifier} (h : m ∈ fixed) : IsShaped m := by
  have htable : ∀ m ∈ fixed,
      (m.kind = .media → "@media ".toList.isPrefixOf m.css = true) ∧
      (m.kind ≠ .media → m.css.head? = some ':') ∧
      m.css.getLast?.any (fun c => !isBlank c && c != '\x5c') = true ∧
      m.css.all (fun c => !isBlank c || c == ' ') = true := by
    decide +kernel
  obtain ⟨hmedia, hother, hends, hline⟩ := htable m h
  refine ⟨fun hkind => List.isPrefixOf_iff_prefix.mp (hmedia hkind), hother, ?_,
    fun c hc hblank => ?_⟩
  · obtain ⟨c, hlast, hc⟩ := (Option.any_eq_true _ _).mp hends
    obtain ⟨front, hfront⟩ := List.getLast?_eq_some_iff.mp hlast
    simp only [Bool.and_eq_true, Bool.not_eq_true', bne_iff_ne] at hc
    exact ⟨front, c, hfront, hc⟩
  · have hspace := List.all_eq_true.mp hline c hc
    simpa [hblank] using hspace

theorem mem_of_fixed {m : Modifier} (h : m ∈ fixed) :
    (m.kind = .state → m ∈ states) ∧ (m.kind = .pseudoElement → m ∈ pseudoElements) := by
  have htable : ∀ m ∈ fixed, (m.kind = .state → m ∈ states) ∧
      (m.kind = .pseudoElement → m ∈ pseudoElements) := by
    decide +kernel
  exact htable m h

theorem subset_of_call? {name function inner : Text} (h : call? name = some (function, inner)) :
    function ⊆ name ∧ inner ⊆ name := by
  rw [call?] at h
  split at h
  · cases h
  next open' tail hdrop =>
    split at h
    · cases h
    next found hfound =>
      have htail : tail ⊆ name := by
        intro c hc
        refine (List.dropWhile_suffix (· != '(')).subset ?_
        rw [hdrop]
        exact List.mem_cons_of_mem _ hc
      dsimp only at h
      split at h
      · cases h
      · obtain ⟨rfl, rfl⟩ := Prod.mk.inj (Option.some.inj h)
        rw [before?_eq_some_iff.mp hfound] at htail
        exact ⟨(List.takeWhile_prefix _).subset, (List.append_subset.mp htail).1⟩

theorem oneLine_argument {inner : Text} (h : OneLine inner) : OneLine (argument inner) := by
  refine OneLine.of_subset (fun c hc hblank => ?_) (trim_subset _)
  obtain ⟨d, hd, rfl⟩ := List.mem_map.mp hc
  split at hblank
  next htilde => rw [if_pos htilde]
  next htilde =>
    rw [if_neg htilde]
    exact h d hd hblank

theorem isShaped_ofCall? {name : Text} {m : Modifier} (hname : OneLine name)
    (h : ofCall? name = some m) : IsShaped m := by
  have hclose : ∀ t, EndsFirm (t ++ [')']) := fun t => ⟨t, ')', rfl, by decide, by decide⟩
  rw [ofCall?] at h
  split at h
  · cases h
  next function inner hcall =>
    obtain ⟨hfunction, hinner⟩ := subset_of_call? hcall
    have hargument := oneLine_argument (hname.of_subset hinner)
    have hmedia (before : Text) {css : Text} (hbefore : "@media ".toList <+: before)
        (hline : OneLine before) (hcss : css = before ++ argument inner ++ [')']) :
        IsShaped ⟨.media, name, css⟩ := by
      subst hcss
      refine ⟨fun _ => ?_, fun hkind => absurd rfl hkind, hclose _, ?_⟩
      · rw [List.append_assoc]
        exact hbefore.trans (List.prefix_append _ _)
      · exact (hline.append hargument).append (by decide)
    split at h
    · rw [← Option.some.inj h]
      exact hmedia "@media (width >= ".toList (by decide) (by decide) rfl
    · split at h
      · rw [← Option.some.inj h]
        exact hmedia "@media (width < ".toList (by decide) (by decide) rfl
      · split at h
        · rw [← Option.some.inj h]
          refine ⟨fun hkind => (nomatch hkind), fun _ => rfl, hclose _, ?_⟩
          have hfront : OneLine (':' :: function) :=
            OneLine.append (s := [':']) (by decide) (hname.of_subset hfunction)
          have hgroup : OneLine ('(' :: argument inner) :=
            OneLine.append (s := ['(']) (by decide) hargument
          exact (hfront.append hgroup).append (by decide)
        · cases h

theorem isShaped_ofName? {name : Text} {m : Modifier} (hname : OneLine name)
    (h : ofName? name = some m) : IsShaped m := by
  rw [ofName?] at h
  split at h
  next found hfound =>
    rw [← Option.some.inj h]
    exact isShaped_fixed (List.mem_of_find?_eq_some hfound)
  next => exact isShaped_ofCall? hname h

structure IsTail (t : Text) : Prop where
  starts : ∀ c ∈ t.head?, c = ':'
  ends : t = [] ∨ EndsFirm t
  line : OneLine t

theorem IsTail.nil : IsTail [] :=
  ⟨fun _ hc => (nomatch hc), Or.inl rfl, .nil⟩

theorem IsTail.append {s t : Text} (hs : IsTail s) (ht : IsTail t) : IsTail (s ++ t) := by
  refine ⟨?_, ?_, hs.line.append ht.line⟩
  · cases s with
    | nil => exact ht.starts
    | cons c s => exact hs.starts
  · rcases ht.ends with rfl | hends
    · rw [List.append_nil]
      exact hs.ends
    · exact Or.inr (hends.append s)

theorem IsShaped.isTail {m : Modifier} (h : m.IsShaped) (hkind : m.kind ≠ .media) :
    IsTail m.css := by
  refine ⟨?_, Or.inr h.ends, h.line⟩
  rw [h.other hkind]
  exact fun c hc => (Option.some.inj hc).symm

theorem isTail_flatMap {ms : List Modifier} (h : ∀ m ∈ ms, IsTail m.css) :
    IsTail (ms.flatMap (·.css)) := by
  induction ms with
  | nil => exact .nil
  | cons m ms ih =>
      obtain ⟨hm, hms⟩ := List.forall_mem_cons.mp h
      exact hm.append (ih hms)

end Modifier

/-- The states and the pseudo-element make one suffix. -/
theorem ModifierSet.IsSorted.isTail {s : ModifierSet} (hs : s.IsSorted)
    (h : ∀ m ∈ s.toList, m.IsShaped) : Modifier.IsTail s.placement.suffix := by
  have hshaped {m : Modifier} (hm : m ∈ s.states ++ s.pseudoElement.toList) : m.IsShaped := by
    refine h m ?_
    rw [toList, List.append_assoc]
    exact List.mem_append_right _ hm
  have hstates : Modifier.IsTail (s.states.flatMap (·.css)) := by
    refine Modifier.isTail_flatMap fun m hm => ?_
    refine (hshaped (List.mem_append_left _ hm)).isTail ?_
    rw [hs.states m hm]
    decide
  have hpseudo : Modifier.IsTail ((s.pseudoElement.map (·.css)).getD []) := by
    cases hlast : s.pseudoElement with
    | none => exact .nil
    | some m =>
        rw [hlast] at hshaped
        refine (hshaped (List.mem_append_right _ List.mem_cons_self)).isTail ?_
        rw [hs.pseudoElement m hlast]
        decide
  exact hstates.append hpseudo

end UtilityCss
