import UtilityCss.Proofs.Text.Trim
import UtilityCss.Theme.Reference

/-!
# What a text mentions

The references found in a text are the names of its calls `var(--name`. Calls are looked for from left
to right, and the name of a call is read as a whole: what it holds is no call.
-/

namespace UtilityCss.Theme

open Text

/-- The text begins with the call `var(--name`, with any blanks behind the parenthesis; what stands
behind the name does not continue it. -/
inductive IsCall (name behind : Text) : Text → Prop where
  | intro {blanks : Text} (hblanks : ∀ c ∈ blanks, isBlank c = true)
      (hname : ∀ c ∈ name, isReferenceChar c = true)
      (hbehind : ∀ c ∈ behind.head?, isReferenceChar c = false) :
      IsCall name behind ("var(".toList ++ (blanks ++ "--".toList ++ (name ++ behind)))

inductive Mentions : Text → Text → Prop where
  | here {t name behind : Text} (hcall : IsCall name behind t) (hname : name ≠ []) :
      Mentions t name
  | behind {t other behind name : Text} (hcall : IsCall other behind t)
      (hrest : Mentions behind name) : Mentions t name
  | skip {c : Char} {t name : Text} (hcall : ∀ other behind, ¬ IsCall other behind (c :: t))
      (hrest : Mentions t name) : Mentions (c :: t) name

theorem isCall_iff {name behind t : Text} : IsCall name behind t ↔
    ∃ call tail, after? "var(".toList t = some call ∧
      after? "--".toList (trimStart call) = some tail ∧
      name = tail.takeWhile isReferenceChar ∧ behind = tail.dropWhile isReferenceChar := by
  constructor
  · rintro ⟨hblanks, hname, hbehind⟩
    refine ⟨_, name ++ behind, after?_append _ _, ?_, ?_, ?_⟩
    · rw [List.append_assoc, trimStart_blanks_append hblanks]
      have hsolid : BeginsSolid ("--".toList ++ (name ++ behind)) := ⟨'-', _, rfl, by decide⟩
      rw [hsolid.trimStart_eq, after?_append]
    · exact (takeWhile_append_exact hname hbehind).symm
    · exact (dropWhile_append_exact hname hbehind).symm
  · rintro ⟨call, tail, hcall, htail, rfl, rfl⟩
    obtain ⟨blanks, hsplit, hblanks⟩ := exists_append_trimStart call
    rw [eq_append_of_after? htail, ← List.append_assoc,
      ← List.takeWhile_append_dropWhile (p := isReferenceChar) (l := tail)] at hsplit
    rw [eq_append_of_after? hcall, hsplit]
    refine .intro hblanks ?_ ?_
    · exact List.all_eq_true.mp List.all_takeWhile
    · intro c hc
      have hhead := List.head?_dropWhile_not isReferenceChar tail
      rw [Option.mem_def.mp hc] at hhead
      simpa using hhead

theorem IsCall.length_lt {name behind t : Text} (h : IsCall name behind t) :
    behind.length < t.length := by
  cases h
  simp only [List.length_append]
  have hcall : "var(".toList.length = 4 := rfl
  omega

theorem IsCall.name_unique {name name' behind behind' t : Text} (h : IsCall name behind t)
    (h' : IsCall name' behind' t) : name = name' := by
  obtain ⟨call, tail, hcall, htail, rfl, -⟩ := isCall_iff.mp h
  obtain ⟨call', tail', hcall', htail', rfl, -⟩ := isCall_iff.mp h'
  obtain rfl := Option.some.inj (hcall.symm.trans hcall')
  obtain rfl := Option.some.inj (htail.symm.trans htail')
  rfl

theorem referenceList_of_isCall {name behind t : Text} (h : IsCall name behind t) :
    referenceList t =
      if name.isEmpty then referenceList behind else name :: referenceList behind := by
  obtain ⟨call, tail, hcall, htail, rfl, rfl⟩ := isCall_iff.mp h
  cases t with
  | nil => cases hcall
  | cons c t =>
      have hcall' : after? ['v', 'a', 'r', '('] (c :: t) = some call := hcall
      have htail' : after? ['-', '-'] (trimStart call) = some tail := htail
      rw [referenceList]
      split
      next hnone => rw [hcall'] at hnone; cases hnone
      next call' hsome =>
        rw [hcall', Option.some.injEq] at hsome
        subst hsome
        split
        next hnone => rw [htail'] at hnone; cases hnone
        next tail' hsome =>
          rw [htail', Option.some.injEq] at hsome
          subst hsome
          rfl

/-- A call begins with its first letter, so that other characters can be passed over. -/
theorem referenceList_cons_of_ne {c : Char} (hc : c ≠ 'v') (t : Text) :
    referenceList (c :: t) = referenceList t := by
  have hnone : after? ['v', 'a', 'r', '('] (c :: t) = none := if_neg fun heq => hc heq.symm
  rw [referenceList]
  split
  next => rfl
  next call hsome => rw [hnone] at hsome; cases hsome

theorem referenceList_append_of_ne {lead : Text} (h : ∀ c ∈ lead, c ≠ 'v') (t : Text) :
    referenceList (lead ++ t) = referenceList t := by
  induction lead with
  | nil => rfl
  | cons c lead ih =>
      rw [List.cons_append, referenceList_cons_of_ne (h c List.mem_cons_self),
        ih fun x hx => h x (List.mem_cons_of_mem c hx)]

theorem referenceList_skip {c : Char} {t : Text} (h : ∀ name behind, ¬ IsCall name behind (c :: t)) :
    referenceList (c :: t) = referenceList t := by
  rw [referenceList]
  split
  next => rfl
  next call hcall =>
    split
    next =>
      -- What follows the parenthesis is read from its first character that is no blank on.
      obtain ⟨blanks, hsplit, hblanks⟩ := exists_append_trimStart call
      have hskip : referenceList call = referenceList (trimStart call) := by
        have hne : ∀ x ∈ blanks, x ≠ 'v' := by
          rintro x hx rfl
          exact absurd (hblanks 'v' hx) (by decide)
        rw [hsplit, referenceList_append_of_ne hne, ← hsplit]
      have htext := (List.cons.inj (eq_append_of_after? hcall)).2
      have hlead : ∀ x ∈ ['a', 'r', '('], x ≠ 'v' := by simp
      rw [← hskip, htext]
      exact (referenceList_append_of_ne hlead call).symm
    next tail htail => exact absurd (isCall_iff.mpr ⟨call, tail, hcall, htail, rfl, rfl⟩) (h _ _)

theorem mentions_of_mem {t name : Text} (h : name ∈ referenceList t) : Mentions t name := by
  induction hlength : t.length using Nat.strongRecOn generalizing t with
  | _ n ih =>
      cases t with
      | nil =>
          rw [referenceList] at h
          exact absurd h List.not_mem_nil
      | cons c t =>
          by_cases hcall : ∃ other behind, IsCall other behind (c :: t)
          · obtain ⟨other, behind, hcall⟩ := hcall
            have hrest (hin : name ∈ referenceList behind) : Mentions (c :: t) name :=
              .behind hcall (ih _ (hlength ▸ hcall.length_lt) hin rfl)
            rw [referenceList_of_isCall hcall] at h
            split at h
            next => exact hrest h
            next hne =>
              rcases List.mem_cons.mp h with rfl | h
              · exact .here hcall fun hnil => hne (List.isEmpty_iff.mpr hnil)
              · exact hrest h
          · have hskip : ∀ other behind, ¬ IsCall other behind (c :: t) := fun other behind hin =>
              hcall ⟨other, behind, hin⟩
            rw [referenceList_skip hskip] at h
            exact .skip hskip (ih _ (hlength ▸ Nat.lt_succ_self t.length) h rfl)

theorem mem_references_iff {t name : Text} : name ∈ references t ↔ Mentions t name := by
  rw [references, NameSet.mem_ofList]
  constructor
  · exact mentions_of_mem
  · intro h
    induction h with
    | here hcall hname =>
        rw [referenceList_of_isCall hcall, if_neg fun hempty => hname (List.isEmpty_iff.mp hempty)]
        exact List.mem_cons_self
    | behind hcall _ ih =>
        rw [referenceList_of_isCall hcall]
        split
        next => exact ih
        next => exact List.mem_cons_of_mem _ ih
    | skip hcall _ ih =>
        rw [referenceList_skip hcall]
        exact ih

end UtilityCss.Theme
