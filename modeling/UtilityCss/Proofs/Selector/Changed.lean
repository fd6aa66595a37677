import UtilityCss.Proofs.Selector.Modify
import UtilityCss.Proofs.Selector.Suffix
import UtilityCss.Proofs.Selector.Token

/-!
# Changed selectors are read back

A selector list is a prelude after a change as it was before: whatever the new name is, its escapes
keep it in one piece, and the states and the pseudo-element close their brackets.
-/

namespace UtilityCss.Selector

open Text Css Stylesheet

structure IsPiece (t : Text) : Prop where
  starts : ∃ c rest, t = c :: rest ∧ isBare c = true ∧ c ≠ '@'
  trimmed : trim t = t
  scans : Scans 0 t 0

namespace IsPiece

variable {t : Text}

theorem isPrelude (h : IsPiece t) : IsPrelude t := by
  obtain ⟨c, rest, heq, hbare, -⟩ := h.starts
  have hscans := h.scans
  rw [heq] at hscans
  exact ⟨⟨c, rest, heq, hbare, (hscans.of_cons hbare).2.1⟩, h.trimmed, h.scans.whole,
    h.scans.preludeDepth?_eq⟩

theorem head?_ne (h : IsPiece t) : t.head? ≠ some '@' := by
  obtain ⟨c, rest, heq, -, hat⟩ := h.starts
  rw [heq, List.head?_cons]
  exact fun hsome => hat (Option.some.inj hsome)

theorem beginsSolid (h : IsPiece t) : BeginsSolid t := h.isPrelude.beginsSolid

theorem endsSolid (h : IsPiece t) : EndsSolid t := by
  obtain ⟨c, rest, heq, -⟩ := h.starts
  exact endsSolid_of_trim h.trimmed (by rw [heq]; exact List.cons_ne_nil c rest)

/-- The members of a list stand on lines of their own. -/
theorem join {ts : List Text} (hne : ts ≠ []) (h : ∀ t ∈ ts, IsPiece t) :
    IsPiece (join [',', '\n'] ts) := by
  induction ts with
  | nil => exact absurd rfl hne
  | cons t ts ih =>
      have ht := h t List.mem_cons_self
      cases ts with
      | nil =>
          rw [Text.join]
          exact ht
      | cons second ts =>
          have hrest := ih (List.cons_ne_nil second ts) fun x hx => h x (List.mem_cons_of_mem t hx)
          have hjoin : Text.join [',', '\n'] (t :: second :: ts) =
              t ++ ([',', '\n'] ++ Text.join [',', '\n'] (second :: ts)) := by
            rw [Text.join, List.append_assoc]
            exact List.cons_ne_nil second ts
          have hsteady : Steady [',', '\n'] := .of_forall (by simp [isSteady, isBare, isQuote])
          rw [hjoin]
          refine ⟨?_, ?_, ?_⟩
          · obtain ⟨c, rest, heq, hbare, hat⟩ := ht.starts
            exact ⟨c, _, by rw [heq]; rfl, hbare, hat⟩
          · exact trim_of_solid (ht.beginsSolid.append _)
              ((hrest.endsSolid.append [',', '\n']).append t)
          · exact ht.scans.append (hsteady 0 _ 0 hrest.scans) (by simp)

end IsPiece

namespace IsMember

variable {m : Text}

theorem isBare (h : IsMember m) : ∀ c ∈ m, isBare c = true := fun c hc => (h.nested.isBare c hc).1

theorem endsSolid (h : IsMember m) : EndsSolid m := endsSolid_of_trim h.trimmed h.nonempty

theorem scans (h : IsMember m) : Scans 0 m 0 := by
  refine .of_bare h.nested.isBare h.uncommented ?_
  have hdepth := h.nested.bracketDepth?_append 0 []
  rwa [List.append_nil] at hdepth

theorem starts (h : IsMember m) : ∃ c rest, m = c :: rest ∧ Css.isBare c = true ∧ c ≠ '@' := by
  obtain ⟨c, rest, heq⟩ := List.exists_cons_of_ne_nil h.nonempty
  refine ⟨c, rest, heq, h.isBare c (heq ▸ List.mem_cons_self), ?_⟩
  intro hat
  exact h.atFree (by rw [heq, hat]; rfl)

theorem isPiece (h : IsMember m) : IsPiece m := ⟨h.starts, h.trimmed, h.scans⟩

end IsMember

structure Change.Fits (change : Change) : Prop where
  steady : Steady change.newName
  endsSolid : change.newName = [] ∨ EndsSolid change.newName
  links : ∀ l ∈ links change.states, IsSuffix l
  element : IsSuffix change.pseudoElement

section Parts

variable {front name behind rest newName added element : Text}

theorem scans_parts (hscans : Scans 0 (front ++ '.' :: (name ++ (behind ++ rest))) 0)
    (hbare : ∀ c ∈ front ++ '.' :: (name ++ (behind ++ rest)), isBare c = true)
    (hname : ∀ c ∈ name, isPlain c = true) (hnew : Steady newName) (hadded : IsSuffix added)
    (helement : IsSuffix element) :
    Scans 0 (front ++ '.' :: (newName ++ (behind ++ (added ++ (element ++ rest))))) 0 := by
  refine hscans.replace (fun c hc => hbare c (List.mem_append_left _ hc)) ?_ (fun h => by simp at h)
  intro depth htoken
  obtain ⟨-, -, deeper, hdepth, hbehindName⟩ := htoken.of_cons (by decide)
  refine .char (by decide) (by decide) (fun h => absurd h (by decide)) hdepth (hnew _ _ _ ?_)
  have hcompound : Scans deeper (behind ++ rest) 0 :=
    hbehindName.of_steady_append fun c hc => isSteady_of_isPlain (hname c hc)
  refine hcompound.replace (fun c hc => hbare c (by simp [hc])) ?_ ?_
  · exact fun d h => hadded.steady d _ 0 (helement.steady d _ 0 h)
  · -- Nothing that is inserted begins with an asterisk.
    intro hhead
    refine Decidable.byContradiction fun hrest => ?_
    exact head?_append_ne hadded.head?_ne (head?_append_ne helement.head?_ne hrest) hhead

theorem endsSolid_parts (h : EndsSolid (front ++ '.' :: (name ++ (behind ++ rest))))
    (hnew : newName = [] ∨ EndsSolid newName) (hadded : IsSuffix added)
    (helement : IsSuffix element) :
    EndsSolid (front ++ '.' :: (newName ++ (behind ++ (added ++ (element ++ rest))))) := by
  have hall : newName ++ (behind ++ (added ++ (element ++ rest))) = [] ∨
      EndsSolid (newName ++ (behind ++ (added ++ (element ++ rest)))) := by
    have hrest : rest = [] ∨ EndsSolid rest := by
      refine endsSolid_of_append (s := front ++ '.' :: (name ++ behind)) ?_
      simpa using h
    rcases hrest with rfl | hrest
    · have hbehind : behind = [] ∨ EndsSolid behind := by
        refine endsSolid_of_append (s := front ++ '.' :: name) ?_
        simpa using h
      have hinserted := endsSolid_append hadded.endsSolid
        (endsSolid_append helement.endsSolid (Or.inl rfl))
      exact endsSolid_append hnew (endsSolid_append hbehind hinserted)
    · exact Or.inr ((((hrest.append element).append added).append behind).append newName)
  rcases hall with hnil | hsolid
  · rw [hnil]
    exact ⟨front, '.', rfl, by decide⟩
  · have hsplit : ∀ t : Text, front ++ '.' :: t = (front ++ ['.']) ++ t := by simp
    rw [hsplit]
    exact hsolid.append _

theorem starts_parts {t t' : Text}
    (h : ∃ c behind, front ++ '.' :: t = c :: behind ∧ isBare c = true ∧ c ≠ '@') :
    ∃ c behind, front ++ '.' :: t' = c :: behind ∧ isBare c = true ∧ c ≠ '@' := by
  cases front with
  | nil => exact ⟨'.', t', rfl, by decide, by decide⟩
  | cons first front =>
      obtain ⟨c, behind, heq, hc⟩ := h
      rw [List.cons_append, List.cons.injEq] at heq
      exact ⟨first, front ++ '.' :: t', rfl, heq.1 ▸ hc⟩

end Parts

/-- A selector that ends with no blank does so after a change. -/
theorem endsSolid_modify {change : Change} (hname : change.newName = [] ∨ EndsSolid change.newName)
    (hlinks : ∀ l ∈ links change.states, IsSuffix l) (helement : IsSuffix change.pseudoElement)
    {m : Text} (hm : EndsSolid m) : EndsSolid (modify change m).selector := by
  cases htoken : findClassToken (escape change.className) m with
  | none =>
      rw [modify_of_not_found htoken]
      exact hm
  | some token =>
      obtain ⟨front, behind, element, hfront, htext, hmodify, hinserted, -⟩ := modify_parts htoken
      have hadded : IsSuffix (splitStates (upTo token (afterCompound token)) change.states).2.flatten :=
        IsSuffix.flatten fun l hl => hlinks l (mem_added hl)
      have helementSuffix : IsSuffix element := by
        rcases hinserted with rfl | rfl
        · exact .nil
        · exact helement
      rw [hfront, congrArg (front ++ ·) htext] at hm
      rw [hmodify]
      exact endsSolid_parts hm hname hadded helementSuffix

/-- A changed member may stand in a style sheet, as the member may. -/
theorem isPiece_modify {change : Change} (hchange : change.Fits) {m : Text} (hm : IsMember m) :
    IsPiece (modify change m).selector := by
  cases htoken : findClassToken (escape change.className) m with
  | none =>
      rw [modify_of_not_found htoken]
      exact hm.isPiece
  | some token =>
      have hplain : ∀ c ∈ escape change.className, isPlain c = true := by
        obtain ⟨hsuffix, t, ht⟩ := findClassToken_spec htoken
        refine isPlain_of_mem_escape fun hin => ?_
        have hmem : '\x5c' ∈ m := hsuffix.subset (by rw [ht]; simp [hin])
        exact absurd (hm.isBare _ hmem) (by decide)
      obtain ⟨front, behind, element, hfront, htext, hmodify, helement, -⟩ := modify_parts htoken
      have hparts := hfront.trans (congrArg (front ++ ·) htext)
      have haddedSuffix :
          IsSuffix (splitStates (upTo token (afterCompound token)) change.states).2.flatten :=
        IsSuffix.flatten fun l hl => hchange.links l (mem_added hl)
      have helementSuffix : IsSuffix element := by
        rcases helement with rfl | rfl
        · exact .nil
        · exact hchange.element
      have hscans := hm.scans
      have hbare := hm.isBare
      have hstarts := hm.starts
      have hbegins := beginsSolid_modify (beginsSolid_of_trim hm.trimmed hm.nonempty) change
      have hends := endsSolid_modify hchange.endsSolid hchange.links hchange.element hm.endsSolid
      rw [hparts] at hscans hbare hstarts
      rw [hmodify] at hbegins hends ⊢
      refine ⟨starts_parts hstarts, trim_of_solid hbegins hends, ?_⟩
      exact scans_parts hscans hbare hplain hchange.steady haddedSuffix helementSuffix

theorem IsSelectorList.isMember {ms : List Text} {s : Text} (h : IsSelectorList ms s) :
    ms ≠ [] ∧ ∀ m ∈ ms, IsMember m := by
  induction h with
  | single hm => exact ⟨List.cons_ne_nil _ _, List.forall_mem_singleton.mpr hm⟩
  | cons hm _ _ _ ih => exact ⟨List.cons_ne_nil _ _, List.forall_mem_cons.mpr ⟨hm, ih.2⟩⟩

theorem modifyList_eq {ms : List Text} {s : Text} (h : IsSelectorList ms s) (change : Change) :
    (modifyList change s).selector = join [',', '\n'] (ms.map fun m => (modify change m).selector) ∧
      (modifyList change s).found = ms.any (hasClassToken (escape change.className)) := by
  rw [modifyList, members_eq h]
  refine ⟨by simp only [List.map_map]; rfl, ?_⟩
  rw [List.any_map]
  exact congrArg (fun p => ms.any p) (funext fun m => found_modify change m)

theorem isPiece_modifyList {change : Change} (hchange : change.Fits) {ms : List Text} {s : Text}
    (h : IsSelectorList ms s) : IsPiece (modifyList change s).selector := by
  obtain ⟨hne, hms⟩ := h.isMember
  rw [(modifyList_eq h change).1]
  refine IsPiece.join (fun hnil => hne (List.map_eq_nil_iff.mp hnil)) ?_
  intro t ht
  obtain ⟨m, hm, rfl⟩ := List.mem_map.mp ht
  exact isPiece_modify hchange (hms m hm)

end UtilityCss.Selector
