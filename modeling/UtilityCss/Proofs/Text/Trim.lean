import UtilityCss.Text.Basic

/-!
# Trimmed texts

Blanks at the ends make no difference to a trimmed text, and a text that is trimmed already begins
and ends with other characters.
-/

namespace UtilityCss.Text

theorem trimStart_blanks_append {ws : Text} (h : ∀ c ∈ ws, isBlank c = true) (t : Text) :
    trimStart (ws ++ t) = trimStart t :=
  List.dropWhile_append_of_pos h

theorem trimEnd_append_blanks {ws : Text} (h : ∀ c ∈ ws, isBlank c = true) (t : Text) :
    trimEnd (t ++ ws) = trimEnd t := by
  unfold trimEnd
  rw [List.reverse_append, List.dropWhile_append_of_pos]
  intro c hc
  exact h c (List.mem_reverse.mp hc)

theorem trimStart_blanks {ws : Text} (h : ∀ c ∈ ws, isBlank c = true) : trimStart ws = [] := by
  simpa [trimStart] using trimStart_blanks_append h []

theorem trim_append_blanks {ws : Text} (h : ∀ c ∈ ws, isBlank c = true) (t : Text) :
    trim (t ++ ws) = trim t := by
  unfold trim
  have hsplit : trimStart (t ++ ws) =
      if (trimStart t).isEmpty then trimStart ws else trimStart t ++ ws := List.dropWhile_append
  rw [hsplit]
  by_cases hempty : (trimStart t).isEmpty = true
  · rw [if_pos hempty, trimStart_blanks h, List.isEmpty_iff.mp hempty]
  · rw [if_neg hempty, trimEnd_append_blanks h]

theorem trim_blanks_append {ws : Text} (h : ∀ c ∈ ws, isBlank c = true) (t : Text) :
    trim (ws ++ t) = trim t := by
  unfold trim
  rw [trimStart_blanks_append h]

theorem trim_padded {ws ws' : Text} (h : ∀ c ∈ ws ++ ws', isBlank c = true) (t : Text) :
    trim (ws ++ (t ++ ws')) = trim t := by
  obtain ⟨hws, hws'⟩ := List.forall_mem_append.mp h
  rw [trim_blanks_append hws, trim_append_blanks hws']

theorem exists_trimEnd_append (t : Text) :
    ∃ blanks, t = trimEnd t ++ blanks ∧ ∀ c ∈ blanks, isBlank c = true := by
  refine ⟨(t.reverse.takeWhile isBlank).reverse, ?_, ?_⟩
  · rw [trimEnd, ← List.reverse_append, List.takeWhile_append_dropWhile, List.reverse_reverse]
  · intro c hc
    exact List.all_eq_true.mp List.all_takeWhile c (List.mem_reverse.mp hc)

def BeginsSolid (t : Text) : Prop :=
  ∃ c rest, t = c :: rest ∧ isBlank c = false

theorem BeginsSolid.append {t : Text} (h : BeginsSolid t) (t' : Text) : BeginsSolid (t ++ t') := by
  obtain ⟨c, rest, heq, hc⟩ := h
  exact ⟨c, rest ++ t', by rw [heq]; rfl, hc⟩

theorem BeginsSolid.trimStart_eq {t : Text} (h : BeginsSolid t) : trimStart t = t := by
  obtain ⟨c, rest, heq, hc⟩ := h
  rw [heq]
  exact List.dropWhile_cons_of_neg (by rw [hc]; decide)

theorem trimStart_eq_nil_or (t : Text) : trimStart t = [] ∨ BeginsSolid (trimStart t) := by
  induction t with
  | nil => exact Or.inl rfl
  | cons c t ih =>
      by_cases hc : isBlank c = true
      · rw [trimStart, List.dropWhile_cons_of_pos hc]
        exact ih
      · rw [trimStart, List.dropWhile_cons_of_neg hc]
        exact Or.inr ⟨c, t, rfl, by simpa using hc⟩

theorem trimStart_trimStart (t : Text) : trimStart (trimStart t) = trimStart t := by
  rcases trimStart_eq_nil_or t with hnil | hsolid
  · rw [hnil]
    rfl
  · exact hsolid.trimStart_eq

theorem exists_append_trimStart (t : Text) :
    ∃ blanks, t = blanks ++ trimStart t ∧ ∀ c ∈ blanks, isBlank c = true :=
  ⟨t.takeWhile isBlank, List.takeWhile_append_dropWhile.symm,
    List.all_eq_true.mp List.all_takeWhile⟩

theorem isBlank_of_trimStart_eq_nil {t : Text} (h : trimStart t = []) :
    ∀ c ∈ t, isBlank c = true := by
  obtain ⟨blanks, heq, hblank⟩ := exists_append_trimStart t
  rw [h, List.append_nil] at heq
  rw [heq]
  exact hblank

theorem beginsSolid_trim {t : Text} (h : trim t ≠ []) : BeginsSolid (trim t) := by
  obtain ⟨blanks, heq, hblank⟩ := exists_trimEnd_append (trimStart t)
  rcases trimStart_eq_nil_or t with hnil | hsolid
  · rw [trim, hnil] at h
    exact absurd rfl h
  · obtain ⟨c, rest, hrest, hc⟩ := hsolid
    rw [hrest] at heq
    unfold trim at h ⊢
    rw [hrest] at h ⊢
    cases hend : trimEnd (c :: rest) with
    | nil => exact absurd hend h
    | cons first behind =>
        rw [hend, List.cons_append, List.cons.injEq] at heq
        exact ⟨first, behind, rfl, heq.1 ▸ hc⟩

theorem isBlank_of_trim_eq_nil {t : Text} (h : trim t = []) : ∀ c ∈ t, isBlank c = true := by
  obtain ⟨blanks, heq, hblanks⟩ := exists_trimEnd_append (trimStart t)
  obtain ⟨ws, ht, hws⟩ := exists_append_trimStart t
  rw [show trimEnd (trimStart t) = [] from h, List.nil_append] at heq
  rw [ht, heq]
  exact List.forall_mem_append.mpr ⟨hws, hblanks⟩

theorem isBlank_head_of_trim {c : Char} {t : Text} (h : trim (c :: t) = c :: t) :
    isBlank c = false := by
  have hne : trim (c :: t) ≠ [] := by
    rw [h]
    exact List.cons_ne_nil c t
  obtain ⟨first, rest, heq, hfirst⟩ := beginsSolid_trim hne
  rw [h, List.cons.injEq] at heq
  rw [heq.1]
  exact hfirst

theorem trimStart_of_trim {t : Text} (h : trim t = t) : trimStart t = t := by
  cases t with
  | nil => rfl
  | cons c t => exact BeginsSolid.trimStart_eq ⟨c, t, rfl, isBlank_head_of_trim h⟩

theorem trimEnd_of_trim {t : Text} (h : trim t = t) : trimEnd t = t := by
  have hstart := trimStart_of_trim h
  rw [trim, hstart] at h
  exact h

def EndsSolid (t : Text) : Prop :=
  ∃ front c, t = front ++ [c] ∧ isBlank c = false

theorem EndsSolid.append {t : Text} (h : EndsSolid t) (s : Text) : EndsSolid (s ++ t) := by
  obtain ⟨front, c, heq, hc⟩ := h
  exact ⟨s ++ front, c, by rw [heq, List.append_assoc], hc⟩

theorem EndsSolid.trimEnd_eq {t : Text} (h : EndsSolid t) : trimEnd t = t := by
  obtain ⟨front, c, heq, hc⟩ := h
  rw [heq, trimEnd, List.reverse_append, List.reverse_singleton, List.singleton_append,
    List.dropWhile_cons_of_neg (by rw [hc]; decide), List.reverse_cons, List.reverse_reverse]

theorem trimEnd_eq_nil_or (t : Text) : trimEnd t = [] ∨ EndsSolid (trimEnd t) := by
  have hstart : ∀ s : Text, trimEnd s = (trimStart s.reverse).reverse := fun s => rfl
  rw [hstart]
  rcases trimStart_eq_nil_or t.reverse with hnil | ⟨c, rest, heq, hc⟩
  · left
    rw [hnil]
    rfl
  · right
    exact ⟨rest.reverse, c, by rw [heq, List.reverse_cons], hc⟩

theorem endsSolid_of_trim {t : Text} (h : trim t = t) (hne : t ≠ []) : EndsSolid t := by
  have hend := trimEnd_of_trim h
  rcases trimEnd_eq_nil_or t with hnil | hsolid
  · rw [hend] at hnil
    exact absurd hnil hne
  · rw [hend] at hsolid
    exact hsolid

theorem beginsSolid_of_trim {t : Text} (h : trim t = t) (hne : t ≠ []) : BeginsSolid t := by
  rw [← h] at hne ⊢
  exact beginsSolid_trim hne

theorem trim_of_solid {t : Text} (h : BeginsSolid t) (h' : EndsSolid t) : trim t = t := by
  rw [trim, h.trimStart_eq, h'.trimEnd_eq]

theorem trim_trim (t : Text) : trim (trim t) = trim t := by
  by_cases hnil : trim t = []
  · rw [hnil]
    rfl
  · have hends := (trimEnd_eq_nil_or (trimStart t)).resolve_left hnil
    exact trim_of_solid (beginsSolid_trim hnil) hends

/-- What stands in front of a character that is no blank stays. -/
theorem trimEnd_append_cons (s : Text) {c : Char} (hc : isBlank c = false) (t : Text) :
    trimEnd (s ++ c :: t) = s ++ c :: trimEnd t := by
  obtain ⟨blanks, heq, hblank⟩ := exists_trimEnd_append t
  have hsplit : s ++ c :: t = (s ++ c :: trimEnd t) ++ blanks := by
    rw [List.append_assoc, List.cons_append, ← heq]
  have hsolid : EndsSolid (s ++ c :: trimEnd t) := by
    rcases trimEnd_eq_nil_or t with hnil | hsolid
    · exact ⟨s, c, by rw [hnil], hc⟩
    · exact hsolid.append [c] |>.append s
  rw [hsplit, trimEnd_append_blanks hblank, hsolid.trimEnd_eq]

theorem trimEnd_append_trimEnd (s t : Text) : trimEnd (s ++ trimEnd t) = trimEnd (s ++ t) := by
  obtain ⟨blanks, heq, hblank⟩ := exists_trimEnd_append t
  have hsplit : s ++ t = (s ++ trimEnd t) ++ blanks := by rw [List.append_assoc, ← heq]
  rw [hsplit, trimEnd_append_blanks hblank]

theorem head?_trimEnd {c : Char} (hc : isBlank c = false) (t : Text) :
    (trimEnd t).head? = some c ↔ t.head? = some c := by
  constructor
  · intro h
    obtain ⟨blanks, heq, -⟩ := exists_trimEnd_append t
    rw [heq, List.head?_append, h, Option.some_or]
  · intro h
    obtain ⟨rest, rfl⟩ := List.head?_eq_some_iff.mp h
    rw [← List.nil_append (c :: rest), trimEnd_append_cons [] hc]
    rfl

theorem endsSolid_append {s t : Text} (hs : s = [] ∨ EndsSolid s) (ht : t = [] ∨ EndsSolid t) :
    s ++ t = [] ∨ EndsSolid (s ++ t) := by
  rcases ht with rfl | ht
  · rwa [List.append_nil]
  · exact Or.inr (ht.append s)

theorem endsSolid_of_append {s t : Text} (h : EndsSolid (s ++ t)) : t = [] ∨ EndsSolid t := by
  rcases List.eq_nil_or_concat t with hnil | ⟨front, c, hconcat⟩
  · exact Or.inl hnil
  · right
    obtain ⟨front', c', heq, hc'⟩ := h
    rw [List.concat_eq_append] at hconcat
    rw [hconcat, ← List.append_assoc] at heq
    have hlast : c = c' := by
      have hget := congrArg List.getLast? heq
      rw [List.getLast?_concat, List.getLast?_concat] at hget
      exact Option.some.inj hget
    exact ⟨front, c, hconcat, hlast ▸ hc'⟩

/-- Only the part in front is trimmed where it does not all go. -/
theorem trimStart_append {s : Text} (h : trimStart s ≠ []) (t : Text) :
    trimStart (s ++ t) = trimStart s ++ t := by
  have hsplit : trimStart (s ++ t) =
      if (trimStart s).isEmpty then trimStart t else trimStart s ++ t := List.dropWhile_append
  rw [hsplit, if_neg]
  intro hempty
  exact h (List.isEmpty_iff.mp hempty)

theorem trimStart_append_solid (s : Text) {t : Text} (h : BeginsSolid t) :
    trimStart (s ++ t) = trimStart s ++ t := by
  by_cases hnil : trimStart s = []
  · rw [trimStart_blanks_append (isBlank_of_trimStart_eq_nil hnil), h.trimStart_eq, hnil,
      List.nil_append]
  · exact trimStart_append hnil t

end UtilityCss.Text
