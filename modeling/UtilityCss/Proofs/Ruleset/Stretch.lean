import UtilityCss.Proofs.Ruleset.Overlap

/-!
# Stretches of text under a change

What a change makes of a style sheet can be told stretch by stretch: the blanks that go with a rule
belong to the stretch of the rule, if what is made of the text behind begins with no blank. Such a
style sheet has no edits that overlap.
-/

namespace UtilityCss.Ruleset

open Text Css Selector

/-- The change makes `t'` of the text `t`, which shows the rules from byte `start` on; each of them
is closed, and none begins with a blank. -/
def Rewrites (change : Change) (start : Nat) (rs : List Rule) (t t' : Text) : Prop :=
  ∃ sections tail, t = sheet sections tail ∧ Laid start sections tail rs ∧
    (∀ s ∈ sections, s.close = ['\x7d'] ∧ BeginsSolid s.selector) ∧
    t' = rewritten change tail false sections

variable {change : Change}

theorem rewritten_true (change : Change) (tail : Text) (ss : List Section) :
    rewritten change tail true ss = trimStart (rewritten change tail false ss) := by
  obtain ⟨blanks, hblank, -, heq⟩ := exists_cut change tail ss
  rw [heq, trimStart_blanks_append hblank, trimStart_rewritten]

theorem rewritten_behind (front tail : Text) (s : Section) (ss : List Section) :
    rewritten change tail false (s.behind front :: ss) =
      front ++ rewritten change tail false (s :: ss) := by
  simp only [rewritten, Section.behind, Section.block, Bool.false_eq_true, if_false]
  split <;> simp only [List.append_assoc]

/-- Sections are rewritten alike in front of others if the tail between is trimmed alike. -/
theorem rewritten_append {tail tail' behind : Text} {ss' : List Section}
    (h : ∀ cut, rewritten change tail' cut ss' = rewritten change tail cut [] ++ behind)
    (cut : Bool) (ss : List Section) :
    rewritten change tail' cut (ss ++ ss') = rewritten change tail cut ss ++ behind := by
  induction ss generalizing cut with
  | nil => exact h cut
  | cons s ss ih =>
      simp only [List.cons_append, rewritten, ih]
      split <;> simp only [List.append_assoc]

namespace Rewrites

variable {start : Nat} {rs rs' : List Rule} {t t' u u' : Text}

theorem nil (t : Text) : Rewrites change start [] t t :=
  ⟨[], t, rfl, .nil, fun _ hs => absurd hs List.not_mem_nil, rfl⟩

theorem behind (front : Text) (h : Rewrites change (start + size front) rs t u) :
    Rewrites change start rs (front ++ t) (front ++ u) := by
  obtain ⟨sections, tail, rfl, hlaid, hplain, rfl⟩ := h
  cases sections with
  | nil =>
      cases hlaid
      exact nil (front ++ tail)
  | cons first ss =>
      refine ⟨first.behind front :: ss, tail, ?_, hlaid.behind, ?_, ?_⟩
      · rw [sheet_cons, sheet_cons, Section.text_behind, List.append_assoc]
      · obtain ⟨hfirst, hss⟩ := List.forall_mem_cons.mp hplain
        exact List.forall_mem_cons.mpr ⟨hfirst, hss⟩
      · exact (rewritten_behind front tail first ss).symm

theorem append (h : Rewrites change start rs t u)
    (h' : Rewrites change (start + size t) rs' t' u') (hsolid : BeginsSolid u') :
    Rewrites change start (rs ++ rs') (t ++ t') (u ++ u') := by
  obtain ⟨ss, tail, rfl, hlaid, hplain, rfl⟩ := h
  have hclosed : ∀ s ∈ ss, s.close = ['\x7d'] := fun s hs => (hplain s hs).1
  have hsplit : sheet ss tail = sheet ss [] ++ tail := by simp [sheet]
  rw [hsplit, size_append, ← Nat.add_assoc] at h'
  obtain ⟨ss', tail', heq, hlaid', hplain', hrewritten⟩ := h'.behind tail
  refine ⟨ss ++ ss', tail', ?_, (hlaid.of_tail hclosed []).append hclosed hlaid', ?_, ?_⟩
  · rw [sheet_append, ← heq, hsplit, List.append_assoc]
  · exact List.forall_mem_append.mpr ⟨hplain, hplain'⟩
  · -- The tail of the first stretch is now the lead of the second, and is trimmed as the tail was.
    refine (rewritten_append (fun cut => ?_) false ss).symm
    cases cut with
    | false => exact hrewritten.symm
    | true =>
        rw [rewritten_true, ← hrewritten, trimStart_append_solid tail hsolid, rewritten, if_pos rfl]

/-- A rule in front of others: either its selector is changed, or it goes, and the blanks behind it
with it. -/
theorem rule {selector gap body : Text} (atRules : List Text) (hsolid : BeginsSolid selector)
    (htrim : trimEnd (selector ++ gap) = selector) (hgap : ∀ c ∈ gap, isBlank c = true)
    (h : Rewrites change (start + size (selector ++ gap) + 1 + size body + 1) rs t u) :
    Rewrites change start (ruleAt atRules start (selector ++ gap) body :: rs)
      (selector ++ gap ++ '\x7b' :: (body ++ '\x7d' :: t))
      (if (modifyList change selector).found then
        (modifyList change selector).selector ++ gap ++ '\x7b' :: (body ++ '\x7d' :: u)
      else trimStart u) := by
  obtain ⟨ss, tail, rfl, hlaid, hplain, rfl⟩ := h
  let s : Section := ⟨[], selector, gap, body, ['\x7d']⟩
  have hsize : size s.text = size (selector ++ gap) + 1 + size body + 1 := Section.size_text s
  refine ⟨s :: ss, tail, ?_, .cons (Section.shows_ruleAt htrim hgap) (Or.inl rfl) ?_, ?_, ?_⟩
  · rw [sheet_cons]
    simp [s, Section.text, Section.block]
  · rw [hsize, ← Nat.add_assoc, ← Nat.add_assoc, ← Nat.add_assoc]
    exact hlaid
  · exact List.forall_mem_cons.mpr ⟨⟨rfl, hsolid⟩, hplain⟩
  · rw [← rewritten_true]
    simp only [rewritten, s, Section.block, Bool.false_eq_true, if_false]
    split <;> simp

/-- Text in front that ends in a brace or a semicolon. -/
theorem behind_stop (front : Text) {stop : Char} (hstop : stop.utf8Size = 1)
    (h : Rewrites change (start + size front + 1) rs t u) :
    Rewrites change start rs (front ++ stop :: t) (front ++ stop :: u) := by
  have hsize : start + size (front ++ [stop]) = start + size front + 1 := by
    rw [size_append, size_cons, size_nil, hstop, Nat.add_zero, Nat.add_assoc]
  rw [← hsize] at h
  simpa using h.behind (front ++ [stop])

/-- A block in front of other text: its brace keeps the blanks behind it from those inside. -/
theorem block (front : Text) {body body' : Text}
    (h : Rewrites change (start + size front + 1) rs body body')
    (h' : Rewrites change (start + size front + 1 + size body + 1) rs' t u) :
    Rewrites change start (rs ++ rs') (front ++ '\x7b' :: (body ++ '\x7d' :: t))
      (front ++ '\x7b' :: (body' ++ '\x7d' :: u)) :=
  (h.append (behind_stop [] rfl h') ⟨'\x7d', u, rfl, by decide⟩).behind_stop front rfl

end Rewrites

theorem apart_of_solid {ss : List Section} (h : ∀ s ∈ ss, BeginsSolid s.selector) :
    Apart change ss := by
  induction ss with
  | nil => exact .nil
  | cons s ss ih =>
      obtain ⟨-, hss⟩ := List.forall_mem_cons.mp h
      refine apart_cons_iff.mpr ⟨fun _ s' hs' => ?_, ih hss⟩
      have hsolid := (hss s' (List.mem_of_mem_head? hs')).append s'.block
      rw [Section.StandsOut, Section.text, List.append_assoc, trimStart_append_solid _ hsolid,
        List.append_assoc]

theorem modifyRules_of_rewrites {css t : Text}
    (h : Rewrites change 0 ((parse (trim css)).rules.filter (!·.isKeyframe)) (trim css) t) :
    ∃ result, modifyRules change css = some result ∧ result.css = trimEnd t := by
  obtain ⟨sections, tail, hsource, hlaid, hplain, rfl⟩ := h
  exact ⟨_, modifyRules_of_apart hsource hlaid (apart_of_solid fun s hs => (hplain s hs).2), rfl⟩

end UtilityCss.Ruleset
