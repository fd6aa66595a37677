import UtilityCss.Proofs.Css.Cut
import UtilityCss.Proofs.Ruleset.Sections

/-!
# Texts that fit in front of a brace

Where a text fits in front of an opening brace as a prelude, or in front of a closing one as a body,
can be told from the text alone. What fits is read to its end wherever it stands.
-/

namespace UtilityCss.Ruleset

open Text Css

/-- Read as a prelude with an opening brace behind it, the text goes up to that brace. -/
def FitsPrelude (t : Text) : Prop :=
  (splitPrelude 0 (lexemes (t ++ ['\x7b']))).2 = [.symbol '\x7b']

def FitsBody (t : Text) : Prop :=
  (splitBody 0 (lexemes (t ++ ['\x7d']))).2 = [.symbol '\x7d']

instance (t : Text) : Decidable (FitsPrelude t) :=
  inferInstanceAs (Decidable (_ = _))

instance (t : Text) : Decidable (FitsBody t) :=
  inferInstanceAs (Decidable (_ = _))

def Passed (ls : List Lexeme) : Prop :=
  ∀ rest, splitPrelude 0 (ls ++ rest) = (ls ++ (splitPrelude 0 rest).1, (splitPrelude 0 rest).2)

variable {ls ls' left : List Lexeme} {stop : Lexeme} {depth : Nat} {t : Text}

/-- A lexeme ends the prelude, or the reading goes on at a depth that does not depend on the
rest. -/
theorem splitPrelude_step (depth : Nat) (l : Lexeme) :
    (depth = 0 ∧ ∀ ls, splitPrelude 0 (l :: ls) = ([], l :: ls)) ∨
      ∃ deeper, ∀ ls, splitPrelude depth (l :: ls) =
        (l :: (splitPrelude deeper ls).1, (splitPrelude deeper ls).2) := by
  cases l with
  | symbol c =>
      by_cases hstop : depth = 0 ∧ (c = '\x7b' ∨ c = ';' ∨ c = '\x7d')
      · exact .inl ⟨hstop.1, fun ls => by rw [splitPrelude, if_pos ⟨rfl, hstop.2⟩]⟩
      · exact .inr ⟨_, fun ls => by rw [splitPrelude, if_neg hstop]⟩
  | verbatim t => exact .inr ⟨depth, fun ls => rfl⟩
  | comment t => exact .inr ⟨depth, fun ls => rfl⟩

/-- Where the reading of a prelude stops, no brackets are open. -/
theorem splitPrelude_passes (h : splitPrelude depth (ls ++ stop :: left) = (ls, stop :: left))
    (rest : List Lexeme) :
    splitPrelude depth (ls ++ rest) = (ls ++ (splitPrelude 0 rest).1, (splitPrelude 0 rest).2) := by
  induction ls generalizing depth with
  | nil =>
      rcases splitPrelude_step depth stop with ⟨rfl, -⟩ | ⟨_, hstep⟩
      · rfl
      · rw [List.nil_append, hstep] at h
        simp at h
  | cons l ls ih =>
      rcases splitPrelude_step depth l with ⟨rfl, hstop⟩ | ⟨_, hstep⟩
      · rw [List.cons_append, hstop] at h
        simp at h
      · rw [List.cons_append, hstep, Prod.mk.injEq, List.cons.injEq] at h
        rw [List.cons_append, hstep, ih (Prod.ext h.1.2 h.2), List.cons_append]

/-- Where a prelude stops, it stops whatever stands behind. -/
theorem splitPrelude_cut (h : splitPrelude 0 (ls ++ stop :: left) = (ls, stop :: left))
    (rest : List Lexeme) : splitPrelude 0 (ls ++ stop :: rest) = (ls, stop :: rest) := by
  have hstop : splitPrelude 0 (stop :: left) = ([], stop :: left) := by
    rw [splitPrelude_passes h, Prod.mk.injEq] at h
    exact Prod.ext (List.append_right_eq_self.mp h.1) h.2
  rcases splitPrelude_step 0 stop with ⟨-, hends⟩ | ⟨deeper, hstep⟩
  · rw [splitPrelude_passes h, hends, List.append_nil]
  · rw [hstep, Prod.mk.injEq] at hstop
    exact absurd hstop.1 (List.cons_ne_nil _ _)

/-- A prelude that begins with a stretch is read on behind it, at some depth, as any other is. -/
theorem splitPrelude_behind {before head : List Lexeme}
    (h : splitPrelude depth (before ++ ls) = (before ++ head, left)) :
    ∃ deeper, splitPrelude deeper ls = (head, left) ∧
      ∀ rest, splitPrelude depth (before ++ rest) =
        (before ++ (splitPrelude deeper rest).1, (splitPrelude deeper rest).2) := by
  induction before generalizing depth with
  | nil => exact ⟨depth, h, fun _ => rfl⟩
  | cons l before ih =>
      rcases splitPrelude_step depth l with ⟨rfl, hstop⟩ | ⟨_, hstep⟩
      · rw [List.cons_append, hstop] at h
        simp at h
      · rw [List.cons_append, hstep, List.cons_append, Prod.mk.injEq, List.cons.injEq] at h
        obtain ⟨deeper, hread, hother⟩ := ih (Prod.ext h.1.2 h.2)
        refine ⟨deeper, hread, fun rest => ?_⟩
        rw [List.cons_append, hstep, hother, List.cons_append]

theorem Passed.append (h : Passed ls) (h' : Passed ls') : Passed (ls ++ ls') := by
  intro rest
  rw [List.append_assoc, h, h', List.append_assoc]

/-- What stands behind lexemes that are passed is passed if all are. -/
theorem Passed.of_append (h : Passed ls) (h' : Passed (ls ++ ls')) : Passed ls' := by
  intro rest
  have hall := h' rest
  rw [List.append_assoc, h, List.append_assoc, Prod.mk.injEq] at hall
  exact Prod.ext (List.append_cancel_left hall.1) hall.2

theorem Passed.splitPrelude_eq (h : Passed ls) {c : Char} (hc : c = '\x7b' ∨ c = ';')
    (rest : List Lexeme) :
    splitPrelude 0 (ls ++ .symbol c :: rest) = (ls, .symbol c :: rest) := by
  rw [h, splitPrelude_stop hc, List.append_nil]

theorem passed_of_preludeDepth? (h : preludeDepth? 0 ls = some 0) : Passed ls :=
  splitPrelude_balanced h

theorem splitBody_passes (h : splitBody depth (ls ++ stop :: left) = (ls, stop :: left))
    (extra : Nat) (rest : List Lexeme) :
    splitBody (depth + extra) (ls ++ rest) =
      (ls ++ (splitBody extra rest).1, (splitBody extra rest).2) := by
  induction ls generalizing depth with
  | nil =>
      by_cases hstop : depth = 0 ∧ stop = .symbol '\x7d'
      · rw [hstop.1, Nat.zero_add]
        rfl
      · rw [List.nil_append, splitBody_cons hstop] at h
        simp at h
  | cons l ls ih =>
      by_cases hstop : depth = 0 ∧ l = .symbol '\x7d'
      · rw [hstop.1, hstop.2, List.cons_append, splitBody_close] at h
        simp at h
      · rw [List.cons_append, splitBody_cons hstop, Prod.mk.injEq, List.cons.injEq] at h
        rw [List.cons_append, splitBody_cons fun hc => hstop ⟨by omega, hc.2⟩,
          depthBehind_add hstop, ih (Prod.ext h.1.2 h.2), List.cons_append]

/-- A body that stops right behind the lexemes finds all their braces closed. -/
theorem closed_of_splitBody (h : splitBody 0 (ls ++ stop :: left) = (ls, stop :: left)) :
    Closed ls := by
  intro depth rest
  rw [← splitBody_passes h depth rest, Nat.zero_add]

theorem Closed.of_append (h : Closed ls) (h' : Closed (ls ++ ls')) : Closed ls' := by
  intro depth rest
  have hall := h' depth rest
  rw [List.append_assoc, h, List.append_assoc, Prod.mk.injEq] at hall
  exact Prod.ext (List.append_cancel_left hall.1) hall.2

theorem Closed.of_append_right (h : Closed ls') (h' : Closed (ls ++ ls')) : Closed ls := by
  have hall := h'.splitBody_eq []
  rw [List.append_assoc] at hall
  obtain ⟨depth, hread, hpass⟩ := splitBody_behind hall
  rw [h, Prod.mk.injEq] at hread
  have hdepth : splitBody depth [.symbol '\x7d'] = ([], [.symbol '\x7d']) :=
    Prod.ext (List.append_cancel_left (hread.1.trans (List.append_nil ls').symm)) hread.2
  have hstop : splitBody 0 (ls ++ [.symbol '\x7d']) = (ls, [.symbol '\x7d']) := by
    rw [hpass, hdepth, List.append_nil]
  exact closed_of_splitBody hstop

/-! ## Texts -/

/-- What is read in front of a brace stands by itself, and has no brackets left open. -/
theorem passed_of_split (h : splitPrelude 0 (lexemes t) = (ls, .symbol '\x7b' :: left)) :
    Stands (textOf ls) ∧ Passed (lexemes (textOf ls)) := by
  have hsplit := splitPrelude_append 0 (lexemes t)
  rw [h] at hsplit
  obtain ⟨hlexemes, hstands⟩ := stands_of_lexemes hsplit.symm
  rw [← hsplit] at h
  rw [hlexemes]
  exact ⟨hstands, splitPrelude_passes h⟩

theorem closed_of_split (h : splitBody 0 (lexemes t) = (ls, .symbol '\x7d' :: left)) :
    Stands (textOf ls) ∧ Closed (lexemes (textOf ls)) := by
  have hsplit := splitBody_append 0 (lexemes t)
  rw [h] at hsplit
  obtain ⟨hlexemes, hstands⟩ := stands_of_lexemes hsplit.symm
  rw [← hsplit] at h
  rw [hlexemes]
  exact ⟨hstands, closed_of_splitBody h⟩

theorem fitsPrelude_iff : FitsPrelude t ↔ Stands t ∧ Passed (lexemes t) := by
  constructor
  · intro h
    have hsplit := splitPrelude_append 0 (lexemes (t ++ ['\x7b']))
    rw [h] at hsplit
    have hpassed := passed_of_split (Prod.ext rfl h)
    rwa [textOf_eq_of_append hsplit] at hpassed
  · rintro ⟨hstands, hpassed⟩
    rw [FitsPrelude, hstands.lexemes_append_brace (Or.inl rfl), lexemes,
      hpassed.splitPrelude_eq (Or.inl rfl)]

theorem fitsBody_iff : FitsBody t ↔ Stands t ∧ Closed (lexemes t) := by
  constructor
  · intro h
    have hsplit := splitBody_append 0 (lexemes (t ++ ['\x7d']))
    rw [h] at hsplit
    have hclosed := closed_of_split (Prod.ext rfl h)
    rwa [textOf_eq_of_append hsplit] at hclosed
  · rintro ⟨hstands, hclosed⟩
    rw [FitsBody, hstands.lexemes_append_brace (Or.inr rfl), lexemes, hclosed.splitBody_eq]

/-- A prelude that a reading stops behind fits, and what is left are the lexemes of its own text. -/
theorem fitsPrelude_of_split (h : splitPrelude 0 (lexemes t) = (ls, .symbol '\x7b' :: left)) :
    FitsPrelude (textOf ls) ∧ lexemes (textOf ls) = ls ∧ lexemes (textOf left) = left := by
  have hsplit := splitPrelude_append 0 (lexemes t)
  rw [h] at hsplit
  exact ⟨fitsPrelude_iff.mpr (passed_of_split h), lexemes_sides (Or.inl rfl) hsplit.symm⟩

/-- The same of a body. -/
theorem fitsBody_of_split (h : splitBody 0 (lexemes t) = (ls, .symbol '\x7d' :: left)) :
    FitsBody (textOf ls) ∧ lexemes (textOf ls) = ls ∧ lexemes (textOf left) = left := by
  have hsplit := splitBody_append 0 (lexemes t)
  rw [h] at hsplit
  exact ⟨fitsBody_iff.mpr (closed_of_split h), lexemes_sides (Or.inr rfl) hsplit.symm⟩

variable {s ws : Text}

theorem fitsPrelude_append (hs : FitsPrelude s) (ht : t.head? ≠ some '*') :
    FitsPrelude (s ++ t) ↔ FitsPrelude t := by
  obtain ⟨hstands, hpassed⟩ := fitsPrelude_iff.mp hs
  rw [fitsPrelude_iff, fitsPrelude_iff, hstands t ht]
  exact ⟨fun h => ⟨hstands.of_append h.1 ht, hpassed.of_append h.2⟩,
    fun h => ⟨hstands.append h.1 ht, hpassed.append h.2⟩⟩

theorem fitsBody_append (hs : FitsBody s) (ht : t.head? ≠ some '*') :
    FitsBody (s ++ t) ↔ FitsBody t := by
  obtain ⟨hstands, hclosed⟩ := fitsBody_iff.mp hs
  rw [fitsBody_iff, fitsBody_iff, hstands t ht]
  exact ⟨fun h => ⟨hstands.of_append h.1 ht, hclosed.of_append h.2⟩,
    fun h => ⟨hstands.append h.1 ht, hclosed.append h.2⟩⟩

/-- The same of a text in front of one that fits. -/
theorem fitsBody_append_right (hs : Stands s) (ht : FitsBody t) (hhead : t.head? ≠ some '*') :
    FitsBody (s ++ t) ↔ FitsBody s := by
  obtain ⟨hstands, hclosed⟩ := fitsBody_iff.mp ht
  rw [fitsBody_iff, fitsBody_iff, hs t hhead]
  exact ⟨fun h => ⟨hs, hclosed.of_append_right h.2⟩,
    fun h => ⟨hs.append hstands hhead, h.2.append hclosed⟩⟩

theorem fitsBody_of_whole (h : Whole t) : FitsBody t :=
  fitsBody_iff.mpr ⟨h.stands, closed_lexemes h⟩

theorem fitsBody_nil : FitsBody [] :=
  fitsBody_of_whole .nil

theorem fitsBody_block (h : FitsBody t) : FitsBody ('\x7b' :: (t ++ ['\x7d'])) := by
  obtain ⟨hstands, hclosed⟩ := fitsBody_iff.mp h
  have hlexemes (behind : Text) : lexemes ('\x7b' :: (t ++ ['\x7d']) ++ behind) =
      .symbol '\x7b' :: (lexemes t ++ [.symbol '\x7d']) ++ lexemes behind := by
    rw [List.cons_append, List.append_assoc, lexemes_brace (Or.inl rfl), List.singleton_append,
      hstands.lexemes_append_brace (Or.inr rfl)]
    simp
  have hown := hlexemes []
  rw [List.append_nil, lexemes.eq_def [], List.append_nil] at hown
  rw [fitsBody_iff, hown]
  exact ⟨fun behind _ => by rw [hlexemes, hown], hclosed.block⟩

theorem closed_blanks (hblank : ∀ c ∈ ws, isAsciiBlank c = true) : Closed (ws.map .symbol) :=
  Closed.symbols fun c hc => isBare_of_isAsciiBlank (hblank c hc)

theorem lexemes_blanks (hblank : ∀ c ∈ ws, isAsciiBlank c = true) :
    lexemes ws = ws.map .symbol := by
  have hnil := lexemes_blanks_append hblank []
  rwa [List.append_nil, lexemes.eq_def [], List.append_nil] at hnil

theorem fitsBody_blanks_append (hblank : ∀ c ∈ ws, isAsciiBlank c = true) :
    FitsBody (ws ++ t) ↔ FitsBody t := by
  rw [fitsBody_iff, fitsBody_iff, stands_blanks_append hblank, lexemes_blanks_append hblank]
  exact and_congr_right fun _ =>
    ⟨(closed_blanks hblank).of_append, (closed_blanks hblank).append⟩

theorem fitsBody_append_blanks (hblank : ∀ c ∈ ws, isAsciiBlank c = true)
    (ht : t.getLast? ≠ some '\x5c') : FitsBody (t ++ ws) ↔ FitsBody t := by
  rw [fitsBody_iff, fitsBody_iff, stands_append_blanks hblank ht]
  refine and_congr_right fun hstands => ?_
  rw [hstands ws (head?_blanks_ne hblank), lexemes_blanks hblank]
  exact ⟨(closed_blanks hblank).of_append_right, fun h => h.append (closed_blanks hblank)⟩

/-- A prelude that ends in a space had no bracket open in front of it. -/
theorem Passed.of_append_space (h : Passed (ls ++ [.symbol ' '])) : Passed ls := by
  have hall := h.splitPrelude_eq (Or.inl rfl) []
  rw [List.append_assoc] at hall
  obtain ⟨depth, hread, hpass⟩ := splitPrelude_behind hall
  -- The space leaves the depth as it is, and the brace behind it stops at depth zero only.
  have hspace (ls : List Lexeme) : splitPrelude depth (.symbol ' ' :: ls) =
      (.symbol ' ' :: (splitPrelude depth ls).1, (splitPrelude depth ls).2) := by
    simp [splitPrelude]
  have hbrace : splitPrelude depth [.symbol '\x7b'] = ([], [.symbol '\x7b']) := by
    rw [List.singleton_append, hspace, Prod.mk.injEq, List.cons.injEq] at hread
    exact Prod.ext hread.1.2 hread.2
  have hstop : splitPrelude 0 (ls ++ [.symbol '\x7b']) = (ls, [.symbol '\x7b']) := by
    rw [hpass, hbrace, List.append_nil]
  exact splitPrelude_passes hstop

theorem fitsPrelude_append_space (ht : t.getLast? ≠ some '\x5c') :
    FitsPrelude (t ++ [' ']) ↔ FitsPrelude t := by
  have hblank : ∀ c ∈ [' '], isAsciiBlank c = true := by simp [isAsciiBlank]
  rw [fitsPrelude_iff, fitsPrelude_iff, stands_append_blanks hblank ht]
  refine and_congr_right fun hstands => ?_
  rw [hstands [' '] (by decide), lexemes_blanks hblank]
  exact ⟨Passed.of_append_space, fun h => h.append (passed_of_preludeDepth? rfl)⟩

end UtilityCss.Ruleset
