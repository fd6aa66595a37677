import UtilityCss.Proofs.Css.Layout
import UtilityCss.Proofs.Css.Lexeme

/-!
# Bland text

Text without braces, quotes, backslashes and comments is read character by character. To indent it
moves its lines, and so it stays bland.
-/

namespace UtilityCss.Css

open Text

/-- No character of the text begins or ends a block, a string or an escape, and no two of them begin
a comment. -/
structure IsBland (t : Text) : Prop where
  bare : ∀ c ∈ t, isBare c = true
  opens : ¬ ['/', '*'] <:+: t

namespace IsBland

variable {s t : Text}

theorem nil : IsBland [] :=
  ⟨fun _ hc => absurd hc List.not_mem_nil, by simp⟩

theorem of_slashFree (h : t.all isBare = true) (hslash : '/' ∉ t) : IsBland t :=
  ⟨List.all_eq_true.mp h, fun hin => hslash (hin.subset List.mem_cons_self)⟩

theorem whole (h : IsBland t) : Whole t :=
  .of_bare h.bare h.opens

theorem of_infix (h : IsBland t) (hs : s <:+: t) : IsBland s :=
  ⟨fun c hc => h.bare c (hs.subset hc), fun hin => h.opens (hin.trans hs)⟩

theorem append (h : IsBland s) (h' : IsBland t)
    (ht : s.getLast? = some '/' → t.head? ≠ some '*') : IsBland (s ++ t) := by
  refine ⟨List.forall_mem_append.mpr ⟨h.bare, h'.bare⟩, fun hin => ?_⟩
  have hopens := h.opens
  clear h
  induction s with
  | nil => exact h'.opens hin
  | cons c s ih =>
      rcases List.infix_cons_iff.mp hin with ⟨rest, hrest⟩ | hin
      · -- The comment begins with the first character.
        obtain ⟨rfl, hstar⟩ := List.cons.inj hrest
        have hhead : (s ++ t).head? = some '*' := congrArg List.head? hstar.symm
        cases s with
        | nil => exact ht rfl hhead
        | cons second s => exact hopens ⟨[], s, by rw [← Option.some.inj hhead]; rfl⟩
      · have hrest : ¬ ['/', '*'] <:+: s :=
          fun hin => hopens (hin.trans (List.suffix_cons c s).isInfix)
        refine ih (fun hlast => ht ?_) hin hrest
        rw [List.getLast?_cons, hlast, Option.getD_some]

theorem blanks {ws : Text} (h : ∀ c ∈ ws, isAsciiBlank c = true) : IsBland ws := by
  refine ⟨fun c hc => isBare_of_isAsciiBlank (h c hc), fun hin => ?_⟩
  exact absurd (h '*' (hin.subset (by simp))) (by decide)

theorem blanks_append {ws : Text} (hblank : ∀ c ∈ ws, isAsciiBlank c = true) (h : IsBland t) :
    IsBland (ws ++ t) :=
  (blanks hblank).append h fun hlast =>
    absurd (hblank '/' (List.mem_of_getLast? hlast)) (by decide)

theorem padded {ws ws' : Text} (hblank : ∀ c ∈ ws ++ ws', isAsciiBlank c = true)
    (h : IsBland t) : IsBland (ws ++ (t ++ ws')) := by
  obtain ⟨hbefore, hbehind⟩ := List.forall_mem_append.mp hblank
  refine blanks_append hbefore (h.append (blanks hbehind) fun _ hhead => ?_)
  exact absurd (hbehind '*' (List.mem_of_mem_head? hhead)) (by decide)

theorem trimEnd (h : IsBland t) : IsBland (trimEnd t) := by
  obtain ⟨blanks, heq, -⟩ := exists_trimEnd_append t
  exact h.of_infix ⟨[], blanks, heq.symm⟩

theorem join {parts : List Text} (h : ∀ part ∈ parts, IsBland part) :
    IsBland (join ['\n'] parts) := by
  induction parts with
  | nil => exact .nil
  | cons part parts ih =>
      obtain ⟨hpart, hparts⟩ := List.forall_mem_cons.mp h
      by_cases hmore : parts = []
      · rw [hmore]
        exact hpart
      · have hrest : IsBland (['\n'] ++ Text.join ['\n'] parts) :=
          blanks_append (by simp [isAsciiBlank]) (ih hparts)
        rw [join_cons_of_ne_nil hmore, List.append_assoc]
        exact hpart.append hrest fun _ => by simp

theorem indentLine (h : IsBland t) : IsBland (indentLine t) := by
  unfold Css.indentLine
  split
  · exact .nil
  · have hspaces : ∀ c ∈ [' ', ' '], isAsciiBlank c = true := by simp [isAsciiBlank]
    exact blanks_append hspaces h

theorem indent (h : IsBland t) : IsBland (indent t) := by
  refine .join fun part hpart => ?_
  obtain ⟨line, hline, rfl⟩ := List.mem_map.mp hpart
  exact (h.of_infix (infix_of_mem_lines hline)).indentLine

end IsBland

end UtilityCss.Css
