import UtilityCss.Css.Layout
import UtilityCss.Proofs.Text.Lines

/-!
# The layout of blocks

The lines of a body are indented one by one, and again for every block around it; only blanks at
their ends may get lost. Text without other blanks than spaces is one line, and around single lines
the layout of blocks can be written out.
-/

namespace UtilityCss.Css

open Text

def OneLine (t : Text) : Prop :=
  ∀ c ∈ t, isBlank c = true → c = ' '

instance (t : Text) : Decidable (OneLine t) :=
  List.decidableBAll _ t

namespace OneLine

variable {s t : Text}

theorem nil : OneLine [] :=
  fun _ hc => absurd hc List.not_mem_nil

theorem append (h : OneLine s) (h' : OneLine t) : OneLine (s ++ t) :=
  List.forall_mem_append.mpr ⟨h, h'⟩

theorem of_subset (h : OneLine t) (hs : s ⊆ t) : OneLine s :=
  fun c hc => h c (hs hc)

end OneLine

theorem oneLine_cons {c : Char} {t : Text} :
    OneLine (c :: t) ↔ (isBlank c = true → c = ' ') ∧ OneLine t :=
  List.forall_mem_cons

variable {line header : Text}

theorem OneLine.not_mem_feed (h : OneLine line) : '\n' ∉ line :=
  fun hmem => absurd (h _ hmem (by decide)) (by decide)

theorem lines_eq_singleton (h : OneLine line) (hne : line ≠ []) : lines line = [line] := by
  induction line with
  | nil => exact absurd rfl hne
  | cons c line ih =>
      obtain ⟨hc, hline⟩ := oneLine_cons.mp h
      have hrest : lines (c :: line) = consHead c (lines line) := by
        rw [lines]
        · rintro rfl
          exact absurd (hc (by decide)) (by decide)
        · rintro _ rfl
          exact absurd (hc (by decide)) (by decide)
      by_cases hnil : line = []
      · rw [hrest, hnil, lines]
        rfl
      · rw [hrest, ih hline hnil]
        rfl

theorem indentLine_of_endsSolid (h : EndsSolid line) : indentLine line = ' ' :: ' ' :: line := by
  have hne : trim line ≠ [] := by
    obtain ⟨front, c, rfl, hc⟩ := h
    rw [trim, trimStart_append_solid front ⟨c, [], rfl, hc⟩, trimEnd_append_cons _ hc]
    exact List.append_ne_nil_of_right_ne_nil _ (List.cons_ne_nil _ _)
  rw [indentLine, if_neg (by simpa using hne)]

theorem trim_indentLine (line : Text) : trim (indentLine line) = trim line := by
  unfold indentLine
  split
  next hblank =>
    rw [List.isEmpty_iff.mp hblank]
    rfl
  next =>
    have hblank : ∀ c ∈ [' ', ' '], isBlank c = true := by simp [isBlank]
    exact trim_blanks_append hblank line

theorem indent_append (s : Text) {t : Text} (ht : t ≠ []) :
    indent (s ++ '\n' :: t) = indent (s ++ ['\n']) ++ '\n' :: indent t := by
  have hfront : (lines (s ++ ['\n'])).map indentLine ≠ [] := by
    rw [Ne, List.map_eq_nil_iff]
    exact lines_ne_nil (List.append_ne_nil_of_right_ne_nil s (List.cons_ne_nil _ _))
  have hbehind : (lines t).map indentLine ≠ [] := by
    rw [Ne, List.map_eq_nil_iff]
    exact lines_ne_nil ht
  rw [indent, lines_append, List.map_append, join_append hfront hbehind, List.append_assoc]
  rfl

theorem endsSolid_indentLine (h : EndsSolid line) : EndsSolid (indentLine line) := by
  rw [indentLine_of_endsSolid h]
  exact h.append [' ', ' ']

theorem endsSolid_indent {t : Text} (h : EndsSolid t) : EndsSolid (indent t) := by
  obtain ⟨front, last, heq, hlast⟩ := h.exists_lines
  rw [indent, heq, List.map_append, List.map_singleton]
  by_cases hnil : front.map indentLine = []
  · rw [hnil]
    exact endsSolid_indentLine hlast
  · rw [join_append hnil (List.cons_ne_nil _ _)]
    exact (endsSolid_indentLine hlast).append _

/-- A body ends with no blank, and so it does one level deeper. -/
theorem indent_eq_nil_or {t : Text} (h : t = [] ∨ EndsSolid t) :
    indent t = [] ∨ EndsSolid (indent t) := by
  rcases h with rfl | h
  · exact Or.inl rfl
  · exact Or.inr (endsSolid_indent h)

theorem indent_append_newline {t : Text} (h : t = [] ∨ EndsSolid t) :
    indent (t ++ ['\n']) = indent t := by
  rcases h with rfl | h
  · rfl
  · rw [indent, h.lines_append_newline, indent]

theorem map_trim_splitAtChar_indent {t : Text} (hne : t ≠ []) :
    (splitAtChar '\n' (indent t)).map trim = (lines t).map trim := by
  have hparts : (lines t).map indentLine ≠ [] := by
    rw [Ne, List.map_eq_nil_iff]
    exact lines_ne_nil hne
  have htrim : trim ∘ indentLine = trim := funext trim_indentLine
  rw [indent, splitAtChar_join hparts, List.map_map, htrim]
  intro part hpart
  obtain ⟨line, hline, rfl⟩ := List.mem_map.mp hpart
  unfold indentLine
  split
  · exact List.not_mem_nil
  · simpa using not_mem_of_mem_lines hline

/-- One level deeper, a body has the same lines up to blanks. -/
theorem map_trim_lines_indent {t : Text} (h : t = [] ∨ EndsSolid t) :
    (lines (trim (indent t))).map trim = (lines (trim t)).map trim := by
  rcases h with rfl | h
  · rfl
  · have hindent := endsSolid_indent h
    have hrows : inkedRows (indent t) = inkedRows t := by
      rw [inkedRows, map_trim_splitAtChar_indent h.ne_nil, h.map_trim_lines, inkedRows]
    rw [hindent.map_trim_lines_trim, hrows, h.map_trim_lines_trim]

/-- A block in another block. -/
theorem block_block {outer body : Text} (hheader : '\n' ∉ header) :
    block outer (block header body) =
      outer ++ [' ', '\x7b', '\n', ' ', ' '] ++ header ++ [' ', '\x7b', '\n'] ++
        indent (indent (trimEnd body)) ++ ['\n', ' ', ' ', '\x7d', '\n', '\x7d'] := by
  have hopen : '\n' ∉ header ++ [' ', '\x7b'] := by simpa using hheader
  have hsolid : EndsSolid (header ++ [' ', '\x7b']) := ⟨header ++ [' '], '\x7b', by simp, by decide⟩
  have hfirst : indent (header ++ [' ', '\x7b'] ++ ['\n']) =
      ' ' :: ' ' :: (header ++ [' ', '\x7b']) := by
    rw [indent, lines_line_append hopen (by simp), List.map_cons, indentLine_of_endsSolid hsolid]
    rfl
  have hbody := trimEnd_eq_nil_or body
  have hblock : block header body = (header ++ [' ', '\x7b']) ++
      '\n' :: (indent (trimEnd body) ++ '\n' :: ['\x7d']) := by
    simp [block]
  have hend : EndsSolid (block header body) :=
    ⟨_, '\x7d', by rw [block, List.append_cons], by decide⟩
  have hlast : indent ['\x7d'] = [' ', ' ', '\x7d'] :=
    indentLine_of_endsSolid ⟨[], '\x7d', rfl, by decide⟩
  rw [block, hend.trimEnd_eq, hblock, indent_append _ (by simp), hfirst,
    indent_append _ (List.cons_ne_nil _ _), indent_append_newline (indent_eq_nil_or hbody), hlast]
  simp

theorem indent_line (h : OneLine line) (hsolid : EndsSolid line) :
    indent line = ' ' :: ' ' :: line := by
  rw [indent, lines_eq_singleton h hsolid.ne_nil, List.map_singleton,
    indentLine_of_endsSolid hsolid]
  rfl

end UtilityCss.Css
