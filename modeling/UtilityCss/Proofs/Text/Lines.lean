import UtilityCss.Proofs.Text.Trim

/-!
# Lines

A line feed cuts the lines in front of it from those behind it. Up to the blanks at their ends, the
lines of a text that ends with no blank are its parts between line feeds, and these are what is
left when lines are joined.
-/

namespace UtilityCss.Text

variable {c sep : Char} {line t : Text} {parts : List Text}

theorem splitAtChar_cons (sep c : Char) (t : Text) : splitAtChar sep (c :: t) =
    if c = sep then [] :: splitAtChar sep t else consHead c (splitAtChar sep t) :=
  rfl

theorem splitAtChar_eq_singleton (h : sep ∉ t) : splitAtChar sep t = [t] := by
  induction t with
  | nil => rfl
  | cons c t ih =>
      rw [splitAtChar_cons, if_neg (List.ne_of_not_mem_cons h).symm, ih (List.not_mem_of_not_mem_cons h)]
      rfl

theorem exists_splitAtChar (sep : Char) (t : Text) :
    ∃ part parts, splitAtChar sep t = part :: parts := by
  induction t with
  | nil => exact ⟨[], [], rfl⟩
  | cons c t ih =>
      obtain ⟨part, parts, heq⟩ := ih
      rw [splitAtChar_cons, heq]
      split
      · exact ⟨[], _, rfl⟩
      · exact ⟨c :: part, parts, rfl⟩

theorem splitAtChar_append (sep : Char) (s t : Text) :
    splitAtChar sep (s ++ sep :: t) = splitAtChar sep s ++ splitAtChar sep t := by
  induction s with
  | nil => exact if_pos rfl
  | cons c s ih =>
      obtain ⟨part, parts, hsplit⟩ := exists_splitAtChar sep s
      rw [List.cons_append, splitAtChar_cons, ih, splitAtChar_cons, hsplit]
      split <;> rfl

theorem join_cons_of_ne_nil (hne : parts ≠ []) (glue part : Text) :
    join glue (part :: parts) = part ++ glue ++ join glue parts := by
  rw [join]
  exact hne

theorem splitAtChar_join (hne : parts ≠ []) (h : ∀ part ∈ parts, sep ∉ part) :
    splitAtChar sep (join [sep] parts) = parts := by
  induction parts with
  | nil => exact absurd rfl hne
  | cons part parts ih =>
      obtain ⟨hpart, hparts⟩ := List.forall_mem_cons.mp h
      cases parts with
      | nil => exact splitAtChar_eq_singleton hpart
      | cons second parts =>
          rw [join_cons_of_ne_nil (List.cons_ne_nil _ _), List.append_assoc, List.singleton_append,
            splitAtChar_append, splitAtChar_eq_singleton hpart, List.singleton_append,
            ih (List.cons_ne_nil _ _) hparts]

theorem join_append (hne : parts ≠ []) {behind : List Text} (hbehind : behind ≠ []) (glue : Text) :
    join glue (parts ++ behind) = join glue parts ++ glue ++ join glue behind := by
  induction parts with
  | nil => exact absurd rfl hne
  | cons part parts ih =>
      cases parts with
      | nil => exact join_cons_of_ne_nil hbehind glue part
      | cons second parts =>
          have hrest := List.append_ne_nil_of_left_ne_nil (List.cons_ne_nil second parts) behind
          rw [List.cons_append, join_cons_of_ne_nil hrest, ih (List.cons_ne_nil _ _),
            join_cons_of_ne_nil (List.cons_ne_nil _ _)]
          simp only [List.append_assoc]

/-! ## Lines -/

theorem lines_feed (t : Text) : lines ('\n' :: t) = [] :: lines t :=
  rfl

theorem lines_return (t : Text) : lines ('\r' :: '\n' :: t) = [] :: lines t :=
  rfl

theorem lines_cons (hfeed : c ≠ '\n') (hreturn : c = '\r' → t.head? ≠ some '\n') :
    lines (c :: t) = consHead c (lines t) := by
  rw [lines]
  · exact hfeed
  · rintro rest rfl rfl
    exact hreturn rfl rfl

/-- Induction over a text that is read line by line. -/
@[elab_as_elim]
theorem linesInduction {motive : Text → Prop} (nil : motive [])
    (feed : ∀ t, motive t → motive ('\n' :: t))
    (pair : ∀ t, motive t → motive ('\r' :: '\n' :: t))
    (plain : ∀ c t, c ≠ '\n' → (c = '\r' → t.head? ≠ some '\n') → motive t → motive (c :: t))
    (t : Text) : motive t := by
  induction t using lines.induct with
  | case1 => exact nil
  | case2 t ih => exact feed t ih
  | case3 t ih => exact pair t ih
  | case4 c t hfeed hreturn ih =>
      refine plain c t hfeed (fun hc hhead => ?_) ih
      obtain ⟨rest, rfl⟩ := List.head?_eq_some_iff.mp hhead
      exact hreturn rest hc rfl

theorem lines_ne_nil (h : t ≠ []) : lines t ≠ [] := by
  unfold lines
  split
  next => exact absurd rfl h
  next => exact List.cons_ne_nil _ _
  next => exact List.cons_ne_nil _ _
  next c t _ _ => cases lines t <;> exact List.cons_ne_nil _ _

/-- A line feed ends a line. -/
theorem lines_append (s t : Text) : lines (s ++ '\n' :: t) = lines (s ++ ['\n']) ++ lines t := by
  induction s using linesInduction with
  | nil => rfl
  | feed s ih => exact congrArg ([] :: ·) ih
  | pair s ih => exact congrArg ([] :: ·) ih
  | plain c s hfeed hreturn ih =>
      cases s with
      | nil =>
          by_cases hc : c = '\r'
          · subst hc
            rfl
          · rw [List.singleton_append, lines_cons hfeed fun heq => absurd heq hc,
              List.singleton_append, lines_cons hfeed fun heq => absurd heq hc]
            rfl
      | cons second s =>
          have hcons : ∀ rest, lines (c :: second :: s ++ rest) =
              consHead c (lines (second :: s ++ rest)) := fun rest => lines_cons hfeed hreturn
          rw [hcons, hcons, ih]
          obtain ⟨part, parts, heq⟩ := List.exists_cons_of_ne_nil
            (lines_ne_nil (t := second :: s ++ ['\n']) (List.cons_ne_nil _ _))
          rw [heq]
          rfl

/-- Text without a line feed is a line as it is, unless a return at its end goes with the feed. -/
theorem lines_line_append (hfeed : '\n' ∉ line) (hreturn : line.getLast? ≠ some '\r') (t : Text) :
    lines (line ++ '\n' :: t) = line :: lines t := by
  induction line with
  | nil => rfl
  | cons c line ih =>
      have hrest : lines (line ++ '\n' :: t) = line :: lines t := by
        refine ih (List.not_mem_of_not_mem_cons hfeed) fun hlast => hreturn ?_
        rw [List.getLast?_cons, hlast, Option.getD_some]
      rw [List.cons_append, lines_cons (List.ne_of_not_mem_cons hfeed).symm, hrest]
      · rfl
      · rintro rfl hhead
        cases line with
        | nil => exact hreturn rfl
        | cons second line =>
            rw [Option.some.inj hhead] at hfeed
            simp at hfeed

theorem head_lines_prefix (h : lines t = line :: parts) : line <+: t := by
  induction t using linesInduction generalizing line parts with
  | nil => cases h
  | feed t => exact (List.cons.inj h).1 ▸ List.nil_prefix
  | pair t => exact (List.cons.inj h).1 ▸ List.nil_prefix
  | plain c t hfeed hreturn ih =>
      rw [lines_cons hfeed hreturn] at h
      cases hlines : lines t with
      | nil =>
          rw [hlines] at h
          rw [← (List.cons.inj h).1]
          exact List.prefix_append [c] t
      | cons part rest =>
          rw [hlines] at h
          rw [← (List.cons.inj h).1]
          exact List.cons_prefix_cons.mpr ⟨rfl, ih hlines⟩

/-- Every line stands in the text. -/
theorem infix_of_mem_lines (h : line ∈ lines t) : line <:+: t := by
  induction t using linesInduction with
  | nil => exact absurd h List.not_mem_nil
  | feed t ih =>
      rcases List.mem_cons.mp h with rfl | h
      · exact List.nil_infix
      · exact (ih h).trans (List.suffix_cons _ _).isInfix
  | pair t ih =>
      rcases List.mem_cons.mp h with rfl | h
      · exact List.nil_infix
      · exact (ih h).trans ((List.suffix_cons _ _).trans (List.suffix_cons _ _)).isInfix
  | plain c t hfeed hreturn ih =>
      rw [lines_cons hfeed hreturn] at h
      cases hlines : lines t with
      | nil =>
          rw [hlines] at h
          rw [List.mem_singleton.mp h]
          exact (List.prefix_append [c] t).isInfix
      | cons part rest =>
          rw [hlines] at h ih
          rcases List.mem_cons.mp h with rfl | h
          · exact (List.cons_prefix_cons.mpr ⟨rfl, head_lines_prefix hlines⟩).isInfix
          · exact (ih (List.mem_cons_of_mem _ h)).trans (List.suffix_cons _ _).isInfix

theorem not_mem_of_mem_lines (h : line ∈ lines t) : '\n' ∉ line := by
  induction t using linesInduction generalizing line with
  | nil => exact absurd h List.not_mem_nil
  | feed t ih =>
      rcases List.mem_cons.mp h with rfl | h
      · exact List.not_mem_nil
      · exact ih h
  | pair t ih =>
      rcases List.mem_cons.mp h with rfl | h
      · exact List.not_mem_nil
      · exact ih h
  | plain c t hfeed hreturn ih =>
      have hc : '\n' ≠ c := fun heq => hfeed heq.symm
      rw [lines_cons hfeed hreturn] at h
      cases hlines : lines t with
      | nil =>
          rw [hlines] at h
          rw [List.mem_singleton.mp h]
          simpa using hc
      | cons part rest =>
          rw [hlines] at h ih
          rcases List.mem_cons.mp h with rfl | h
          · exact List.not_mem_cons_of_ne_of_not_mem hc (ih List.mem_cons_self)
          · exact ih (List.mem_cons_of_mem _ h)

/-! ## Blanks at the ends of lines -/

theorem trimEnd_cons (c : Char) (t : Text) : trimEnd (c :: t) = trimEnd (c :: trimEnd t) := by
  obtain ⟨blanks, heq, hblank⟩ := exists_trimEnd_append t
  have hsplit : c :: t = (c :: trimEnd t) ++ blanks := by rw [List.cons_append, ← heq]
  rw [hsplit, trimEnd_append_blanks hblank]

theorem trim_trimEnd (t : Text) : trim (trimEnd t) = trim t := by
  obtain ⟨blanks, heq, hblank⟩ := exists_trimEnd_append t
  rw [← trim_append_blanks hblank, ← heq]

theorem EndsSolid.ne_nil (h : EndsSolid t) : t ≠ [] := by
  obtain ⟨front, c, rfl, -⟩ := h
  exact List.append_ne_nil_of_right_ne_nil front (List.cons_ne_nil c [])

theorem EndsSolid.of_blank_cons (h : EndsSolid (c :: t)) (hc : isBlank c = true) : EndsSolid t := by
  refine (endsSolid_of_append (s := [c]) h).resolve_left ?_
  rintro rfl
  obtain ⟨front, d, heq, hd⟩ := h
  obtain ⟨-, hlast⟩ := List.append_inj' ((List.nil_append [c]).trans heq) rfl
  rw [List.singleton_inj.mp hlast, hd] at hc
  cases hc

theorem EndsSolid.map_trimEnd_lines (h : EndsSolid t) :
    (lines t).map trimEnd = (splitAtChar '\n' t).map trimEnd := by
  induction t using linesInduction with
  | nil => exact absurd rfl h.ne_nil
  | feed t ih =>
      rw [lines_feed, splitAtChar_cons, if_pos rfl, List.map_cons, List.map_cons,
        ih (h.of_blank_cons (by decide))]
  | pair t ih =>
      have hreturn : EndsSolid ('\n' :: t) := h.of_blank_cons (by decide)
      rw [lines_return, splitAtChar_cons, if_neg (by decide), splitAtChar_cons, if_pos rfl, consHead,
        List.map_cons, List.map_cons, ih (hreturn.of_blank_cons (by decide))]
      rfl
  | plain c t hfeed hreturn ih =>
      rw [lines_cons hfeed hreturn, splitAtChar_cons, if_neg hfeed]
      rcases endsSolid_of_append (s := [c]) h with rfl | hsolid
      · rfl
      · have hparts := ih hsolid
        obtain ⟨part, parts, hsplit⟩ := exists_splitAtChar '\n' t
        rw [hsplit] at hparts ⊢
        cases hlines : lines t with
        | nil =>
            rw [hlines] at hparts
            cases hparts
        | cons line rest =>
            rw [hlines, List.map_cons, List.map_cons, List.cons.injEq] at hparts
            rw [consHead, consHead, List.map_cons, List.map_cons, trimEnd_cons c line, hparts.1,
              ← trimEnd_cons, hparts.2]

theorem EndsSolid.map_trim_lines (h : EndsSolid t) :
    (lines t).map trim = (splitAtChar '\n' t).map trim := by
  have hparts := congrArg (List.map trim) h.map_trimEnd_lines
  have htrim : trim ∘ trimEnd = trim := funext trim_trimEnd
  rwa [List.map_map, List.map_map, htrim] at hparts

/-- Where a text ends with no blank, so does its last line. -/
theorem EndsSolid.exists_lines (h : EndsSolid t) :
    ∃ front last, lines t = front ++ [last] ∧ EndsSolid last := by
  induction t using linesInduction with
  | nil => exact absurd rfl h.ne_nil
  | feed t ih =>
      obtain ⟨front, last, heq, hlast⟩ := ih (h.of_blank_cons (by decide))
      exact ⟨[] :: front, last, by rw [lines_feed, heq]; rfl, hlast⟩
  | pair t ih =>
      have hreturn : EndsSolid ('\n' :: t) := h.of_blank_cons (by decide)
      obtain ⟨front, last, heq, hlast⟩ := ih (hreturn.of_blank_cons (by decide))
      exact ⟨[] :: front, last, by rw [lines_return, heq]; rfl, hlast⟩
  | plain c t hfeed hreturn ih =>
      rw [lines_cons hfeed hreturn]
      rcases endsSolid_of_append (s := [c]) h with rfl | hsolid
      · exact ⟨[], [c], rfl, h⟩
      · obtain ⟨front, last, heq, hlast⟩ := ih hsolid
        rw [heq]
        cases front with
        | nil => exact ⟨[], c :: last, rfl, hlast.append [c]⟩
        | cons first front => exact ⟨(c :: first) :: front, last, rfl, hlast⟩

/-- A line feed at the end ends the last line and begins none. -/
theorem EndsSolid.lines_append_newline (h : EndsSolid t) : lines (t ++ ['\n']) = lines t := by
  induction t using linesInduction with
  | nil => exact absurd rfl h.ne_nil
  | feed t ih => exact congrArg ([] :: ·) (ih (h.of_blank_cons (by decide)))
  | pair t ih =>
      have hreturn : EndsSolid ('\n' :: t) := h.of_blank_cons (by decide)
      exact congrArg ([] :: ·) (ih (hreturn.of_blank_cons (by decide)))
  | plain c t hfeed hreturn ih =>
      rw [lines_cons hfeed hreturn]
      rcases endsSolid_of_append (s := [c]) h with rfl | hsolid
      · rw [List.singleton_append, lines_cons hfeed]
        · rfl
        · rintro rfl
          exact absurd rfl (h.of_blank_cons (by decide)).ne_nil
      · obtain ⟨second, rest, rfl⟩ := List.exists_cons_of_ne_nil hsolid.ne_nil
        rw [List.cons_append, lines_cons hfeed, ih hsolid]
        exact hreturn

/-- The parts of a text between line feeds, without blanks at their ends and from the first on that
is not blank. -/
def inkedRows (t : Text) : List Text :=
  ((splitAtChar '\n' t).map trim).dropWhile (·.isEmpty)

theorem inkedRows_trimStart (t : Text) : inkedRows (trimStart t) = inkedRows t := by
  induction t with
  | nil => rfl
  | cons c t ih =>
      by_cases hc : isBlank c = true
      · rw [trimStart, List.dropWhile_cons_of_pos hc]
        refine ih.trans ?_
        obtain ⟨part, parts, hsplit⟩ := exists_splitAtChar '\n' t
        rw [inkedRows, inkedRows, splitAtChar_cons, hsplit]
        split
        · rfl
        · have hhead : trim (c :: part) = trim part :=
            trim_blanks_append (List.forall_mem_singleton.mpr hc) part
          rw [consHead, List.map_cons, List.map_cons, hhead]
      · rw [trimStart, List.dropWhile_cons_of_neg hc]

theorem BeginsSolid.inkedRows_eq (h : BeginsSolid t) :
    inkedRows t = (splitAtChar '\n' t).map trim := by
  obtain ⟨c, rest, rfl, hc⟩ := h
  have hfeed : c ≠ '\n' := by
    rintro rfl
    exact absurd hc (by decide)
  obtain ⟨part, parts, hsplit⟩ := exists_splitAtChar '\n' rest
  have hne : trim (c :: part) ≠ [] := by
    rw [trim, BeginsSolid.trimStart_eq ⟨c, part, rfl, hc⟩]
    have hkeep := trimEnd_append_cons [] hc part
    rw [List.nil_append] at hkeep
    rw [hkeep]
    exact List.cons_ne_nil _ _
  rw [inkedRows, splitAtChar_cons, if_neg hfeed, hsplit, consHead, List.map_cons,
    List.dropWhile_cons_of_neg]
  simpa using hne

theorem EndsSolid.trimStart (h : EndsSolid t) : EndsSolid (trimStart t) := by
  obtain ⟨blanks, heq, hblank⟩ := exists_append_trimStart t
  rw [heq] at h
  refine (endsSolid_of_append h).resolve_left fun hnil => ?_
  rw [hnil, List.append_nil] at h
  obtain ⟨front, c, rfl, hc⟩ := h
  rw [hblank c (by simp)] at hc
  cases hc

/-- To trim a text takes blanks away from its lines and whole blank lines, but no other line. -/
theorem EndsSolid.map_trim_lines_trim (h : EndsSolid t) :
    (lines (trim t)).map trim = inkedRows t := by
  have htrim : trim t = Text.trimStart t := h.trimStart.trimEnd_eq
  have hbegins : BeginsSolid (Text.trimStart t) :=
    (trimStart_eq_nil_or t).resolve_left h.trimStart.ne_nil
  rw [htrim, h.trimStart.map_trim_lines, ← hbegins.inkedRows_eq, inkedRows_trimStart]

end UtilityCss.Text
