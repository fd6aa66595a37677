import UtilityCss.Proofs.Ruleset.Reads
import UtilityCss.Proofs.Selector.Comment

/-!
# Comments in the selectors of rules

A comment in the selector of a rule is read over like any other stretch of a prelude. With a space
in its place the text is read to the same rules, but for the one selector. Whether this selector has
a class is then a matter of what the comment says.
-/

namespace UtilityCss.Ruleset

open Text Css Selector

variable {atRules : List Text} {start place : Nat} {r : Rule} {es es' : List Entry}
  {front back head ls left a b : List Lexeme} {body s t : Text}

theorem size_commentOf (body : Text) : size (commentOf body) = size body + 3 + 1 := by
  have hslash : Char.utf8Size '/' = 1 := rfl
  have hstar : Char.utf8Size '*' = 1 := rfl
  simp only [commentOf, size_append, size_cons, size_nil, hslash, hstar]
  omega

theorem splitPrelude_space (h : splitPrelude 0 (front ++ .comment t :: ls) =
    (front ++ .comment t :: back, left)) :
    splitPrelude 0 (front ++ .symbol ' ' :: ls) = (front ++ .symbol ' ' :: back, left) := by
  obtain ⟨deeper, hread, hother⟩ := splitPrelude_behind h
  have hrest : splitPrelude deeper ls = (back, left) := by
    rw [splitPrelude, Prod.mk.injEq, List.cons.injEq] at hread
    · exact Prod.ext hread.1.2 hread.2
    · simp
  have hspace : splitPrelude deeper (.symbol ' ' :: ls) = (.symbol ' ' :: back, left) := by
    simp [splitPrelude, hrest]
  rw [hother, hspace]

theorem splitBody_space (h : splitBody 0 (front ++ .comment t :: ls) =
    (front ++ .comment t :: back, left)) :
    splitBody 0 (front ++ .symbol ' ' :: ls) = (front ++ .symbol ' ' :: back, left) := by
  obtain ⟨deeper, hread, hother⟩ := splitBody_behind h
  have hrest : splitBody deeper ls = (back, left) := by
    rw [splitBody, Prod.mk.injEq, List.cons.injEq] at hread
    · exact Prod.ext hread.1.2 hread.2
    · simp
  have hspace : splitBody deeper (.symbol ' ' :: ls) = (.symbol ' ' :: back, left) := by
    simp [splitBody, hrest]
  rw [hother, hspace]

/-- A member of a list stands on one side of a cut. -/
theorem mem_sides {α : Type} {x : α} {a b s t : List α} (h : a ++ x :: b = s ++ t) :
    (∃ v, a = s ++ v ∧ t = v ++ x :: b) ∨ ∃ v, s = a ++ x :: v ∧ b = v ++ t := by
  rcases List.append_eq_append_iff.mp h with ⟨v, rfl, hv⟩ | ⟨v, rfl, rfl⟩
  · rcases List.cons_eq_append_iff.mp hv with ⟨rfl, rfl⟩ | ⟨v, rfl, rfl⟩
    · exact .inl ⟨[], by simp, rfl⟩
    · exact .inr ⟨v, rfl, rfl⟩
  · exact .inl ⟨v, rfl, rfl⟩

theorem size_textOf_space (front : List Lexeme) (body : Text) (back : List Lexeme) :
    size (textOf (front ++ .comment (commentOf body) :: back)) =
      size body + 3 + size (textOf (front ++ .symbol ' ' :: back)) := by
  have hspace : Char.utf8Size ' ' = 1 := rfl
  simp only [textOf_append, textOf_cons, size_append, Lexeme.text, size_commentOf, size_cons,
    size_nil, hspace]
  omega

theorem head?_textOf_space (front : List Lexeme) (body : Text) (back : List Lexeme) :
    (textOf (front ++ .comment (commentOf body) :: back)).head? = some '@' ↔
      (textOf (front ++ .symbol ' ' :: back)).head? = some '@' := by
  rw [textOf_append, textOf_append]
  cases textOf front with
  | nil => simp [textOf, Lexeme.text, commentOf]
  | cons c t => rfl

/-- A block begins with a space in its prelude as it does with a comment. -/
theorem Opens.space
    (h : Opens (front ++ .comment t :: ls) (front ++ .comment t :: back) left) :
    Opens (front ++ .symbol ' ' :: ls) (front ++ .symbol ' ' :: back) left := by
  refine ⟨splitPrelude_space h.split, ?_⟩
  obtain ⟨l, rest, hls, hcomment, hfiller⟩ := h.starts
  cases front with
  | nil =>
      obtain ⟨rfl, -⟩ := List.cons.inj hls
      exact absurd rfl (hcomment t)
  | cons first front =>
      obtain ⟨rfl, -⟩ := List.cons.inj hls
      exact ⟨first, _, rfl, hcomment, hfiller⟩

/-- The prelude of the rule holds the comment. Of the text in front of the comment, which starts at
the given byte, the prelude has the end. The other entries are those of a text with a space in
place of the comment. -/
def HeldBy (r : Rule) (body : Text) (start : Nat) (t : Text) (es es' : List Entry) : Prop :=
  ∃ place front back declarations before behind, front <:+ t ∧
    place + size front = start + size t ∧
    r = ruleAt r.atRules place (front ++ (commentOf body ++ back)) declarations ∧
    es = before ++ .rule r :: behind.map (Entry.shift (size body + 3)) ∧
    es' = before ++ .rule (ruleAt r.atRules place (front ++ ' ' :: back) declarations) :: behind

theorem HeldBy.append (h : HeldBy r body start t es es') (rest : List Entry) :
    HeldBy r body start t (es ++ rest.map (Entry.shift (size body + 3))) (es' ++ rest) := by
  obtain ⟨place, front, back, declarations, before, behind, hfront, hplace, hr, rfl, rfl⟩ := h
  exact ⟨place, front, back, declarations, before, behind ++ rest, hfront, hplace, hr, by simp,
    by simp⟩

theorem HeldBy.behind (h : HeldBy r body (start + size s) t es es') (here : List Entry) :
    HeldBy r body start (s ++ t) (here ++ es) (here ++ es') := by
  obtain ⟨place, front, back, declarations, before, behind, hfront, hplace, hr, rfl, rfl⟩ := h
  refine ⟨place, front, back, declarations, here ++ before, behind,
    hfront.trans (List.suffix_append s t), ?_, hr, by simp, by simp⟩
  rw [hplace, size_append, Nat.add_assoc]

/-- The comment stands in the prelude of a rule. -/
theorem Opens.heldBy
    (h : Opens (front ++ .comment (commentOf body) :: b)
      (front ++ .comment (commentOf body) :: back) left)
    (hat : (textOf (front ++ .comment (commentOf body) :: back)).head? ≠ some '@') :
    HeldBy (ruleAt atRules start (textOf (front ++ .comment (commentOf body) :: back))
        (textOf (splitBody 0 left).1)) body start (textOf front)
      (entries atRules start (front ++ .comment (commentOf body) :: b))
      (entries atRules start (front ++ .symbol ' ' :: b)) := by
  have hat' := mt (head?_textOf_space front body back).mpr hat
  have hplace : start + size (textOf (front ++ .comment (commentOf body) :: back)) + 1 +
      size (textOf (splitBody 0 left).1) + 1 =
      size body + 3 + (start + size (textOf (front ++ .symbol ' ' :: back)) + 1 +
        size (textOf (splitBody 0 left).1) + 1) := by
    rw [size_textOf_space]
    omega
  rw [h.entries_eq, blockEntries, if_neg hat, hplace, entries_shift (size body + 3),
    h.space.entries_eq, blockEntries, if_neg hat']
  refine ⟨start, textOf front, textOf back, textOf (splitBody 0 left).1, [], _, List.suffix_refl _,
    rfl, ?_, rfl, ?_⟩
  · rw [textOf_append]
    rfl
  · rw [textOf_append]
    rfl

/-- The comment stands in the body of an at-rule, in the prelude of a rule in it. -/
theorem Opens.heldBy_inside
    (h : Opens (head ++ .symbol '\x7b' :: (a ++ .comment (commentOf body) :: b)) head
      (a ++ .comment (commentOf body) :: b))
    (hbody : splitBody 0 (a ++ .comment (commentOf body) :: b) =
      (a ++ .comment (commentOf body) :: back, left))
    (hat : (textOf head).head? = some '@')
    (hgrouping : Rule.isGrouping (trimEnd (textOf head)) = true)
    (hinner : HeldBy r body (start + size (textOf head) + 1) (textOf a)
      (entries (atRules ++ [trimEnd (textOf head)]) (start + size (textOf head) + 1)
        (a ++ .comment (commentOf body) :: back))
      (entries (atRules ++ [trimEnd (textOf head)]) (start + size (textOf head) + 1)
        (a ++ .symbol ' ' :: back))) :
    HeldBy r body start (textOf (head ++ .symbol '\x7b' :: a))
      (entries atRules start (head ++ .symbol '\x7b' :: (a ++ .comment (commentOf body) :: b)))
      (entries atRules start (head ++ .symbol '\x7b' :: (a ++ .symbol ' ' :: b))) := by
  have hplace : start + size (textOf head) + 1 +
      size (textOf (a ++ .comment (commentOf body) :: back)) + 1 =
      size body + 3 + (start + size (textOf head) + 1 +
        size (textOf (a ++ .symbol ' ' :: back)) + 1) := by
    rw [size_textOf_space]
    omega
  have htext : textOf (head ++ .symbol '\x7b' :: a) = (textOf head ++ ['\x7b']) ++ textOf a := by
    simp [textOf, Lexeme.text]
  have hopen : start + size (textOf head) + 1 = start + size (textOf head ++ ['\x7b']) := by
    rw [size_append, Nat.add_assoc]
    rfl
  rw [h.entries_eq, blockEntries, if_pos hat, if_pos hgrouping, hbody, hplace,
    entries_shift (size body + 3), (h.replace _).entries_eq, blockEntries, if_pos hat,
    if_pos hgrouping, splitBody_space hbody, htext]
  rw [hopen] at hinner ⊢
  exact (hinner.append _).behind []

/-! ## Where the comment stands -/

/-- A rule whose selector spans the comment has it in its prelude. -/
theorem Found.heldBy (h : Found r atRules start ls)
    (hls : a ++ .comment (commentOf body) :: b = ls)
    (hstart : r.selectorSpan.start ≤ start + size (textOf a))
    (hstop : start + size (textOf a) < r.selectorSpan.stop) :
    HeldBy r body start (textOf a) (entries atRules start (a ++ .comment (commentOf body) :: b))
      (entries atRules start (a ++ .symbol ' ' :: b)) := by
  induction h generalizing a b with
  | @behind atRules start stop item rest here hitem h ih =>
      rcases mem_sides hls with ⟨a, rfl, rfl⟩ | ⟨v, rfl, -⟩
      · rw [textOf_append, size_append, ← Nat.add_assoc, ← hitem.stop_eq] at hstart hstop
        have hheld := ih rfl hstart hstop
        rw [List.append_assoc, List.append_assoc, hitem.read, hitem.read, textOf_append]
        rw [hitem.stop_eq] at hheld ⊢
        exact hheld.behind here
      · -- The item would hold the comment, but the rule stands behind the item.
        have hplace := h.within.1
        rw [hitem.stop_eq, size_textOf_space, textOf_append, size_append] at hplace
        omega
  | @here atRules start ls head left hopens hat hr =>
      have hsides := hopens.eq
      rw [← hls] at hsides
      rcases mem_sides hsides with ⟨v, rfl, -⟩ | ⟨v, rfl, rfl⟩
      · have hplace := size_trimEnd_le (textOf head)
        rw [hr, textOf_append, size_append] at hstop
        simp only [ruleAt] at hstop
        omega
      · rw [hr]
        rw [← hls] at hopens
        exact hopens.heldBy hat
  | @inside atRules start ls head left hopens hat hgrouping h ih =>
      obtain ⟨hbegin, hend⟩ := h.within
      have hbrace : size (textOf (head ++ [.symbol '\x7b'])) = size (textOf head) + 1 := by
        rw [textOf_append, size_append]
        rfl
      have hsides : a ++ .comment (commentOf body) :: b = (head ++ [.symbol '\x7b']) ++ left := by
        rw [hls, hopens.eq, List.append_assoc]
        rfl
      rcases mem_sides hsides with ⟨a, rfl, rfl⟩ | ⟨v, hv, -⟩
      · rw [textOf_append, size_append, hbrace] at hstart hstop
        rcases mem_sides (splitBody_append 0 (a ++ .comment (commentOf body) :: b)).symm with
          ⟨v, hv, -⟩ | ⟨v, hv, -⟩
        · have hplace := congrArg (fun ls => size (textOf ls)) hv
          simp only [textOf_append, size_append] at hplace
          omega
        · have hinner := ih hv.symm (by omega) (by omega)
          have hblock := hopens.eq ▸ hopens
          have hassoc (t : List Lexeme) :
              head ++ [.symbol '\x7b'] ++ t = head ++ .symbol '\x7b' :: t := by simp
          rw [hassoc, List.append_assoc, List.append_assoc, List.cons_append, List.cons_append]
          exact hblock.heldBy_inside (Prod.ext hv rfl) hat hgrouping hinner
      · have hplace : size (textOf (head ++ [.symbol '\x7b'])) =
            size (textOf (a ++ .comment (commentOf body) :: v)) := by rw [hv]
        rw [hbrace, size_textOf_space, textOf_append, size_append] at hplace
        omega

/-! ## The rules -/

variable {A B className : Text}

theorem lexemes_space (h : lexemes (A ++ (commentOf body ++ B)) =
    lexemes A ++ .comment (commentOf body) :: lexemes B) :
    lexemes (A ++ ' ' :: B) = lexemes A ++ .symbol ' ' :: lexemes B := by
  have hstands := (stands_of_lexemes h).2
  rw [textOf_lexemes] at hstands
  rw [hstands _ (by simp), lexemes_bare_cons (by decide) (by simp)]

/-- With a space in place of a comment in a selector, the one selector is read with the space and
all else as before. -/
theorem exists_rules_space (hlexemes : lexemes (A ++ (commentOf body ++ B)) =
      lexemes A ++ .comment (commentOf body) :: lexemes B)
    (hr : r ∈ (parse (A ++ (commentOf body ++ B))).rules)
    (hstart : r.selectorSpan.start ≤ size A) (hstop : size A < r.selectorSpan.stop) :
    ∃ before behind back r',
      (parse (A ++ (commentOf body ++ B))).rules =
        before ++ r :: behind.map (Rule.shift (size body + 3)) ∧
      (parse (A ++ ' ' :: B)).rules = before ++ r' :: behind ∧
      r.selector = dropBytes r.selectorSpan.start A ++ (commentOf body ++ trimEnd back) ∧
      r'.selector = trimEnd (dropBytes r.selectorSpan.start A ++ ' ' :: back) ∧
      r'.declarations = r.declarations ∧ r'.atRules = r.atRules := by
  have hfound : Found r [] 0 (lexemes (A ++ (commentOf body ++ B))) :=
    found_of_mem (mem_rulesFrom.mp hr)
  have hheld := hfound.heldBy hlexemes.symm (by rwa [textOf_lexemes, Nat.zero_add])
    (by rwa [textOf_lexemes, Nat.zero_add])
  rw [← hlexemes, ← lexemes_space hlexemes, textOf_lexemes] at hheld
  obtain ⟨place, front, back, declarations, before, behind, ⟨lead, rfl⟩, hplace, hrule, hes,
    hes'⟩ := hheld
  have hlead : place = size lead := by
    rw [size_append] at hplace
    omega
  have hspan : r.selectorSpan.start = size lead := by
    rw [hrule, ← hlead]
    rfl
  rw [hspan, dropBytes_size]
  refine ⟨before.filterMap Entry.rule?, behind.filterMap Entry.rule?, back,
    ruleAt r.atRules place (front ++ ' ' :: back) declarations, ?_, ?_, ?_, rfl, ?_, rfl⟩
  · change List.filterMap Entry.rule? (entries [] 0 (lexemes _)) = _
    rw [hes, List.filterMap_append, List.filterMap_cons, filterMap_rule?_shift]
    rfl
  · change List.filterMap Entry.rule? (entries [] 0 (lexemes _)) = _
    rw [hes', List.filterMap_append, List.filterMap_cons]
    rfl
  · rw [hrule, ← trimEnd_comment]
    rfl
  · rw [hrule]
    rfl

/-- A comment in a selector that says nothing that is looked for there makes no difference: whether
the class is found is the same with a space in its place, and so is which members of the selector
have the class, if the comment is no member by itself. -/
theorem transparent_comment (change : Change)
    (hlexemes : lexemes (A ++ (commentOf body ++ B)) =
      lexemes A ++ .comment (commentOf body) :: lexemes B)
    (hr : r ∈ (parse (A ++ (commentOf body ++ B))).rules)
    (hstart : r.selectorSpan.start ≤ size A) (hstop : size A < r.selectorSpan.stop)
    (hquiet : IsQuiet change.className body)
    (hgap : IsGap change.className (dropBytes r.selectorSpan.start A))
    (hname : trimEnd (escape change.className) = escape change.className) :
    ∃ before behind r',
      (parse (A ++ (commentOf body ++ B))).rules =
        before ++ r :: behind.map (Rule.shift (size body + 3)) ∧
      (parse (A ++ ' ' :: B)).rules = before ++ r' :: behind ∧
      r'.declarations = r.declarations ∧ r'.atRules = r.atRules ∧
      (parse (A ++ ' ' :: B)).mentions change.className =
        (parse (A ++ (commentOf body ++ B))).mentions change.className ∧
      (commentOf body ∉ members r.selector →
        (members r'.selector).length = (members r.selector).length ∧
        (members r'.selector).map (fun m => (Selector.modify change m).found) =
          (members r.selector).map fun m => (Selector.modify change m).found) := by
  obtain ⟨before, behind, back, r', hrules, hrules', hselector, hselector', hdeclarations,
    hatRules⟩ := exists_rules_space hlexemes hr hstart hstop
  refine ⟨before, behind, r', hrules, hrules', hdeclarations, hatRules, ?_, fun hmember => ?_⟩
  · have hsearch : hasClassToken (escape change.className) r'.selector =
        hasClassToken (escape change.className) r.selector := by
      rw [hselector, hselector', hasClassToken_trimEnd_gap hname hgap,
        hasClassToken_comment hquiet hgap]
    rw [mentions, mentions, hrules, hrules', List.any_append, List.any_append, List.any_cons,
      List.any_cons, hsearch, List.any_map]
    rfl
  · rw [hselector] at hmember
    have hfound := members_comment hquiet hgap hname hmember
    rw [← members_space, ← hselector, ← hselector'] at hfound
    refine ⟨?_, ?_⟩
    · have hlength := congrArg List.length hfound
      rw [List.length_map, List.length_map] at hlength
      exact hlength.symm
    · simp only [found_modify]
      exact hfound.symm

theorem transparent_comment_media :
    let A := "@media x \x7b.b > ".toList
    let body := "(y) ".toList
    let B := ".a, .c \x7b\x7d\x7d .d \x7b\x7d".toList
    let change : Change := ⟨['a'], "h\x5c:a".toList, ":hover".toList, []⟩
    ∃ r ∈ (parse (A ++ (commentOf body ++ B))).rules,
      r.selectorSpan.start ≤ size A ∧ size A < r.selectorSpan.stop ∧
      commentOf body ∉ members r.selector ∧
      (parse (A ++ ' ' :: B)).mentions ['a'] = true ∧
      ∃ before behind r',
        (parse (A ++ (commentOf body ++ B))).rules =
          before ++ r :: behind.map (Rule.shift (size body + 3)) ∧
        (parse (A ++ ' ' :: B)).rules = before ++ r' :: behind ∧
        (parse (A ++ ' ' :: B)).mentions ['a'] =
          (parse (A ++ (commentOf body ++ B))).mentions ['a'] ∧
        (members r'.selector).map (fun m => (Selector.modify change m).found) =
          (members r.selector).map fun m => (Selector.modify change m).found := by
  intro A body B change
  have hlexemes : lexemes (A ++ (commentOf body ++ B)) =
      lexemes A ++ .comment (commentOf body) :: lexemes B := by decide +kernel
  let r := ruleAt ["@media x".toList] 10 ".b > /*(y) */.a, .c ".toList []
  have hr : r ∈ (parse (A ++ (commentOf body ++ B))).rules := by decide +kernel
  have hstart : r.selectorSpan.start ≤ size A := by decide +kernel
  have hstop : size A < r.selectorSpan.stop := by decide +kernel
  have hmember : commentOf body ∉ members r.selector := by decide +kernel
  have hinner : Nested true ['y'] := .char rfl nofun .nil
  have hquiet : IsQuiet change.className body :=
    ⟨hinner.round (.char rfl nofun .nil), by decide, by decide +kernel⟩
  have hgap : IsGap change.className (dropBytes r.selectorSpan.start A) := by
    have hfront : dropBytes r.selectorSpan.start A = ".b > ".toList := by decide +kernel
    rw [hfront]
    refine ⟨by decide, fun p hp => ?_, ?_⟩
    · have hspace : ' ' ∈ classSelector ['a'] := hp.subset (by simp)
      exact absurd hspace (by decide +kernel)
    · have hall : ∀ c ∈ ".b > ".toList, (!isBlank c || !isIdentifierChar c) = true :=
        List.all_eq_true.mp rfl
      intro c hc hblank
      simpa [hblank] using hall c hc
  obtain ⟨before, behind, r', hrules, hrules', -, -, hmentions, hmembers⟩ :=
    transparent_comment change hlexemes hr hstart hstop hquiet hgap (by decide +kernel)
  exact ⟨r, hr, hstart, hstop, hmember, by decide +kernel, before, behind, r', hrules, hrules',
    hmentions, (hmembers hmember).2⟩

/-- An apostrophe in the comment hides the class. -/
theorem not_transparent_apostrophe :
    let A := ".b ".toList
    let body := " it\x27s ".toList
    let B := " .a \x7b\x7d".toList
    lexemes (A ++ (commentOf body ++ B)) = lexemes A ++ .comment (commentOf body) :: lexemes B ∧
      (∃ r ∈ (parse (A ++ (commentOf body ++ B))).rules,
        r.selectorSpan.start ≤ size A ∧ size A < r.selectorSpan.stop) ∧
      ¬ (parse (A ++ ' ' :: B)).mentions ['a'] =
        (parse (A ++ (commentOf body ++ B))).mentions ['a'] := by
  decide +kernel

end UtilityCss.Ruleset
