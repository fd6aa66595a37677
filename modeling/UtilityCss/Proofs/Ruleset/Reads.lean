import UtilityCss.Proofs.Ruleset.Contained

/-!
# The reading, item by item

A comment, a blank, a statement and a closed block are each read by themselves, and so is what
consists of them. Where a rule is read, what stands in front of it is of this kind.
-/

namespace UtilityCss.Ruleset

open Text Css

variable {ls : List Lexeme} {atRules : List Text} {start : Nat} {r : Rule}

/-- The lexemes are read to the entries, and the reading goes on behind them. -/
structure Reads (atRules : List Text) (start : Nat) (ls : List Lexeme) (es : List Entry)
    (stop : Nat) : Prop where
  read : ∀ behind, entries atRules start (ls ++ behind) = es ++ entries atRules stop behind
  stop_eq : stop = start + size (textOf ls)

namespace Reads

variable {ls' head body rest left : List Lexeme} {es es' : List Entry} {l close : Lexeme}
  {stop stop' : Nat}

theorem nil : Reads atRules start [] [] start :=
  ⟨fun _ => rfl, rfl⟩

theorem entries_eq (h : Reads atRules start ls es stop) : entries atRules start ls = es := by
  have hread := h.read []
  rwa [entries_nil, List.append_nil, List.append_nil] at hread

theorem append (h : Reads atRules start ls es stop) (h' : Reads atRules stop ls' es' stop') :
    Reads atRules start (ls ++ ls') (es ++ es') stop' where
  read behind := by rw [List.append_assoc, h.read, h'.read, List.append_assoc]
  stop_eq := by rw [h'.stop_eq, h.stop_eq, textOf_append, size_append, Nat.add_assoc]

theorem comment (t : Text) :
    Reads atRules start [.comment t] (if atRules.isEmpty then [.comment t] else [])
      (start + size t) :=
  ⟨fun _ => entries_comment t _, by simp [textOf, Lexeme.text]⟩

theorem filler (h : isFiller l = true) : Reads atRules start [l] [] (start + size l.text) :=
  ⟨fun _ => entries_filler h _, by simp [textOf]⟩

/-- A prelude is cut at the same place with other lexemes behind its end. -/
theorem exists_cons_of_split {end' : Lexeme}
    (h : splitPrelude 0 (l :: rest) = (head, end' :: left)) (behind : List Lexeme) :
    ∃ rest', head ++ end' :: behind = l :: rest' ∧
      splitPrelude 0 (l :: rest') = (head, end' :: behind) := by
  have hls : l :: rest = head ++ end' :: left := by
    rw [← splitPrelude_append 0 (l :: rest), h]
  have hcut : splitPrelude 0 (head ++ end' :: behind) = (head, end' :: behind) := by
    rw [hls] at h
    exact splitPrelude_cut h behind
  cases head with
  | nil =>
      obtain ⟨rfl, -⟩ := List.cons.inj hls
      exact ⟨behind, rfl, hcut⟩
  | cons first head =>
      obtain ⟨rfl, -⟩ := List.cons.inj hls
      exact ⟨head ++ end' :: behind, rfl, hcut⟩

/-- A statement, or what stands in front of a brace that closes nothing. -/
theorem statement {end' : Lexeme} (hcomment : ∀ t, l ≠ .comment t) (hfiller : isFiller l = false)
    (h : splitPrelude 0 (l :: rest) = (head, end' :: left)) (hend : end' ≠ .symbol '\x7b') :
    Reads atRules start (head ++ [end']) [] (start + size (textOf head) + 1) where
  read behind := by
    obtain ⟨rest', hrest, hsplit⟩ := exists_cons_of_split h behind
    rw [List.append_assoc, List.singleton_append, hrest, entries_cons hcomment hfiller hsplit]
    simp only [if_neg hend, List.nil_append]
  stop_eq := by
    rw [textOf_append, size_append, textOf_cons, size_append, splitPrelude_stop_size h, Nat.add_assoc]
    rfl

end Reads

structure Opens (ls head left : List Lexeme) : Prop where
  split : splitPrelude 0 ls = (head, .symbol '\x7b' :: left)
  starts : ∃ l rest, ls = l :: rest ∧ (∀ t, l ≠ .comment t) ∧ isFiller l = false

namespace Opens

variable {head left body behind : List Lexeme} {close : Lexeme}

theorem eq (h : Opens ls head left) : ls = head ++ .symbol '\x7b' :: left := by
  rw [← splitPrelude_append 0 ls, h.split]

theorem entries_eq (h : Opens ls head left) (atRules : List Text) (start : Nat) :
    entries atRules start ls =
      blockEntries atRules start (textOf head) (splitBody 0 left).1 ++
        entries atRules (start + size (textOf head) + 1 + size (textOf (splitBody 0 left).1) + 1)
          ((splitBody 0 left).2.drop 1) := by
  obtain ⟨l, rest, rfl, hcomment, hfiller⟩ := h.starts
  rw [entries_cons hcomment hfiller h.split]
  rfl

/-- With anything else behind the brace, a block begins in the same way. -/
theorem replace (h : Opens ls head left) (left' : List Lexeme) :
    Opens (head ++ .symbol '\x7b' :: left') head left' := by
  obtain ⟨l, rest, rfl, hcomment, hfiller⟩ := h.starts
  obtain ⟨rest', hrest, hsplit⟩ := Reads.exists_cons_of_split h.split left'
  rw [hrest]
  exact ⟨hsplit, l, rest', rfl, hcomment, hfiller⟩

/-- A block with the brace that closes it. -/
theorem reads (h : Opens ls head left) (hbody : splitBody 0 left = (body, close :: behind))
    (atRules : List Text) (start : Nat) :
    Reads atRules start (head ++ .symbol '\x7b' :: (body ++ [close]))
      (blockEntries atRules start (textOf head) body)
      (start + size (textOf head) + 1 + size (textOf body) + 1) where
  read rest := by
    obtain rfl := splitBody_stop hbody
    have hleft : left = body ++ .symbol '\x7d' :: behind := by
      rw [← splitBody_append 0 left, hbody]
    have hclosed : Closed body := closed_of_splitBody (by rw [← hleft, hbody])
    have hassoc : head ++ .symbol '\x7b' :: (body ++ [.symbol '\x7d']) ++ rest =
        head ++ .symbol '\x7b' :: (body ++ .symbol '\x7d' :: rest) := by simp
    rw [hassoc, (h.replace _).entries_eq, hclosed.splitBody_eq]
    rfl
  stop_eq := by
    obtain rfl := splitBody_stop hbody
    simp only [textOf_append, textOf_cons, size_append, Lexeme.text, Nat.add_assoc]
    rfl

end Opens

/-! ## Finding a rule -/

/-- Where a rule is read: behind an item, from the first prelude, or in the body of an at-rule. -/
inductive Found (r : Rule) : List Text → Nat → List Lexeme → Prop where
  | behind {atRules : List Text} {start stop : Nat} {item rest : List Lexeme} {here : List Entry}
      (hitem : Reads atRules start item here stop) (h : Found r atRules stop rest) :
      Found r atRules start (item ++ rest)
  | here {atRules : List Text} {start : Nat} {ls head left : List Lexeme}
      (hopens : Opens ls head left) (hat : (textOf head).head? ≠ some '@')
      (hr : r = ruleAt atRules start (textOf head) (textOf (splitBody 0 left).1)) :
      Found r atRules start ls
  | inside {atRules : List Text} {start : Nat} {ls head left : List Lexeme}
      (hopens : Opens ls head left) (hat : (textOf head).head? = some '@')
      (hgrouping : Rule.isGrouping (trimEnd (textOf head)) = true)
      (h : Found r (atRules ++ [trimEnd (textOf head)]) (start + size (textOf head) + 1)
        (splitBody 0 left).1) :
      Found r atRules start ls

theorem found_of_mem (h : .rule r ∈ entries atRules start ls) : Found r atRules start ls := by
  fun_induction entries atRules start ls with
  | case1 => exact absurd h List.not_mem_nil
  | case2 atRules start t rest here ih =>
      have hhere : .rule r ∉ here := by
        simp only [here]
        split <;> simp
      exact .behind (.comment t) (ih ((List.mem_append.mp h).resolve_left hhere))
  | case3 atRules start l rest hl hfiller ih => exact .behind (.filler hfiller) (ih h)
  | case4 => exact absurd h List.not_mem_nil
  | case5 atRules start l rest hl hfiller head left prelude bodyStart body ending hbody here
      hsplit ihbody ih =>
      have hopens : Opens (l :: rest) head left := ⟨hsplit, l, rest, rfl, hl, by simpa using hfiller⟩
      have hfirst : (splitBody 0 left).1 = body := by rw [hbody]
      rcases List.mem_append.mp h with hmem | hmem
      · simp only [here] at hmem
        split at hmem
        next hat =>
          split at hmem
          next hgrouping => exact .inside hopens hat hgrouping (hfirst ▸ ihbody hmem)
          next => exact absurd hmem List.not_mem_nil
        next hat =>
          refine .here hopens hat ?_
          rw [hfirst]
          exact Entry.rule.inj (List.mem_singleton.mp hmem)
      · cases ending with
        | nil =>
            rw [List.drop_nil, entries_nil] at hmem
            exact absurd hmem List.not_mem_nil
        | cons close behind =>
            have hitems : l :: rest = head ++ .symbol '\x7b' :: (body ++ [close]) ++ behind := by
              rw [hopens.eq, ← splitBody_append 0 left, hbody]
              simp
            rw [hitems]
            exact .behind (hopens.reads hbody atRules start) (ih hmem)
  | case6 atRules start l rest hl hfiller head stop left hsplit prelude bodyStart hstop ih =>
      have hls : l :: rest = head ++ [stop] ++ left := by
        rw [← splitPrelude_append 0 (l :: rest), hsplit]
        simp
      rw [hls]
      exact .behind (.statement hl (by simpa using hfiller) hsplit hstop) (ih h)

namespace Found

/-- The selector stands in the text. -/
theorem within (h : Found r atRules start ls) :
    start ≤ r.selectorSpan.start ∧ r.selectorSpan.stop ≤ start + size (textOf ls) := by
  induction h with
  | behind hitem h ih =>
      rw [textOf_append, size_append]
      rw [hitem.stop_eq] at ih
      omega
  | @here atRules start ls head left hopens hat hr =>
      have hle := size_trimEnd_le (textOf head)
      rw [hr, hopens.eq, textOf_append, size_append]
      simp only [ruleAt]
      omega
  | @inside atRules start ls head left hopens hat hgrouping h ih =>
      have hbrace : Char.utf8Size '\x7b' = 1 := rfl
      have hbody := congrArg (fun ls => size (textOf ls)) (splitBody_append 0 left)
      rw [hopens.eq]
      simp only [textOf_append, textOf_cons, size_append, Lexeme.text, size_cons, size_nil,
        hbrace] at hbody ⊢
      omega

theorem atRules_prefix (h : Found r atRules start ls) : atRules <+: r.atRules := by
  induction h with
  | behind hitem h ih => exact ih
  | here hopens hat hr =>
      rw [hr]
      exact List.prefix_refl _
  | inside hopens hat hgrouping h ih => exact (List.prefix_append _ _).trans ih

end Found

/-- The rule is read where its prelude and its body stand, outside the at-rules that the lexemes hold.
What stands in front of it is read as it is without the rest. -/
def Finds (atRules : List Text) (start : Nat) (ls : List Lexeme) (r : Rule) : Prop :=
  ∃ before es head left place stop, ls = before ++ (head ++ .symbol '\x7b' :: left) ∧
    Reads atRules start before es place ∧
    r = ruleAt atRules place (textOf head) (textOf (splitBody 0 left).1) ∧
    entries atRules start ls =
      es ++ .rule r :: entries atRules stop ((splitBody 0 left).2.drop 1)

theorem Reads.finds {item : List Lexeme} {here : List Entry} {stop : Nat}
    (hitem : Reads atRules start item here stop) (h : Finds atRules stop ls r) :
    Finds atRules start (item ++ ls) r := by
  obtain ⟨before, es, head, left, place, stop, rfl, hbefore, hrule, hread⟩ := h
  refine ⟨item ++ before, here ++ es, head, left, place, stop, (List.append_assoc ..).symm,
    hitem.append hbefore, hrule, ?_⟩
  rw [hitem.read, hread, List.append_assoc]

theorem Found.finds (h : Found r atRules start ls) (hr : r.atRules = atRules) :
    Finds atRules start ls r := by
  induction h with
  | behind hitem h ih => exact hitem.finds (ih hr)
  | @here atRules start ls head left hopens hat hrule =>
      have hread := hopens.entries_eq atRules start
      rw [blockEntries, if_neg hat, ← hrule] at hread
      exact ⟨[], [], head, left, start, _, hopens.eq, .nil, hrule, hread⟩
  | inside hopens hat hgrouping h ih =>
      -- A rule in an at-rule has it around it.
      have hinner := h.atRules_prefix.length_le
      rw [hr, List.length_append, List.length_singleton] at hinner
      omega

end UtilityCss.Ruleset
