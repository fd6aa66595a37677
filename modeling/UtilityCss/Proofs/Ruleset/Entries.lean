import UtilityCss.Proofs.Css.Lexeme
import UtilityCss.Ruleset.Parse

/-!
# Reading lexeme by lexeme

One equation for every way in which the reading of a ruleset goes on: over a blank, over a comment,
over a statement, and over a block, which is a rule, a grouping at-rule or none of these.
-/

namespace UtilityCss.Ruleset

open Text Css

/-- How many brackets are open behind the lexemes of a prelude, `depth` of them in front of it; none
if a bracket is closed that is not open, or if there is a brace or a semicolon. -/
def preludeDepth? (depth : Nat) : List Lexeme → Option Nat
  | [] => some depth
  | .symbol c :: rest =>
      if c = '\x7b' ∨ c = ';' ∨ c = '\x7d' then none
      else (bracketDepth? depth [c]).bind fun deeper => preludeDepth? deeper rest
  | _ :: rest => preludeDepth? depth rest

theorem preludeDepth?_append (depth : Nat) (ls ls' : List Lexeme) :
    preludeDepth? depth (ls ++ ls') =
      (preludeDepth? depth ls).bind fun deeper => preludeDepth? deeper ls' := by
  induction ls generalizing depth with
  | nil => rfl
  | cons l ls ih =>
      cases l with
      | symbol c =>
          simp only [List.cons_append, preludeDepth?]
          split
          · rfl
          · cases bracketDepth? depth [c] with
            | none => rfl
            | some deeper => exact ih deeper
      | verbatim t => exact ih depth
      | comment t => exact ih depth

theorem preludeDepth?_symbols {t : Text} (h : ∀ c ∈ t, isBare c = true ∧ c ≠ ';') (depth : Nat) :
    preludeDepth? depth (t.map .symbol) = bracketDepth? depth t := by
  induction t generalizing depth with
  | nil => rfl
  | cons c t ih =>
      obtain ⟨hbare, hsemicolon⟩ := h c List.mem_cons_self
      have hrest := ih fun x hx => h x (List.mem_cons_of_mem c hx)
      have hstop : ¬ (c = '\x7b' ∨ c = ';' ∨ c = '\x7d') := by
        rintro (rfl | rfl | rfl)
        · exact absurd hbare (by decide)
        · exact hsemicolon rfl
        · exact absurd hbare (by decide)
      rw [List.map_cons, preludeDepth?, if_neg hstop, bracketDepth?_cons depth c t]
      simp only [hrest]

/-- A prelude with balanced brackets is read to its end. -/
theorem splitPrelude_balanced {ls : List Lexeme} {depth depth' : Nat}
    (h : preludeDepth? depth ls = some depth') (rest : List Lexeme) :
    splitPrelude depth (ls ++ rest) =
      (ls ++ (splitPrelude depth' rest).1, (splitPrelude depth' rest).2) := by
  induction ls generalizing depth with
  | nil =>
      rw [preludeDepth?, Option.some.injEq] at h
      rw [h]
      rfl
  | cons l ls ih =>
      cases l with
      | symbol c =>
          rw [preludeDepth?] at h
          split at h
          next => cases h
          next hstop =>
            obtain ⟨deeper, hdeeper, hrest⟩ := Option.bind_eq_some_iff.mp h
            have hstep : deeper =
                if c = '(' ∨ c = '[' then depth + 1
                else if c = ')' ∨ c = ']' then depth - 1 else depth := by
              simp only [bracketDepth?] at hdeeper
              split at hdeeper
              next hopen => rw [if_pos hopen, ← Option.some.inj hdeeper]
              next hopen =>
                rw [if_neg hopen]
                split at hdeeper
                next hclose =>
                  rw [if_pos hclose]
                  split at hdeeper
                  next => cases hdeeper
                  next => rw [← Option.some.inj hdeeper]
                next hclose => rw [if_neg hclose, ← Option.some.inj hdeeper]
            rw [List.cons_append, splitPrelude, if_neg fun hc => hstop hc.2, ← hstep]
            simp only [ih hrest, List.cons_append]
      | verbatim t =>
          rw [List.cons_append, splitPrelude]
          simp only [ih h, List.cons_append]
          all_goals simp
      | comment t =>
          rw [List.cons_append, splitPrelude]
          simp only [ih h, List.cons_append]
          all_goals simp

theorem splitPrelude_stop {c : Char} (hc : c = '\x7b' ∨ c = ';') (ls : List Lexeme) :
    splitPrelude 0 (.symbol c :: ls) = ([], .symbol c :: ls) := by
  rcases hc with rfl | rfl <;> simp [splitPrelude]

/-! ## Bodies -/

def depthBehind (depth : Nat) (l : Lexeme) : Nat :=
  if l = .symbol '\x7b' then depth + 1 else if l = .symbol '\x7d' then depth - 1 else depth

theorem splitBody_cons {depth : Nat} {l : Lexeme} (h : ¬ (depth = 0 ∧ l = .symbol '\x7d'))
    (ls : List Lexeme) :
    splitBody depth (l :: ls) =
      (l :: (splitBody (depthBehind depth l) ls).1, (splitBody (depthBehind depth l) ls).2) := by
  cases l with
  | symbol c =>
      rw [Lexeme.symbol.injEq] at h
      rw [splitBody, if_neg h]
      simp only [depthBehind, Lexeme.symbol.injEq]
  | verbatim t => rfl
  | comment t => rfl

theorem splitBody_close (ls : List Lexeme) :
    splitBody 0 (.symbol '\x7d' :: ls) = ([], .symbol '\x7d' :: ls) := by
  simp [splitBody]

def Closed (ls : List Lexeme) : Prop :=
  ∀ depth rest, splitBody depth (ls ++ rest) =
    (ls ++ (splitBody depth rest).1, (splitBody depth rest).2)

theorem Closed.nil : Closed [] := fun _ _ => rfl

theorem Closed.append {ls ls' : List Lexeme} (h : Closed ls) (h' : Closed ls') :
    Closed (ls ++ ls') := by
  intro depth rest
  rw [List.append_assoc, h, h', List.append_assoc]

theorem Closed.cons {l : Lexeme} {ls : List Lexeme} (h : Closed ls) (hopen : l ≠ .symbol '\x7b')
    (hclose : l ≠ .symbol '\x7d') : Closed (l :: ls) := by
  intro depth rest
  have hdepth : depthBehind depth l = depth := by rw [depthBehind, if_neg hopen, if_neg hclose]
  rw [List.cons_append, splitBody_cons (fun hstop => hclose hstop.2), hdepth, h]
  rfl

theorem Closed.block {ls : List Lexeme} (h : Closed ls) :
    Closed (.symbol '\x7b' :: (ls ++ [.symbol '\x7d'])) := by
  intro depth rest
  have hopen : depthBehind depth (.symbol '\x7b') = depth + 1 := by simp [depthBehind]
  have hclose : depthBehind (depth + 1) (.symbol '\x7d') = depth := by simp [depthBehind]
  rw [List.cons_append, splitBody_cons (by simp), hopen, List.append_assoc, h,
    List.singleton_append, splitBody_cons (by omega), hclose]
  simp

theorem Closed.symbols {t : Text} (h : ∀ c ∈ t, isBare c = true) :
    Closed (t.map .symbol) := by
  induction t with
  | nil => exact Closed.nil
  | cons c t ih =>
      have hc : isBare c = true := h c List.mem_cons_self
      refine (ih fun x hx => h x (List.mem_cons_of_mem c hx)).cons ?_ ?_
      all_goals
        rintro heq
        rw [Lexeme.symbol.injEq] at heq
        subst heq
        revert hc
        decide

theorem closed_lexemes {s : Text} (h : Whole s) : Closed (lexemes s) := by
  induction h with
  | nil =>
      rw [lexemes]
      exact .nil
  | @char c s hbare hopen _ ih =>
      rw [lexemes_bare_cons hbare hopen]
      exact (Closed.symbols (t := [c]) (by simpa using hbare)).append ih
  | escape _ ih =>
      rw [lexemes_escape]
      exact ih.cons (by simp) (by simp)
  | string hquote hbody _ ih =>
      rw [lexemes_string hquote hbody]
      exact ih.cons (by simp) (by simp)
  | comment hbody _ ih =>
      rw [lexemes_comment hbody]
      exact ih.cons (by simp) (by simp)

theorem Closed.splitBody_eq {ls : List Lexeme} (h : Closed ls) (rest : List Lexeme) :
    splitBody 0 (ls ++ .symbol '\x7d' :: rest) = (ls, .symbol '\x7d' :: rest) := by
  rw [h, splitBody_close, List.append_nil]

/-! ## Entries -/

variable {atRules : List Text} {start : Nat}

theorem entries_nil : entries atRules start [] = [] := by
  rw [entries]

theorem entries_comment (t : Text) (ls : List Lexeme) :
    entries atRules start (.comment t :: ls) =
      (if atRules.isEmpty then [.comment t] else []) ++ entries atRules (start + size t) ls := by
  rw [entries]

theorem entries_filler {l : Lexeme} (h : isFiller l = true) (ls : List Lexeme) :
    entries atRules start (l :: ls) = entries atRules (start + size l.text) ls := by
  rw [entries]
  · rw [if_pos h]
  · rintro t rfl
    cases h

theorem entries_blanks {ws : Text} (h : ∀ c ∈ ws, isAsciiBlank c = true) (ls : List Lexeme) :
    entries atRules start (ws.map .symbol ++ ls) = entries atRules (start + size ws) ls := by
  induction ws generalizing start with
  | nil => rfl
  | cons c ws ih =>
      have hfiller : isFiller (.symbol c) = true := by simp [isFiller, h c List.mem_cons_self]
      rw [List.map_cons, List.cons_append, entries_filler hfiller,
        ih fun x hx => h x (List.mem_cons_of_mem c hx)]
      simp [Lexeme.text, Nat.add_assoc]

def startsPrelude (c : Char) : Bool :=
  !(isAsciiBlank c || c == '\x7d')

/-- A prelude without a body is skipped. -/
theorem entries_unfinished {l : Lexeme} {rest head : List Lexeme} (hcomment : ∀ t, l ≠ .comment t)
    (hfiller : isFiller l = false) (h : splitPrelude 0 (l :: rest) = (head, [])) :
    entries atRules start (l :: rest) = [] := by
  rw [entries]
  · rw [if_neg (by simp [hfiller])]
    split
    next => rfl
    next heq =>
      rw [h] at heq
      cases heq
  · exact hcomment

/-- The reading of a block or a statement, whose first lexeme is no comment and not skipped. -/
theorem entries_cons {l stop : Lexeme} {rest head left : List Lexeme}
    (hcomment : ∀ t, l ≠ .comment t) (hfiller : isFiller l = false)
    (h : splitPrelude 0 (l :: rest) = (head, stop :: left)) :
    entries atRules start (l :: rest) =
      let prelude := textOf head
      let bodyStart := start + size prelude + 1
      if stop = .symbol '\x7b' then
        let body := (splitBody 0 left).1
        let here :=
          if prelude.head? = some '@' then
            if Rule.isGrouping (trimEnd prelude) then
              entries (atRules ++ [trimEnd prelude]) bodyStart body
            else []
          else [.rule (ruleAt atRules start prelude (textOf body))]
        here ++ entries atRules (bodyStart + size (textOf body) + 1) ((splitBody 0 left).2.drop 1)
      else entries atRules bodyStart left := by
  rw [entries]
  · rw [if_neg (by simp [hfiller])]
    split
    next heq =>
      rw [h] at heq
      cases heq
    next heq =>
      rw [h] at heq
      cases heq
      rfl
  · exact hcomment

theorem entries_prelude {c : Char} {ls tail head left : List Lexeme} {stop : Lexeme}
    (hls : ls = .symbol c :: tail) (hc : startsPrelude c = true)
    (h : splitPrelude 0 ls = (head, stop :: left)) :
    entries atRules start ls =
      let prelude := textOf head
      let bodyStart := start + size prelude + 1
      if stop = .symbol '\x7b' then
        let body := (splitBody 0 left).1
        let here :=
          if prelude.head? = some '@' then
            if Rule.isGrouping (trimEnd prelude) then
              entries (atRules ++ [trimEnd prelude]) bodyStart body
            else []
          else [.rule (ruleAt atRules start prelude (textOf body))]
        here ++ entries atRules (bodyStart + size (textOf body) + 1) ((splitBody 0 left).2.drop 1)
      else entries atRules bodyStart left := by
  subst hls
  exact entries_cons (by simp) (by simpa [isFiller, startsPrelude] using hc) h

end UtilityCss.Ruleset
