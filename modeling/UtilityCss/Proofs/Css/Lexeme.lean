import UtilityCss.Css.Lexeme

/-!
# Lexemes of joined texts

Lexemes are found from left to right, and what follows decides only whether a slash opens a
comment. A stretch of text that leaves nothing open therefore has its own lexemes, whatever stands
behind it.
-/

namespace UtilityCss.Css

open Text

def isBare (c : Char) : Bool :=
  !(c == '\x7b' || c == '\x7d' || c == '\x5c' || isQuote c)

def commentOf (body : Text) : Text :=
  '/' :: '*' :: body ++ ['*', '/']

/-- What may stand between two quotes: a backslash takes the next character along, and the quote
itself occurs only so. -/
inductive StringBody (quote : Char) : Text → Prop where
  | nil : StringBody quote []
  | char {c : Char} {t : Text} (hquote : c ≠ quote) (hescape : c ≠ '\x5c')
      (ht : StringBody quote t) : StringBody quote (c :: t)
  | escape {c : Char} {t : Text} (ht : StringBody quote t) : StringBody quote ('\x5c' :: c :: t)

/-- How many brackets are open behind a text, `depth` of them in front of it; none if it closes
one that is not open. Parentheses and square brackets count alike. -/
def bracketDepth? (depth : Nat) : Text → Option Nat
  | [] => some depth
  | c :: t =>
      if c = '(' ∨ c = '[' then bracketDepth? (depth + 1) t
      else if c = ')' ∨ c = ']' then
        if depth = 0 then none else bracketDepth? (depth - 1) t
      else bracketDepth? depth t

theorem bracketDepth?_cons (depth : Nat) (c : Char) (t : Text) :
    bracketDepth? depth (c :: t) =
      (bracketDepth? depth [c]).bind fun deeper => bracketDepth? deeper t := by
  simp only [bracketDepth?]
  split
  · rfl
  · split
    · split <;> rfl
    · rfl

theorem bracketDepth?_append (depth : Nat) (s t : Text) :
    bracketDepth? depth (s ++ t) =
      (bracketDepth? depth s).bind fun deeper => bracketDepth? deeper t := by
  induction s generalizing depth with
  | nil => rfl
  | cons c s ih =>
      rw [List.cons_append, bracketDepth?_cons depth c (s ++ t), bracketDepth?_cons depth c s]
      cases bracketDepth? depth [c] with
      | none => rfl
      | some deeper => exact ih deeper

theorem isBare_of_isAsciiBlank {c : Char} (h : isAsciiBlank c = true) : isBare c = true := by
  simp only [isAsciiBlank, Bool.or_eq_true, beq_iff_eq] at h
  rcases h with (((rfl | rfl) | rfl) | rfl) | rfl <;> decide

theorem lexemes_symbol_cons {c : Char} {t : Text} (hescape : c ≠ '\x5c')
    (hquote : isQuote c = false) (hopen : c = '/' → t.head? ≠ some '*') :
    lexemes (c :: t) = .symbol c :: lexemes t := by
  rw [lexemes]
  · simp [hescape, hquote]
  · intro rest hc ht
    exact hopen hc (by rw [ht]; rfl)

theorem lexemes_bare_cons {c : Char} {t : Text} (hc : isBare c = true)
    (hopen : c = '/' → t.head? ≠ some '*') : lexemes (c :: t) = .symbol c :: lexemes t := by
  simp only [isBare, Bool.not_eq_true', Bool.or_eq_false_iff, beq_eq_false_iff_ne] at hc
  exact lexemes_symbol_cons hc.1.2 hc.2 hopen

theorem ne_backslash_of_isQuote {c : Char} (h : isQuote c = true) : c ≠ '\x5c' := by
  rintro rfl
  exact absurd h (by decide)

theorem isBlank_of_isQuote {c : Char} (h : isQuote c = true) : isBlank c = false := by
  rw [isQuote, Bool.or_eq_true, beq_iff_eq, beq_iff_eq] at h
  rcases h with rfl | rfl <;> decide

/-- What the cases of `afterString` say of a character that is not escaped and starts no escape. -/
theorem ne_backslash_of_cases {c : Char} {t : Text} (hlone : c = '\x5c' → t = [] → False)
    (hpair : ∀ next rest, c = '\x5c' → t = next :: rest → False) : c ≠ '\x5c' := fun hc => by
  cases t with
  | nil => exact hlone hc rfl
  | cons next rest => exact hpair next rest hc rfl

theorem afterString_body {quote : Char} {body : Text} (h : StringBody quote body)
    (hquote : isQuote quote = true) (t : Text) :
    afterString quote (body ++ quote :: t) = t := by
  have hescape := ne_backslash_of_isQuote hquote
  induction h with
  | nil =>
      rw [List.nil_append, afterString]
      · rw [if_pos rfl]
      · exact fun heq _ => hescape heq
      · exact fun _ _ heq _ => hescape heq
  | @char c _ hc hb _ ih =>
      rw [List.cons_append, afterString]
      · rw [if_neg hc, ih]
      · exact fun heq _ => hb heq
      · exact fun _ _ heq _ => hb heq
  | escape _ ih => rw [List.cons_append, List.cons_append, afterString, ih]

theorem afterComment_body {body : Text} (h : ¬ ['*', '/'] <:+: body) (t : Text) :
    afterComment (body ++ '*' :: '/' :: t) = t := by
  induction body with
  | nil => rfl
  | cons c body ih =>
      have hrest : ¬ ['*', '/'] <:+: body := by
        intro hin
        exact h (hin.trans (List.suffix_cons c body).isInfix)
      rw [List.cons_append, afterComment, ih hrest]
      rintro rest rfl heq
      cases body with
      | nil => cases heq
      | cons second body =>
          rw [List.cons_append, List.cons.injEq] at heq
          exact h ⟨[], body, by rw [heq.1]; rfl⟩

theorem upTo_self_append (s t : Text) : upTo (s ++ t) t = s := by
  simp [upTo]

theorem lexemes_string {quote : Char} {body : Text} (hquote : isQuote quote = true)
    (hbody : StringBody quote body) (t : Text) :
    lexemes (quote :: (body ++ quote :: t)) =
      .verbatim (quote :: (body ++ [quote])) :: lexemes t := by
  have hescape := ne_backslash_of_isQuote hquote
  have hslash : quote ≠ '/' := by
    rintro rfl
    revert hquote
    decide
  have hsplit : body ++ quote :: t = (body ++ [quote]) ++ t := by simp
  rw [lexemes]
  · simp only [if_neg hescape, if_pos hquote, afterString_body hbody hquote]
    rw [hsplit, upTo_self_append]
  · exact fun _ heq _ => hslash heq

theorem lexemes_comment {body : Text} (h : ¬ ['*', '/'] <:+: body) (t : Text) :
    lexemes (commentOf body ++ t) = .comment (commentOf body) :: lexemes t := by
  have hsplit : body ++ '*' :: '/' :: t = (body ++ ['*', '/']) ++ t := by simp
  have hopen : commentOf body ++ t = '/' :: '*' :: (body ++ '*' :: '/' :: t) := by
    simp [commentOf]
  rw [hopen, lexemes]
  simp only [afterComment_body h]
  rw [hsplit, upTo_self_append]
  rfl

theorem lexemes_escape (c : Char) (t : Text) :
    lexemes ('\x5c' :: c :: t) = .verbatim ['\x5c', c] :: lexemes t := by
  rw [lexemes]
  · simp
  · exact fun _ heq _ => absurd heq (by decide)

/-! ## Stretches of text -/

/-- Text that leaves nothing open: any mix of bare characters, escapes, strings and comments. -/
inductive Whole : Text → Prop where
  | nil : Whole []
  | char {c : Char} {t : Text} (hbare : isBare c = true) (hopen : c = '/' → t.head? ≠ some '*')
      (ht : Whole t) : Whole (c :: t)
  | escape {c : Char} {t : Text} (ht : Whole t) : Whole ('\x5c' :: c :: t)
  | string {quote : Char} {body t : Text} (hquote : isQuote quote = true)
      (hbody : StringBody quote body) (ht : Whole t) : Whole (quote :: (body ++ quote :: t))
  | comment {body t : Text} (hbody : ¬ ['*', '/'] <:+: body) (ht : Whole t) :
      Whole (commentOf body ++ t)

/-- What follows does not begin the second half of a comment delimiter. -/
theorem head?_append_ne {s t : Text} (hs : s.head? ≠ some '*') (ht : t.head? ≠ some '*') :
    (s ++ t).head? ≠ some '*' := by
  cases s with
  | nil => exact ht
  | cons c s => exact hs

theorem Whole.append {s t : Text} (h : Whole s) (h' : Whole t) (ht : t.head? ≠ some '*') :
    Whole (s ++ t) := by
  induction h with
  | nil => exact h'
  | char hbare hopen _ ih => exact .char hbare (fun hc => head?_append_ne (hopen hc) ht) ih
  | escape _ ih => exact .escape ih
  | @string quote body s hquote hbody _ ih =>
      have hassoc : quote :: (body ++ quote :: s) ++ t = quote :: (body ++ quote :: (s ++ t)) := by
        simp
      rw [hassoc]
      exact .string hquote hbody ih
  | comment hbody _ ih =>
      rw [List.append_assoc]
      exact .comment hbody ih

/-- Bare characters that open no comment may stand in front of anything. -/
theorem Whole.bare_append {s t : Text} (hs : ∀ c ∈ s, isBare c = true ∧ c ≠ '/') (h : Whole t) :
    Whole (s ++ t) := by
  induction s with
  | nil => exact h
  | cons c s ih =>
      obtain ⟨hbare, hslash⟩ := hs c List.mem_cons_self
      exact .char hbare (fun hc => absurd hc hslash) (ih fun x hx => hs x (List.mem_cons_of_mem c hx))

theorem Whole.of_bare {s : Text} (hbare : ∀ c ∈ s, isBare c = true)
    (hopen : ¬ ['/', '*'] <:+: s) : Whole s := by
  induction s with
  | nil => exact .nil
  | cons c s ih =>
      refine .char (hbare c List.mem_cons_self) ?_ (ih ?_ ?_)
      · rintro rfl hhead
        obtain ⟨t, ht⟩ := List.head?_eq_some_iff.mp hhead
        exact hopen ⟨[], t, by rw [ht]; rfl⟩
      · exact fun x hx => hbare x (List.mem_cons_of_mem c hx)
      · exact fun hin => hopen (hin.trans (List.suffix_cons c s).isInfix)

theorem Whole.lexemes_append {s : Text} (h : Whole s) {t : Text} (ht : t.head? ≠ some '*') :
    lexemes (s ++ t) = lexemes s ++ lexemes t := by
  have hnil : lexemes [] = [] := by rw [lexemes]
  induction h with
  | nil => rw [hnil, List.nil_append, List.nil_append]
  | @char c s hbare hopen _ ih =>
      rw [List.cons_append, lexemes_bare_cons hbare fun hc => head?_append_ne (hopen hc) ht,
        lexemes_bare_cons hbare hopen, ih, List.cons_append]
  | @escape c s _ ih =>
      rw [List.cons_append, List.cons_append, lexemes_escape, lexemes_escape, ih, List.cons_append]
  | @string quote body s hquote hbody _ ih =>
      have hassoc : quote :: (body ++ quote :: s) ++ t = quote :: (body ++ quote :: (s ++ t)) := by
        simp
      rw [hassoc, lexemes_string hquote hbody, lexemes_string hquote hbody, ih, List.cons_append]
  | comment hbody _ ih =>
      rw [List.append_assoc, lexemes_comment hbody, lexemes_comment hbody, ih, List.cons_append]

theorem lexemes_bare_append {s t : Text} (hbare : ∀ c ∈ s, isBare c = true)
    (hopen : ¬ ['/', '*'] <:+: s) (ht : t.head? ≠ some '*') :
    lexemes (s ++ t) = s.map .symbol ++ lexemes t := by
  induction s with
  | nil => rfl
  | cons c s ih =>
      have hrest : ¬ ['/', '*'] <:+: s := by
        intro hin
        exact hopen (hin.trans (List.suffix_cons c s).isInfix)
      rw [List.cons_append, lexemes_bare_cons (hbare c List.mem_cons_self),
        ih (fun x hx => hbare x (List.mem_cons_of_mem c hx)) hrest]
      · rfl
      · rintro rfl hhead
        cases s with
        | nil => exact ht hhead
        | cons second s =>
            rw [List.cons_append, List.head?_cons, Option.some.injEq] at hhead
            exact hopen ⟨[], s, by rw [hhead]; rfl⟩

theorem lexemes_blanks_append {ws : Text} (h : ∀ c ∈ ws, isAsciiBlank c = true) (t : Text) :
    lexemes (ws ++ t) = ws.map .symbol ++ lexemes t := by
  induction ws with
  | nil => rfl
  | cons c ws ih =>
      have hc : isAsciiBlank c = true := h c List.mem_cons_self
      rw [List.cons_append, lexemes_bare_cons (isBare_of_isAsciiBlank hc),
        ih fun x hx => h x (List.mem_cons_of_mem c hx)]
      · rfl
      · rintro rfl
        exact absurd hc (by decide)

end UtilityCss.Css
