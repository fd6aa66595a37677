import UtilityCss.Proofs.Css.Lexeme

/-!
# Cutting a reading at a symbol

Only the last lexeme of a text can be one that its end has cut short. So the lexemes in front of a
symbol are those of the text they show, whatever stands there in place of the symbol.
-/

namespace UtilityCss.Css

open Text

inductive Finished : Lexeme → Prop where
  | symbol {c : Char} (hescape : c ≠ '\x5c') (hquote : isQuote c = false) : Finished (.symbol c)
  | escape (c : Char) : Finished (.verbatim ['\x5c', c])
  | string {quote : Char} {body : Text} (hquote : isQuote quote = true)
      (hbody : StringBody quote body) : Finished (.verbatim (quote :: (body ++ [quote])))
  | comment {body : Text} (hbody : ¬ ['*', '/'] <:+: body) : Finished (.comment (commentOf body))

/-- What follows the lexeme does not make it the start of a comment. -/
def FollowedBy (l : Lexeme) (t : Text) : Prop :=
  l = .symbol '/' → t.head? ≠ some '*'

/-- The text keeps its lexemes in front of any text that begins with no star. -/
def Stands (t : Text) : Prop :=
  ∀ behind, behind.head? ≠ some '*' → lexemes (t ++ behind) = lexemes t ++ lexemes behind

theorem exists_body_of_afterComment {t : Text} (h : afterComment t ≠ []) :
    ∃ body, ¬ ['*', '/'] <:+: body ∧ t = body ++ '*' :: '/' :: afterComment t := by
  fun_induction afterComment t with
  | case1 => exact absurd rfl h
  | case2 rest => exact ⟨[], by simp, rfl⟩
  | case3 c rest hopen ih =>
      obtain ⟨body, hbody, heq⟩ := ih h
      refine ⟨c :: body, fun hin => ?_, by rw [List.cons_append, ← heq]⟩
      rcases List.infix_cons_iff.mp hin with ⟨tail, htail⟩ | hin
      · obtain ⟨rfl, rfl⟩ := List.cons.inj htail
        exact hopen _ rfl heq
      · exact hbody hin

theorem exists_body_of_afterString {quote : Char} {t : Text} (h : afterString quote t ≠ []) :
    ∃ body, StringBody quote body ∧ t = body ++ quote :: afterString quote t := by
  fun_induction afterString quote t with
  | case1 => exact absurd rfl h
  | case2 => exact absurd rfl h
  | case3 c rest ih =>
      obtain ⟨body, hbody, heq⟩ := ih h
      exact ⟨'\x5c' :: c :: body, .escape hbody, by rw [List.cons_append, List.cons_append, ← heq]⟩
  | case4 rest => exact ⟨[], .nil, rfl⟩
  | case5 c rest hlone hpair hquote ih =>
      obtain ⟨body, hbody, heq⟩ := ih h
      exact ⟨c :: body, .char hquote (ne_backslash_of_cases hlone hpair) hbody, by
        rw [List.cons_append, ← heq]⟩

theorem Finished.stands {l : Lexeme} (h : Finished l) {t : Text} (ht : FollowedBy l t) :
    lexemes (l.text ++ t) = l :: lexemes t := by
  cases h with
  | symbol hescape hquote =>
      exact lexemes_symbol_cons hescape hquote fun hc => ht (by rw [hc])
  | escape c => exact lexemes_escape c t
  | @string quote body hquote hbody =>
      have hassoc : quote :: (body ++ [quote]) ++ t = quote :: (body ++ quote :: t) := by simp
      rw [Lexeme.text, hassoc, lexemes_string hquote hbody]
  | comment hbody => exact lexemes_comment hbody t

theorem Finished.of_lexemes_append {first l : Lexeme} {t : Text} {ls : List Lexeme}
    (hfirst : Finished first) (ht : FollowedBy first t) (h : lexemes (first.text ++ t) = l :: ls) :
    Finished l ∧ FollowedBy l (textOf ls) ∧ lexemes (textOf ls) = ls := by
  rw [hfirst.stands ht] at h
  obtain ⟨rfl, rfl⟩ := List.cons.inj h
  rw [textOf_lexemes]
  exact ⟨hfirst, ht, rfl⟩

/-- With others behind it, a lexeme is finished. -/
theorem finished_of_lexemes {t : Text} {l : Lexeme} {ls : List Lexeme} (h : lexemes t = l :: ls)
    (hmore : ls ≠ []) : Finished l ∧ FollowedBy l (textOf ls) ∧ lexemes (textOf ls) = ls := by
  have hnil : lexemes [] = [] := by rw [lexemes]
  fun_cases lexemes t with
  | case1 => simp [hnil] at h
  | case2 rest left =>
      have hleft : left ≠ [] := by
        intro hleft
        rw [lexemes, List.cons.injEq] at h
        exact hmore (by rw [← h.2, show afterComment rest = [] from hleft, hnil])
      obtain ⟨body, hbody, heq⟩ := exists_body_of_afterComment hleft
      have htext : '/' :: '*' :: rest = (Lexeme.comment (commentOf body)).text ++ left := by
        rw [heq]
        simp [Lexeme.text, commentOf, left]
      rw [htext] at h
      exact (Finished.comment hbody).of_lexemes_append (fun hl => by cases hl) h
  | case3 rest hopen =>
      cases rest with
      | nil =>
          rw [lexemes] at h
          · simp only [if_true, List.drop_nil, hnil, List.cons.injEq] at h
            exact absurd h.2.symm hmore
          · exact hopen
      | cons c rest => exact (Finished.escape c).of_lexemes_append (fun hl => by cases hl) h
  | case4 c rest hopen hescape hquote left =>
      have hleft : left ≠ [] := by
        intro hleft
        rw [lexemes] at h
        · rw [if_neg hescape, if_pos hquote, List.cons.injEq] at h
          exact hmore (by rw [← h.2, show afterString c rest = [] from hleft, hnil])
        · exact hopen
      obtain ⟨body, hbody, heq⟩ := exists_body_of_afterString hleft
      have htext : c :: rest = (Lexeme.verbatim (c :: (body ++ [c]))).text ++ left := by
        rw [heq]
        simp [Lexeme.text, left]
      rw [htext] at h
      exact (Finished.string hquote hbody).of_lexemes_append (fun hl => by cases hl) h
  | case5 c rest hopen hescape hquote =>
      refine (Finished.symbol hescape (by simpa using hquote)).of_lexemes_append ?_ h
      rintro hl hstar
      obtain ⟨tail, htail⟩ := List.head?_eq_some_iff.mp hstar
      exact hopen tail (Lexeme.symbol.inj hl) htail

/-! ## The cut -/

theorem lexemes_textOf_append {t : Text} {ls behind : List Lexeme} {l' : Lexeme}
    (h : lexemes t = ls ++ l' :: behind) {s : Text} (hs : s.head? ≠ some '*') :
    lexemes (textOf ls ++ s) = ls ++ lexemes s := by
  induction ls generalizing t with
  | nil => rfl
  | cons l ls ih =>
      rw [List.cons_append] at h
      obtain ⟨hl, hfollowed, hrest⟩ :=
        finished_of_lexemes h (List.append_ne_nil_of_right_ne_nil _ (List.cons_ne_nil _ _))
      rw [textOf_cons, List.append_assoc, hl.stands, ih hrest, List.cons_append]
      intro hslash
      refine head?_append_ne (fun hstar => hfollowed hslash ?_) hs
      rw [textOf_append, List.head?_append, hstar, Option.some_or]

theorem finished_of_mem {t : Text} {ls behind : List Lexeme} {c : Char}
    (h : lexemes t = ls ++ .symbol c :: behind) : ∀ l ∈ ls, Finished l := by
  induction ls generalizing t with
  | nil => exact fun _ hl => absurd hl List.not_mem_nil
  | cons l ls ih =>
      rw [List.cons_append] at h
      obtain ⟨hl, -, hrest⟩ :=
        finished_of_lexemes h (List.append_ne_nil_of_right_ne_nil _ (List.cons_ne_nil _ _))
      exact List.forall_mem_cons.mpr ⟨hl, ih hrest⟩

/-- The lexemes in front of another one are those of their own text, which keeps them. -/
theorem stands_of_lexemes {t : Text} {ls behind : List Lexeme} {l : Lexeme}
    (h : lexemes t = ls ++ l :: behind) :
    lexemes (textOf ls) = ls ∧ Stands (textOf ls) := by
  have hown : lexemes (textOf ls) = ls := by
    have hnil := lexemes_textOf_append h (s := []) (by simp)
    rwa [List.append_nil, lexemes.eq_def [], List.append_nil] at hnil
  refine ⟨hown, fun behind hbehind => ?_⟩
  rw [lexemes_textOf_append h hbehind, hown]

/-- The lexemes from a symbol on are those of their own text. -/
theorem lexemes_behind {t : Text} {ls behind : List Lexeme} {c : Char}
    (h : lexemes t = ls ++ .symbol c :: behind) :
    lexemes (c :: textOf behind) = .symbol c :: behind := by
  induction ls generalizing t with
  | nil =>
      have htext := textOf_lexemes t
      rw [h, List.nil_append, textOf_cons] at htext
      rw [← List.nil_append (_ :: behind), ← h, ← htext]
      rfl
  | cons l ls ih =>
      rw [List.cons_append] at h
      exact ih (finished_of_lexemes h
        (List.append_ne_nil_of_right_ne_nil _ (List.cons_ne_nil _ _))).2.2

/-- The lexemes at the front of a text are those of their own text. -/
theorem lexemes_front {t : Text} {ls behind : List Lexeme} (h : lexemes t = ls ++ behind) :
    lexemes (textOf ls) = ls := by
  induction ls generalizing t with
  | nil => rw [textOf, List.flatMap_nil, lexemes]
  | cons l ls ih =>
      by_cases hmore : ls ++ behind = []
      · obtain ⟨rfl, rfl⟩ := List.append_eq_nil_iff.mp hmore
        have htext := textOf_lexemes t
        rw [h, List.append_nil] at htext
        rw [htext, h, List.append_nil]
      · obtain ⟨hl, hfollowed, hrest⟩ := finished_of_lexemes h hmore
        rw [textOf_cons, hl.stands, ih hrest]
        intro hslash hstar
        refine hfollowed hslash ?_
        change (textOf (ls ++ behind)).head? = some '*'
        rw [textOf_append, List.head?_append, hstar, Option.some_or]

/-- And those at its end are those of theirs. -/
theorem lexemes_back {t : Text} {ls behind : List Lexeme} (h : lexemes t = ls ++ behind) :
    lexemes (textOf behind) = behind := by
  induction ls generalizing t with
  | nil =>
      rw [List.nil_append] at h
      rw [← h, textOf_lexemes]
  | cons l ls ih =>
      by_cases hmore : ls ++ behind = []
      · rw [(List.append_eq_nil_iff.mp hmore).2, textOf, List.flatMap_nil, lexemes]
      · exact ih (finished_of_lexemes h hmore).2.2

theorem Stands.append {s t : Text} (h : Stands s) (h' : Stands t) (ht : t.head? ≠ some '*') :
    Stands (s ++ t) := by
  intro behind hbehind
  rw [List.append_assoc, h _ (head?_append_ne ht hbehind), h' behind hbehind, h t ht,
    List.append_assoc]

theorem Stands.of_append {s t : Text} (h : Stands s) (h' : Stands (s ++ t))
    (ht : t.head? ≠ some '*') : Stands t := by
  intro behind hbehind
  have hall := h' behind hbehind
  rw [List.append_assoc, h _ (head?_append_ne ht hbehind), h t ht, List.append_assoc] at hall
  exact List.append_cancel_left hall

theorem Whole.stands {t : Text} (h : Whole t) : Stands t :=
  fun _ hbehind => h.lexemes_append hbehind

theorem lexemes_brace {c : Char} (hc : c = '\x7b' ∨ c = '\x7d') (t : Text) :
    lexemes (c :: t) = .symbol c :: lexemes t := by
  rcases hc with rfl | rfl <;>
    exact lexemes_symbol_cons (by decide) (by decide) fun hslash => absurd hslash (by decide)

theorem Stands.lexemes_append_brace {t : Text} (h : Stands t) {c : Char}
    (hc : c = '\x7b' ∨ c = '\x7d') (behind : Text) :
    lexemes (t ++ c :: behind) = lexemes t ++ .symbol c :: lexemes behind := by
  have hhead : (c :: behind).head? ≠ some '*' := by
    rcases hc with rfl | rfl <;> simp
  rw [h _ hhead, lexemes_brace hc]

/-- On both sides of a brace, the lexemes of a text are those of their own texts. -/
theorem lexemes_sides {t : Text} {ls behind : List Lexeme} {c : Char} (hc : c = '\x7b' ∨ c = '\x7d')
    (h : lexemes t = ls ++ .symbol c :: behind) :
    lexemes (textOf ls) = ls ∧ lexemes (textOf behind) = behind := by
  have hbehind := lexemes_behind h
  rw [lexemes_brace hc, List.cons.injEq] at hbehind
  exact ⟨(stands_of_lexemes h).1, hbehind.2⟩

theorem textOf_eq_of_append {t : Text} {ls : List Lexeme} {c : Char}
    (h : ls ++ [.symbol c] = lexemes (t ++ [c])) : textOf ls = t := by
  have htext := textOf_lexemes (t ++ [c])
  rw [← h, textOf_append] at htext
  exact List.append_cancel_right htext

/-- A blank in front of a symbol is a symbol, unless a backslash takes it along. -/
theorem exists_symbol_of_blank {u : Text} {ls : List Lexeme} {b : Char}
    (hls : ∀ l ∈ ls, Finished l) (htext : textOf ls = u ++ [b]) (hblank : isAsciiBlank b = true)
    (hu : u.getLast? ≠ some '\x5c') : ∃ front, ls = front ++ [.symbol b] ∧ textOf front = u := by
  rcases List.eq_nil_or_concat ls with rfl | ⟨front, l, rfl⟩
  · exact absurd htext.symm (by simp [textOf])
  · have hlast : textOf front ++ l.text = u ++ [b] := by
      rw [← htext]
      simp [textOf]
    refine ⟨front, ?_⟩
    have hl : Finished l := hls l (by simp)
    have hends (before : Text) {c : Char} (h : l.text = before ++ [c]) :
        textOf front ++ before = u ∧ c = b := by
      rw [h, ← List.append_assoc] at hlast
      obtain ⟨hfront, hc⟩ := List.append_inj' hlast rfl
      exact ⟨hfront, List.singleton_inj.mp hc⟩
    cases hl with
    | symbol hescape hquote =>
        obtain ⟨hfront, rfl⟩ := hends [] rfl
        rw [List.append_nil] at hfront
        exact ⟨List.concat_eq_append, hfront⟩
    | escape c =>
        obtain ⟨rfl, -⟩ := hends ['\x5c'] rfl
        exact absurd List.getLast?_concat hu
    | string hquote hbody =>
        obtain ⟨-, rfl⟩ := hends _ (List.cons_append ..).symm
        have hbare := isBare_of_isAsciiBlank hblank
        simp [isBare, hquote] at hbare
    | @comment body hbody =>
        have hslash : (Lexeme.comment (commentOf body)).text =
            ('/' :: '*' :: body ++ ['*']) ++ ['/'] := by
          simp [Lexeme.text, commentOf]
        obtain ⟨-, rfl⟩ := hends _ hslash
        exact absurd hblank (by decide)

/-- The same of any blanks. -/
theorem exists_symbols_of_blanks {blanks u : Text} {ls : List Lexeme} (hls : ∀ l ∈ ls, Finished l)
    (htext : textOf ls = u ++ blanks) (hblank : ∀ c ∈ blanks, isAsciiBlank c = true)
    (hu : u.getLast? ≠ some '\x5c') :
    ∃ front, ls = front ++ blanks.map .symbol ∧ textOf front = u := by
  induction blanks generalizing u with
  | nil => exact ⟨ls, (List.append_nil ls).symm, by rw [htext, List.append_nil]⟩
  | cons b blanks ih =>
      obtain ⟨hb, hblanks⟩ := List.forall_mem_cons.mp hblank
      have hlast : (u ++ [b]).getLast? ≠ some '\x5c' := by
        rw [List.getLast?_concat]
        rintro heq
        rw [Option.some.inj heq] at hb
        exact absurd hb (by decide)
      obtain ⟨front, rfl, hfront⟩ := ih (by rw [htext, List.append_cons]) hblanks hlast
      obtain ⟨front, rfl, hu'⟩ :=
        exists_symbol_of_blank (fun l hl => hls l (List.mem_append_left _ hl)) hfront hb hu
      exact ⟨front, by simp, hu'⟩

theorem stands_blanks_append {ws t : Text} (hblank : ∀ c ∈ ws, isAsciiBlank c = true) :
    Stands (ws ++ t) ↔ Stands t := by
  refine forall_congr' fun behind => imp_congr_right fun _ => ?_
  rw [List.append_assoc, lexemes_blanks_append hblank, lexemes_blanks_append hblank,
    List.append_assoc, List.append_cancel_left_eq]

theorem stands_blanks {ws : Text} (hblank : ∀ c ∈ ws, isAsciiBlank c = true) : Stands ws := by
  rw [← List.append_nil ws, stands_blanks_append hblank]
  exact Whole.nil.stands

theorem head?_blanks_ne {ws : Text} (hblank : ∀ c ∈ ws, isAsciiBlank c = true) :
    ws.head? ≠ some '*' :=
  fun hhead => absurd (hblank '*' (List.mem_of_head? hhead)) (by decide)

theorem stands_append_blanks {t ws : Text} (hblank : ∀ c ∈ ws, isAsciiBlank c = true)
    (ht : t.getLast? ≠ some '\x5c') : Stands (t ++ ws) ↔ Stands t := by
  refine ⟨fun h => ?_, fun h => h.append (stands_blanks hblank) (head?_blanks_ne hblank)⟩
  cases ws with
  | nil => rwa [List.append_nil] at h
  | cons b ws =>
      have hbrace := h.lexemes_append_brace (Or.inl rfl) []
      obtain ⟨front, hfront, rfl⟩ := exists_symbols_of_blanks (finished_of_mem hbrace)
        (textOf_lexemes _) hblank ht
      rw [hfront, List.append_assoc front, List.map_cons, List.cons_append] at hbrace
      exact (stands_of_lexemes hbrace).2

end UtilityCss.Css
