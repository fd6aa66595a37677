import UtilityCss.Proofs.Ruleset.Positions

/-!
# Searches by positions

The search for the byte that ends a prelude or a body comes to the lexeme that does, if there is
one. It skips the same escapes, strings and comments, and inside a character it finds nothing.
-/

namespace UtilityCss.Ruleset

open Text Css Selector

variable {source t : Text} {start stop i : Nat}

/-- Cuts lexemes in front of the first symbol that ends the search, whose `depth` every symbol
changes. -/
def cut (ends : Nat → Char → Bool) (deeper : Nat → Char → Nat) (depth : Nat) :
    List Lexeme → List Lexeme × List Lexeme
  | [] => ([], [])
  | .symbol c :: rest =>
      if ends depth c then ([], .symbol c :: rest)
      else
        let (front, left) := cut ends deeper (deeper depth c) rest
        (.symbol c :: front, left)
  | l :: rest =>
      let (front, left) := cut ends deeper depth rest
      (l :: front, left)

structure IsSearch (ends : Nat → Char → Bool) (deeper : Nat → Char → Nat) : Prop where
  ends_wide : ∀ depth c, IsWide c → ends depth c = false
  deeper_wide : ∀ depth c, IsWide c → deeper depth c = depth

variable {ends : Nat → Char → Bool} {deeper : Nat → Char → Nat} {depth : Nat}

def Marks (p start stop : Nat) (parts : List Lexeme × List Lexeme) : Prop :=
  (parts.2 = [] → stop ≤ p) ∧ (parts.2 ≠ [] → p = start + size (textOf parts.1))

theorem Marks.cons {p : Nat} {l : Lexeme} {parts : List Lexeme × List Lexeme}
    (h : Marks p (start + size l.text) stop parts) :
    Marks p start stop (l :: parts.1, parts.2) := by
  refine ⟨h.1, fun hleft => ?_⟩
  rw [h.2 hleft, textOf_cons, size_append, Nat.add_assoc]

theorem seek?_end (hi : stop ≤ i) : seek? source ends deeper depth i stop = some i := by
  rw [seek?, dif_neg (Nat.not_lt_of_le hi)]

theorem seek?_construct {j : Nat} (hi : i < stop)
    (h : constructEnd? source i stop = some (some j)) :
    seek? source ends deeper depth i stop = seek? source ends deeper depth j stop := by
  rw [seek?, dif_pos hi]
  split <;> simp_all

theorem seek?_symbol {b : Char} (hi : i < stop) (h : constructEnd? source i stop = some none)
    (hbyte : byteAt? source i = some b) :
    seek? source ends deeper depth i stop =
      if ends depth b then some i
      else seek? source ends deeper (deeper depth b) (i + 1) stop := by
  rw [seek?, dif_pos hi]
  split <;> simp_all

theorem IsSearch.passesWideAt (h : IsSearch ends deeper) (depth : Nat) :
    PassesWideAt source stop fun i => seek? source ends deeper depth i stop := by
  intro i b hi hbyte hb
  change seek? source ends deeper depth i stop = seek? source ends deeper depth (i + 1) stop
  rw [seek?_symbol hi (constructEnd?_wide hbyte hb) hbyte, h.ends_wide depth b hb,
    h.deeper_wide depth b hb, if_neg Bool.false_ne_true]

theorem cut_construct {l : Lexeme} (hl : ∀ c, l ≠ .symbol c) (ls : List Lexeme) :
    cut ends deeper depth (l :: ls) =
      (l :: (cut ends deeper depth ls).1, (cut ends deeper depth ls).2) := by
  cases l with
  | symbol c => exact absurd rfl (hl c)
  | verbatim t => rfl
  | comment t => rfl

/-- Behind a construct, the search goes on. -/
theorem exists_seek?_construct {l : Lexeme} {left : Text} (hl : ∀ c, l ≠ .symbol c)
    (ht : Holds source start (l.text ++ left) stop) (hstart : start < stop)
    (hend : constructEnd? source start stop = some (some (stop - size left)))
    (hleft : ∃ p, seek? source ends deeper depth (start + size l.text) stop = some p ∧
      Marks p (start + size l.text) stop (cut ends deeper depth (lexemes left))) :
    ∃ p, seek? source ends deeper depth start stop = some p ∧
      Marks p start stop (cut ends deeper depth (l :: lexemes left)) := by
  obtain ⟨p, hp, hmarks⟩ := hleft
  rw [cut_construct hl]
  exact ⟨p, by rw [seek?_construct hstart hend, ht.sub_size, hp], hmarks.cons⟩

/-- A search comes to the cut of the lexemes. -/
theorem IsSearch.seek?_spec (h : IsSearch ends deeper) (t : Text) :
    ∀ start depth, Holds source start t stop →
      ∃ p, seek? source ends deeper depth start stop = some p ∧
        Marks p start stop (cut ends deeper depth (lexemes t)) := by
  -- Along the lexemes. Behind a backslash and the first byte of a character, the search stands
  -- inside the character; behind a backslash at the end, it stands outside the text.
  fun_induction lexemes t with
  | case1 =>
      intro start depth ht
      have hstop : stop = start := ht.stop_eq
      exact ⟨start, seek?_end (Nat.le_of_eq hstop), fun _ => Nat.le_of_eq hstop, absurd rfl⟩
  | case2 rest left ih =>
      intro start depth ht
      have hend := constructEnd?_comment ht
      have hlt := ht.lt
      rw [← comment_append rest] at ht
      exact exists_seek?_construct (by simp) ht hlt hend (ih _ depth ht.behind)
  | case3 rest hopen ih =>
      intro start depth ht
      have hend := constructEnd?_escape ht
      have hrest := ht.tail_ascii (by decide)
      rw [cut_construct (l := .verbatim _) (by simp), seek?_construct ht.lt hend]
      cases rest with
      | nil =>
          have hstop : stop = start + 1 := hrest.stop_eq
          have hnil : lexemes [] = [] := by rw [lexemes]
          refine ⟨start + 2, seek?_end (by omega), fun _ => by omega, fun hleft => ?_⟩
          exact absurd (by rw [List.drop_nil, hnil, cut]) hleft
      | cons c rest =>
          obtain ⟨p, hp, hmarks⟩ := ih _ depth hrest.tail
          have hsize : start + size ['\x5c', c] = start + 1 + c.utf8Size := by
            rw [size_cons, size_cons, size_nil, size_of_not_isWide (by decide)]
            omega
          refine ⟨p, ((h.passesWideAt depth).escaped hrest).trans hp, Marks.cons ?_⟩
          rw [Lexeme.text, List.take_succ_cons, List.take_zero, hsize]
          exact hmarks
  | case4 c rest hopen hescape hquote left ih =>
      intro start depth ht
      have hwhole : c :: rest = (Lexeme.verbatim (c :: upTo rest left)).text ++ left :=
        congrArg (c :: ·) (upTo_append (afterString_suffix c rest)).symm
      have hend := constructEnd?_string hquote ht
      have hlt := ht.lt
      rw [hwhole] at ht
      exact exists_seek?_construct (by simp) ht hlt hend (ih _ depth ht.behind)
  | case5 c rest hopen hescape hquote ih =>
      intro start depth ht
      by_cases hc : IsWide c
      · obtain ⟨p, hp, hmarks⟩ := ih _ depth ht.tail
        refine ⟨p, ((h.passesWideAt depth).char ht hc).trans hp, ?_⟩
        rw [cut, if_neg (by rw [h.ends_wide depth c hc]; exact Bool.false_ne_true),
          h.deeper_wide depth c hc]
        exact Marks.cons hmarks
      · have hsymbol := constructEnd?_symbol ht hescape (by simpa using hquote)
          (fun x hx => hopen x (List.cons.inj hx).1 (List.cons.inj hx).2) hc
        rw [seek?_symbol ht.lt hsymbol (ht.byteAt?_ascii hc), cut]
        by_cases hends : ends depth c = true
        · rw [if_pos hends, if_pos hends]
          exact ⟨start, rfl, fun hnil => absurd hnil (List.cons_ne_nil _ _), fun _ => rfl⟩
        · rw [if_neg hends, if_neg hends]
          obtain ⟨p, hp, hmarks⟩ := ih _ (deeper depth c) (ht.tail_ascii hc)
          refine ⟨p, hp, Marks.cons (l := .symbol c) ?_⟩
          rw [Lexeme.text, size_cons, size_nil, size_of_not_isWide hc]
          exact hmarks

/-! ## Preludes and bodies -/

theorem isSearch_prelude : IsSearch endsPrelude deeperInPrelude where
  ends_wide depth c hc := by
    simp [endsPrelude, hc.ne (show '\x7b'.toNat < 0x80 by decide),
      hc.ne (show ';'.toNat < 0x80 by decide), hc.ne (show '\x7d'.toNat < 0x80 by decide)]
  deeper_wide depth c hc := by
    simp [deeperInPrelude, hc.ne (show '('.toNat < 0x80 by decide),
      hc.ne (show '['.toNat < 0x80 by decide), hc.ne (show ')'.toNat < 0x80 by decide),
      hc.ne (show ']'.toNat < 0x80 by decide)]

theorem isSearch_body : IsSearch endsBody deeperInBody where
  ends_wide depth c hc := by simp [endsBody, hc.ne (show '\x7d'.toNat < 0x80 by decide)]
  deeper_wide depth c hc := by
    simp [deeperInBody, hc.ne (show '\x7b'.toNat < 0x80 by decide),
      hc.ne (show '\x7d'.toNat < 0x80 by decide)]

theorem cut_prelude (depth : Nat) (ls : List Lexeme) :
    cut endsPrelude deeperInPrelude depth ls = splitPrelude depth ls := by
  fun_induction splitPrelude depth ls with
  | case1 => rfl
  | case2 depth c rest hstop =>
      have hends : endsPrelude depth c = true := by simpa [endsPrelude, or_assoc] using hstop
      rw [cut, if_pos hends]
  | case3 depth c rest hstop deeper prelude left hsplit ih =>
      have hends : ¬ endsPrelude depth c = true := by simpa [endsPrelude, or_assoc] using hstop
      rw [cut, if_neg hends, deeperInPrelude, ih, hsplit]
  | case4 depth l rest hl prelude left hsplit ih => rw [cut_construct hl, ih, hsplit]

theorem cut_body (depth : Nat) (ls : List Lexeme) :
    cut endsBody deeperInBody depth ls = splitBody depth ls := by
  fun_induction splitBody depth ls with
  | case1 => rfl
  | case2 depth c rest hstop =>
      have hends : endsBody depth c = true := by simpa [endsBody] using hstop
      rw [cut, if_pos hends]
  | case3 depth c rest hstop deeper body left hsplit ih =>
      have hends : ¬ endsBody depth c = true := by simpa [endsBody] using hstop
      rw [cut, if_neg hends, deeperInBody, ih, hsplit]
  | case4 depth l rest hl body left hsplit ih => rw [cut_construct hl, ih, hsplit]

theorem cut_stop {ls front left : List Lexeme} {l : Lexeme}
    (h : cut ends deeper depth ls = (front, l :: left)) :
    ∃ depth' c, l = .symbol c ∧ ends depth' c = true := by
  induction ls generalizing depth front with
  | nil => cases h
  | cons first ls ih =>
      by_cases hfirst : ∃ c, first = .symbol c
      · obtain ⟨c, rfl⟩ := hfirst
        by_cases hends : ends depth c = true
        · rw [cut, if_pos hends] at h
          cases h
          exact ⟨depth, c, rfl, hends⟩
        · rw [cut, if_neg hends, Prod.mk.injEq] at h
          exact ih (Prod.ext rfl h.2)
      · rw [cut_construct (fun c hc => hfirst ⟨c, hc⟩), Prod.mk.injEq] at h
        exact ih (Prod.ext rfl h.2)

end UtilityCss.Ruleset
