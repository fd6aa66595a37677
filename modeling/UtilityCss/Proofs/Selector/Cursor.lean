import UtilityCss.Proofs.Selector.Context
import UtilityCss.Selector.Cursor

/-!
# Scanners on bytes

A scanner takes of the bytes of a text those of what it takes of the text. The bytes of a character
beyond ASCII are wide: they belong to identifiers and mean nothing anywhere else, so that it does not
matter that an escape takes the first of them only.
-/

namespace UtilityCss.Selector

open Text Css

variable {c : Char} {s t : Text} {scan : Text → Text}

/-- A character beyond ASCII, or one of its bytes. -/
def IsWide (c : Char) : Prop :=
  0x80 ≤ c.toNat

instance decidableIsWide (c : Char) : Decidable (IsWide c) :=
  inferInstanceAs (Decidable (0x80 ≤ c.toNat))

theorem byteText_nil : byteText [] = [] := rfl

theorem byteText_append (s t : Text) : byteText (s ++ t) = byteText s ++ byteText t := by
  rw [byteText, bytes, List.flatMap_append, List.map_append]
  rfl

theorem length_byteText (t : Text) : (byteText t).length = size t := by
  induction t with
  | nil => rfl
  | cons c t ih =>
      have hsplit : byteText (c :: t) = byteText [c] ++ byteText t := byteText_append [c] t
      have hone : (byteText [c]).length = c.utf8Size := by
        rw [byteText, List.length_map, bytes, List.flatMap_singleton, String.length_utf8EncodeChar]
      rw [hsplit, List.length_append, hone, ih, size_cons]

theorem byteText_ascii (h : ¬ IsWide c) (t : Text) : byteText (c :: t) = c :: byteText t := by
  have hlt : c.toNat < 0x80 := Nat.lt_of_not_le h
  have hle : c.val.toNat ≤ 0x7f := Nat.le_of_lt_succ hlt
  have hencode : String.utf8EncodeChar c = [UInt8.ofNat c.toNat] := if_pos hle
  have hbyte : (UInt8.ofNat c.toNat).toNat = c.toNat := by
    rw [UInt8.toNat_ofNat']
    omega
  rw [byteText, bytes, List.flatMap_cons, hencode, List.singleton_append, List.map_cons, hbyte,
    Char.ofNat_toNat]
  rfl

theorem isWide_of_mem_encode (h : IsWide c) : ∀ b ∈ String.utf8EncodeChar c, 0x80 ≤ b.toNat := by
  have hle : ¬ c.val.toNat ≤ 0x7f := Nat.not_le_of_lt h
  intro b hb
  unfold String.utf8EncodeChar at hb
  simp only [if_neg hle] at hb
  split at hb
  · simp only [List.mem_cons, List.not_mem_nil, or_false] at hb
    rcases hb with rfl | rfl <;> simp <;> omega
  · split at hb <;> simp only [List.mem_cons, List.not_mem_nil, or_false] at hb
    · rcases hb with rfl | rfl | rfl <;> simp <;> omega
    · rcases hb with rfl | rfl | rfl | rfl <;> simp <;> omega

theorem byteText_wide (h : IsWide c) (t : Text) : ∃ b bs, byteText (c :: t) = b :: (bs ++ byteText t) ∧
    ∀ x ∈ b :: bs, IsWide x := by
  have hwide : ∀ x ∈ byteText [c], IsWide x := by
    intro x hx
    rw [byteText, bytes, List.flatMap_singleton] at hx
    obtain ⟨b, hb, rfl⟩ := List.mem_map.mp hx
    have hvalid : b.toNat.isValidChar := Or.inl (Nat.lt_trans b.toNat_lt (by decide))
    have hnumber : (Char.ofNat b.toNat).toNat = b.toNat := by
      rw [Char.ofNat, dif_pos hvalid]
      exact Nat.add_zero _
    rw [IsWide, hnumber]
    exact isWide_of_mem_encode h b hb
  have hsplit : byteText (c :: t) = byteText [c] ++ byteText t := byteText_append [c] t
  cases hbytes : byteText [c] with
  | nil =>
      have hlength := length_byteText [c]
      have hpos := c.utf8Size_pos
      rw [hbytes, size_cons, size_nil, List.length_nil] at hlength
      omega
  | cons b bs =>
      rw [hbytes] at hsplit hwide
      exact ⟨b, bs, hsplit, hwide⟩

namespace IsWide

theorem ne {d : Char} (h : IsWide c) (hd : d.toNat < 0x80) : c ≠ d := by
  rintro rfl
  exact absurd h (Nat.not_le_of_lt hd)

theorem isIdentifierChar (h : IsWide c) : isIdentifierChar c = true :=
  Bool.or_eq_true_iff.mpr (Or.inr (decide_eq_true h))

theorem isQuote_eq (h : IsWide c) : isQuote c = false :=
  (isIdentifierChar_spec h.isIdentifierChar).2.1

theorem isAsciiBlank_eq (h : IsWide c) : isAsciiBlank c = false := by
  refine Bool.eq_false_iff.mpr fun hc => ?_
  simp only [isAsciiBlank, Bool.or_eq_true, beq_iff_eq] at hc
  rcases hc with (((rfl | rfl) | rfl) | rfl) | rfl <;> exact absurd h (by decide)

theorem isHexDigit_eq (h : IsWide c) : isHexDigit c = false := by
  refine Bool.eq_false_iff.mpr fun hc => ?_
  have hascii := toNat_lt_of_isPlain (isPlain_of_isHexDigit hc)
  exact absurd h (Nat.not_le_of_lt hascii)

end IsWide

theorem not_isWide_of_isQuote (h : isQuote c = true) : ¬ IsWide c := fun hwide => by
  rw [hwide.isQuote_eq] at h
  cases h

theorem not_isWide_of_isAsciiBlank (h : isAsciiBlank c = true) : ¬ IsWide c := fun hwide => by
  rw [hwide.isAsciiBlank_eq] at h
  cases h

theorem not_isWide_of_isCombinator (h : isCombinator c = true) : ¬ IsWide c := by
  obtain ⟨hname, -⟩ := isSeparator_iff.mp (isSeparator_of_isCombinator (Or.inl h))
  intro hc
  rw [hc.isIdentifierChar] at hname
  cases hname

/-! ## Scanners that pass wide characters -/

def PassesWide (scan : Text → Text) : Prop :=
  ∀ c t, IsWide c → scan (c :: t) = scan t

namespace PassesWide

theorem append (h : PassesWide scan) (hs : ∀ c ∈ s, IsWide c) (t : Text) :
    scan (s ++ t) = scan t := by
  induction s with
  | nil => rfl
  | cons c s ih =>
      obtain ⟨hc, hs⟩ := List.forall_mem_cons.mp hs
      rw [List.cons_append, h c _ hc, ih hs]

theorem byteText_cons (h : PassesWide scan) (hc : IsWide c) (t : Text) :
    scan (byteText (c :: t)) = scan (byteText t) := by
  obtain ⟨b, bs, hbytes, hwide⟩ := byteText_wide hc t
  rw [hbytes, ← List.cons_append, h.append hwide]

end PassesWide

theorem dropHexDigits_byteText (n : Nat) (t : Text) :
    dropHexDigits n (byteText t) = byteText (dropHexDigits n t) := by
  induction t generalizing n with
  | nil => cases n <;> rfl
  | cons c t ih =>
      cases n with
      | zero => rfl
      | succ n =>
          by_cases hc : IsWide c
          · obtain ⟨b, bs, hbytes, hwide⟩ := byteText_wide hc t
            have hb := (hwide b List.mem_cons_self).isHexDigit_eq
            rw [dropHexDigits, hc.isHexDigit_eq, if_neg Bool.false_ne_true, hbytes, dropHexDigits,
              hb, if_neg Bool.false_ne_true]
          · rw [byteText_ascii hc, dropHexDigits, dropHexDigits, ih]
            split
            · rfl
            · exact (byteText_ascii hc t).symm

theorem dropHexEnd_byteText (t : Text) : dropHexEnd (byteText t) = byteText (dropHexEnd t) := by
  have hblank : ∀ {c}, IsWide c → ¬ (c = ' ' ∨ c = '\t' ∨ c = '\n') := by
    rintro c hc (rfl | rfl | rfl) <;> exact absurd hc (by decide)
  cases t with
  | nil => rfl
  | cons c t =>
      by_cases hc : IsWide c
      · obtain ⟨b, bs, hbytes, hwide⟩ := byteText_wide hc t
        rw [dropHexEnd, if_neg (hblank hc), hbytes, dropHexEnd,
          if_neg (hblank (hwide b List.mem_cons_self))]
      · rw [byteText_ascii hc, dropHexEnd, dropHexEnd]
        split
        · rfl
        · exact (byteText_ascii hc t).symm

/-- Of an escaped character beyond ASCII, the first byte belongs to the escape and the others are
left. -/
theorem PassesWide.afterEscape (h : PassesWide scan) (t : Text) :
    scan (afterEscape (byteText t)) = scan (byteText (afterEscape t)) := by
  cases t with
  | nil => rfl
  | cons c t =>
      by_cases hc : IsWide c
      · obtain ⟨b, bs, hbytes, hwide⟩ := byteText_wide hc t
        obtain ⟨hb, hbs⟩ := List.forall_mem_cons.mp hwide
        rw [Selector.afterEscape, hc.isHexDigit_eq, if_neg Bool.false_ne_true, hbytes,
          Selector.afterEscape, hb.isHexDigit_eq, if_neg Bool.false_ne_true, h.append hbs]
      · rw [byteText_ascii hc, Selector.afterEscape, Selector.afterEscape]
        split
        · rw [dropHexDigits_byteText, dropHexEnd_byteText]
        · rfl

theorem passesWide_afterString {quote : Char} (hquote : isQuote quote = true) :
    PassesWide (afterString quote) := by
  intro c t hc
  have hne : c ≠ quote := by
    rintro rfl
    exact not_isWide_of_isQuote hquote hc
  rw [afterString_of_ne (hc.ne (by decide)), if_neg hne]

theorem passesWide_afterIdentifier : PassesWide afterIdentifier := by
  intro c t hc
  rw [afterIdentifier, if_neg (hc.ne (by decide)), if_pos hc.isIdentifierChar]

theorem passesWide_afterAttribute : PassesWide afterAttribute := by
  intro c t hc
  rw [afterAttribute, if_neg (hc.ne (by decide)),
    if_neg (by rw [hc.isQuote_eq]; exact Bool.false_ne_true), if_neg (hc.ne (by decide))]

theorem passesWide_afterParentheses (depth : Nat) : PassesWide (afterParentheses depth) := by
  intro c t hc
  rw [afterParentheses, if_neg (hc.ne (by decide)),
    if_neg (by rw [hc.isQuote_eq]; exact Bool.false_ne_true), if_neg (hc.ne (by decide)),
    if_neg (hc.ne (by decide)), if_neg (hc.ne (by decide))]

theorem afterString_byteText {quote : Char} (hquote : isQuote quote = true) (t : Text) :
    afterString quote (byteText t) = byteText (afterString quote t) := by
  have hpasses := passesWide_afterString hquote
  have hascii := not_isWide_of_isQuote hquote
  have hbackslash : ¬ IsWide '\x5c' := by decide
  fun_induction afterString quote t with
  | case1 => rfl
  | case2 => rw [byteText_ascii hbackslash]; rfl
  | case3 c rest ih =>
      rw [byteText_ascii hbackslash, ← ih]
      by_cases hc : IsWide c
      · obtain ⟨b, bs, hbytes, hwide⟩ := byteText_wide hc rest
        rw [hbytes, afterString, hpasses.append fun x hx => hwide x (List.mem_cons_of_mem b hx)]
      · rw [byteText_ascii hc, afterString]
  | case4 rest hlone hescape =>
      have hne := ne_backslash_of_isQuote hquote
      rw [byteText_ascii hascii, afterString_of_ne hne, if_pos rfl]
  | case5 c rest hlone hescape hc ih =>
      by_cases hwide : IsWide c
      · rw [hpasses.byteText_cons hwide, ih]
      · have hne := ne_backslash_of_cases hlone hescape
        rw [byteText_ascii hwide, afterString_of_ne hne, if_neg hc, ih]

theorem afterIdentifier_byteText (t : Text) :
    afterIdentifier (byteText t) = byteText (afterIdentifier t) := by
  fun_induction afterIdentifier t with
  | case1 => rw [byteText_nil, afterIdentifier]
  | case2 rest ih =>
      rw [byteText_ascii (by decide), afterIdentifier, if_pos rfl,
        passesWide_afterIdentifier.afterEscape, ih]
  | case3 c rest hescape hc ih =>
      by_cases hwide : IsWide c
      · rw [passesWide_afterIdentifier.byteText_cons hwide, ih]
      · rw [byteText_ascii hwide, afterIdentifier, if_neg hescape, if_pos hc, ih]
  | case4 c rest hescape hc =>
      have hascii : ¬ IsWide c := fun hwide => hc hwide.isIdentifierChar
      rw [byteText_ascii hascii, afterIdentifier, if_neg hescape, if_neg hc]

theorem afterAttribute_byteText (t : Text) :
    afterAttribute (byteText t) = byteText (afterAttribute t) := by
  fun_induction afterAttribute t with
  | case1 => rw [byteText_nil, afterAttribute]
  | case2 rest ih =>
      rw [byteText_ascii (by decide), afterAttribute, if_pos rfl,
        passesWide_afterAttribute.afterEscape, ih]
  | case3 c rest hescape hquote ih =>
      have hascii := not_isWide_of_isQuote hquote
      rw [byteText_ascii hascii, afterAttribute, if_neg hescape, if_pos hquote,
        afterString_byteText hquote, ih]
  | case4 rest =>
      rw [byteText_ascii (by decide), afterAttribute, if_neg (by decide), if_neg (by decide),
        if_pos rfl]
  | case5 c rest hescape hquote hclose ih =>
      by_cases hwide : IsWide c
      · rw [passesWide_afterAttribute.byteText_cons hwide, ih]
      · rw [byteText_ascii hwide, afterAttribute, if_neg hescape, if_neg hquote, if_neg hclose, ih]

theorem afterParentheses_byteText (depth : Nat) (t : Text) :
    afterParentheses depth (byteText t) = byteText (afterParentheses depth t) := by
  fun_induction afterParentheses depth t with
  | case1 => rw [byteText_nil, afterParentheses]
  | case2 depth rest ih =>
      rw [byteText_ascii (by decide), afterParentheses, if_pos rfl,
        (passesWide_afterParentheses depth).afterEscape, ih]
  | case3 depth c rest hescape hquote ih =>
      have hascii := not_isWide_of_isQuote hquote
      rw [byteText_ascii hascii, afterParentheses, if_neg hescape, if_pos hquote,
        afterString_byteText hquote, ih]
  | case4 depth rest _ _ ih =>
      rw [byteText_ascii (by decide), afterParentheses, if_neg (by decide), if_neg (by decide),
        if_pos rfl, afterAttribute_byteText, ih]
  | case5 depth rest _ _ _ ih =>
      rw [byteText_ascii (by decide), afterParentheses, if_neg (by decide), if_neg (by decide),
        if_neg (by decide), if_pos rfl, ih]
  | case6 depth rest hone =>
      rw [byteText_ascii (by decide), afterParentheses, if_neg (by decide), if_neg (by decide),
        if_neg (by decide), if_neg (by decide), if_pos rfl, if_pos hone]
  | case7 depth rest hone _ _ _ _ ih =>
      rw [byteText_ascii (by decide), afterParentheses, if_neg (by decide), if_neg (by decide),
        if_neg (by decide), if_neg (by decide), if_pos rfl, if_neg hone, ih]
  | case8 depth c rest hescape hquote hsquare hround hclose ih =>
      by_cases hwide : IsWide c
      · rw [(passesWide_afterParentheses depth).byteText_cons hwide, ih]
      · rw [byteText_ascii hwide, afterParentheses, if_neg hescape, if_neg hquote, if_neg hsquare,
          if_neg hround, if_neg hclose, ih]

/-! ## Pseudo-classes and compounds -/

theorem byteText_eq_self (h : ∀ c ∈ t, ¬ IsWide c) : byteText t = t := by
  induction t with
  | nil => rfl
  | cons c t ih =>
      obtain ⟨hc, ht⟩ := List.forall_mem_cons.mp h
      rw [byteText_ascii hc, ih ht]

theorem not_isWide_of_byteText (h : ∀ c ∈ byteText t, ¬ IsWide c) : ∀ c ∈ t, ¬ IsWide c := by
  induction t with
  | nil => exact nofun
  | cons c t ih =>
      have hc : ¬ IsWide c := by
        intro hwide
        obtain ⟨b, bs, hbytes, hbytesWide⟩ := byteText_wide hwide t
        rw [hbytes] at h
        exact h b List.mem_cons_self (hbytesWide b List.mem_cons_self)
      rw [byteText_ascii hc] at h
      exact List.forall_mem_cons.mpr ⟨hc, ih fun x hx => h x (List.mem_cons_of_mem c hx)⟩

theorem toLower_eq_self (h : IsWide c) : c.toLower = c := by
  refine dif_neg ?_
  rintro ⟨-, hle⟩
  have hlast : c.toNat ≤ 90 := UInt32.le_iff_toNat_le.mp hle
  unfold IsWide at h
  omega

/-- The names of pseudo-elements are ASCII. -/
theorem not_isWide_of_element (h : toLowerAscii t ∈ singleColonElements) : ∀ c ∈ t, ¬ IsWide c := by
  intro c hc hwide
  have hascii := toNat_lt_of_isPlain (isPlain_toLower_of_element h hc)
  rw [toLower_eq_self hwide] at hascii
  exact absurd hwide (Nat.not_le_of_lt hascii)

theorem toLowerAscii_byteText_mem (name : Text) :
    toLowerAscii (byteText name) ∈ singleColonElements ↔ toLowerAscii name ∈ singleColonElements := by
  constructor
  · intro h
    rwa [byteText_eq_self (not_isWide_of_byteText (not_isWide_of_element h))] at h
  · intro h
    rwa [byteText_eq_self (not_isWide_of_element h)]

theorem head?_byteText {d : Char} (hd : ¬ IsWide d) :
    (byteText t).head? = some d ↔ t.head? = some d := by
  cases t with
  | nil => exact Iff.rfl
  | cons c t =>
      by_cases hc : IsWide c
      · obtain ⟨b, bs, hbytes, hwide⟩ := byteText_wide hc t
        have hb := hwide b List.mem_cons_self
        rw [hbytes, List.head?_cons, List.head?_cons, Option.some_inj, Option.some_inj]
        constructor
        · rintro rfl
          exact absurd hb hd
        · rintro rfl
          exact absurd hc hd
      · rw [byteText_ascii hc, List.head?_cons, List.head?_cons]

theorem upTo_byteText {rest : Text} (h : rest <:+ t) :
    upTo (byteText t) (byteText rest) = byteText (upTo t rest) := by
  obtain ⟨front, rfl⟩ := h
  rw [byteText_append, upTo_self_append, upTo_self_append]

theorem afterPseudoClass?_byteText (t : Text) :
    afterPseudoClass? (byteText t) = (afterPseudoClass? t).map byteText := by
  unfold afterPseudoClass?
  simp only [head?_byteText (show ¬ IsWide ':' by decide), afterIdentifier_byteText,
    upTo_byteText (afterIdentifier_suffix t), toLowerAscii_byteText_mem,
    head?_byteText (show ¬ IsWide '(' by decide), afterParentheses_byteText]
  split
  · rfl
  · split
    · rfl
    · split <;> rfl

theorem afterCompound_identifierChar (h : isIdentifierChar c = true) (t : Text) :
    afterCompound (c :: t) = afterCompound (afterIdentifier t) := by
  have hne : ∀ d, isIdentifierChar d = false → c ≠ d := by
    rintro d hd rfl
    rw [h] at hd
    cases hd
  have hcombinator : ¬ isCombinator c = true := fun hc =>
    absurd h (Bool.eq_false_iff.mp (isSeparator_iff.mp (isSeparator_of_isCombinator (Or.inl hc))).1)
  rw [afterCompound, if_neg hcombinator,
    if_neg (not_or.mpr ⟨hne '.' (by decide), hne '#' (by decide)⟩), if_neg (hne '[' (by decide)),
    if_neg (hne ':' (by decide)), if_neg (hne '\x5c' (by decide)),
    if_neg (not_or.mpr ⟨hne '*' (by decide), hne '&' (by decide)⟩), if_pos h]

theorem afterCompound_afterIdentifier (t : Text) :
    afterCompound (afterIdentifier t) = afterCompound t := by
  fun_induction afterIdentifier t with
  | case1 => rfl
  | case2 rest ih =>
      rw [ih, afterCompound_eq ('\x5c' :: rest), afterSimple?, if_neg (by decide), if_neg (by decide),
        if_neg (by decide), if_neg (by decide), if_pos rfl]
  | case3 c rest _ hc ih => rw [afterCompound_identifierChar hc]
  | case4 => rfl

theorem passesWide_afterCompound : PassesWide afterCompound := by
  intro c t hc
  rw [afterCompound_identifierChar hc.isIdentifierChar, afterCompound_afterIdentifier]

theorem afterCompound_byteText (t : Text) :
    afterCompound (byteText t) = byteText (afterCompound t) := by
  fun_induction afterCompound t with
  | case1 => rw [byteText_nil, afterCompound]
  | case2 c rest hc =>
      rw [byteText_ascii (not_isWide_of_isCombinator hc), afterCompound, if_pos hc]
  | case3 c rest hcombinator hc ih =>
      have hascii : ¬ IsWide c := by rcases hc with rfl | rfl <;> decide
      rw [byteText_ascii hascii, afterCompound, if_neg hcombinator, if_pos hc,
        afterIdentifier_byteText, ih]
  | case4 rest _ _ ih =>
      rw [byteText_ascii (by decide), afterCompound, if_neg (by decide), if_neg (by decide),
        if_pos rfl, afterAttribute_byteText, ih]
  | case5 rest left h _ _ _ ih =>
      rw [byteText_ascii (by decide), afterCompound_eq, afterSimple?_colon,
        afterPseudoClass?_byteText, h]
      exact ih
  | case6 rest h =>
      rw [byteText_ascii (by decide), afterCompound_eq, afterSimple?_colon,
        afterPseudoClass?_byteText, h]
      rfl
  | case7 rest _ _ _ _ ih =>
      rw [byteText_ascii (by decide), afterCompound, if_neg (by decide), if_neg (by decide),
        if_neg (by decide), if_neg (by decide), if_pos rfl, passesWide_afterCompound.afterEscape, ih]
  | case8 c rest hcombinator hdot hsquare hcolon hescape hc ih =>
      have hascii : ¬ IsWide c := by rcases hc with rfl | rfl <;> decide
      rw [byteText_ascii hascii, afterCompound, if_neg hcombinator, if_neg hdot, if_neg hsquare,
        if_neg hcolon, if_neg hescape, if_pos hc, ih]
  | case9 c rest _ _ _ _ _ _ hc ih =>
      by_cases hwide : IsWide c
      · rw [passesWide_afterCompound.byteText_cons hwide, ← afterCompound_afterIdentifier,
          afterIdentifier_byteText, ih]
      · rw [byteText_ascii hwide, afterCompound_identifierChar hc, afterIdentifier_byteText, ih]
  | case10 c rest hcombinator hdot hsquare hcolon hescape hstar hc =>
      have hascii : ¬ IsWide c := fun hwide => hc hwide.isIdentifierChar
      rw [byteText_ascii hascii, afterCompound, if_neg hcombinator, if_neg hdot, if_neg hsquare,
        if_neg hcolon, if_neg hescape, if_neg hstar, if_neg hc]

namespace Cursor

variable {before rest : Text}

theorem ofPosition_size (before t : Text) :
    ofPosition (before ++ t) (size before) = ⟨size before, byteText t⟩ := by
  rw [ofPosition, length_byteText, size_append, Nat.min_eq_left (Nat.le_add_right _ _),
    byteText_append, ← length_byteText before, List.drop_left]

theorem moveTo_position (h : rest <:+ t) :
    ((ofPosition (before ++ t) (size before)).moveTo (byteText rest)).position + size rest =
      size (before ++ t) := by
  obtain ⟨front, rfl⟩ := h
  rw [ofPosition_size, moveTo]
  simp only [length_byteText, size_append]
  omega

/-- At the start of a character, the cursor goes where the scanner of texts goes. -/
theorem skipCompound_position (before t : Text) :
    ((ofPosition (before ++ t) (size before)).skipCompound).position + size (afterCompound t) =
      size (before ++ t) := by
  have hmove : (ofPosition (before ++ t) (size before)).skipCompound =
      (ofPosition (before ++ t) (size before)).moveTo (byteText (afterCompound t)) := by
    rw [skipCompound, ofPosition_size, afterCompound_byteText]
  rw [hmove]
  exact moveTo_position (afterCompound_suffix t)

theorem skipIdentifier_position (before t : Text) :
    ((ofPosition (before ++ t) (size before)).skipIdentifier).position + size (afterIdentifier t) =
      size (before ++ t) := by
  have hmove : (ofPosition (before ++ t) (size before)).skipIdentifier =
      (ofPosition (before ++ t) (size before)).moveTo (byteText (afterIdentifier t)) := by
    rw [skipIdentifier, ofPosition_size, afterIdentifier_byteText]
  rw [hmove]
  exact moveTo_position (afterIdentifier_suffix t)

end Cursor

end UtilityCss.Selector
