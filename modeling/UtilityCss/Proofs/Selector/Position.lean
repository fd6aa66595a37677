import UtilityCss.Proofs.Ruleset.Positions
import UtilityCss.Proofs.Selector.Units
import UtilityCss.Selector.Position

/-!
# Selectors by byte positions

On every selector the scanners by positions come to an end, and to the places of the rests that the
scanners of texts leave. Escapes end between characters, and the bytes of a character beyond ASCII
are passed one by one, so that every slice the change asks for is there.
-/

namespace UtilityCss.Selector

open Text Css
open Ruleset (byteAt? slice? Holds PassesWideAt size_of_not_isWide stringEndFrom?_eq)

variable {source s t r : Text} {b c : Char} {i j : Nat}

def place (source rest : Text) : Nat :=
  size source - size rest

theorem place_self (source : Text) : place source source = 0 :=
  Nat.sub_self _

theorem place_nil (source : Text) : place source [] = size source := rfl

theorem holds_place (h : t <:+ source) : Holds source (place source t) t (size source) := by
  obtain ⟨front, rfl⟩ := h
  have hplace : place (front ++ t) t = size front := by rw [place, size_append, Nat.add_sub_cancel]
  refine ⟨front, [], by rw [List.append_nil], hplace, ?_⟩
  rw [hplace, size_append]

theorem place_append (h : s ++ t <:+ source) :
    place source t = place source (s ++ t) + size s := by
  obtain ⟨front, rfl⟩ := h
  simp only [place, size_append]
  omega

theorem place_tail (h : c :: t <:+ source) :
    place source t = place source (c :: t) + c.utf8Size :=
  place_append (s := [c]) h

theorem place_tail_ascii (h : c :: t <:+ source) (hc : ¬ IsWide c) :
    place source t = place source (c :: t) + 1 := by
  rw [place_tail h, size_of_not_isWide hc]

theorem place_le (h : t <:+ source) (hr : r <:+ t) : place source t ≤ place source r := by
  obtain ⟨front, rfl⟩ := hr
  rw [place_append h]
  exact Nat.le_add_right _ _

theorem place_lt (h : c :: t <:+ source) (hr : r <:+ t) :
    place source (c :: t) < place source r := by
  have hpos := c.utf8Size_pos
  have htail := place_tail h
  have hle := place_le ((List.suffix_cons c t).trans h) hr
  omega

theorem place_le_size (source t : Text) : place source t ≤ size source :=
  Nat.sub_le _ _

theorem byteAt?_size (source : Text) : byteAt? source (size source) = none := by
  rw [byteAt?, ← length_byteText]
  exact List.getElem?_eq_none (Nat.le_refl _)

theorem byteAt?_place (h : c :: t <:+ source) (hc : ¬ IsWide c) :
    byteAt? source (place source (c :: t)) = some c :=
  (holds_place h).byteAt?_ascii hc

/-- A test that does not tell wide characters apart holds of the byte that begins a rest if it holds
of its first character. -/
theorem any_byteAt?_place {p : Char → Bool} {wide : Bool} (hp : ∀ c, IsWide c → p c = wide)
    (h : t <:+ source) : (byteAt? source (place source t)).any p = t.head?.any p := by
  cases t with
  | nil =>
      rw [place_nil, byteAt?_size]
      rfl
  | cons c t =>
      obtain ⟨b, hbyte, rfl | ⟨hb, hc⟩⟩ := (holds_place h).exists_byte
      · rw [hbyte]
        rfl
      · rw [hbyte, List.head?_cons, Option.any_some, Option.any_some, hp b hb, hp c hc]

theorem byteAt?_place_eq_some_iff (h : t <:+ source) (hc : ¬ IsWide c) :
    byteAt? source (place source t) = some c ↔ t.head? = some c := by
  cases t with
  | nil =>
      rw [place_nil, byteAt?_size]
      exact Iff.rfl
  | cons d t =>
      obtain ⟨b, hbyte, rfl | ⟨hb, hd⟩⟩ := (holds_place h).exists_byte
      · rw [hbyte, List.head?_cons]
      · rw [hbyte, List.head?_cons, Option.some.injEq, Option.some.injEq]
        exact ⟨fun heq => absurd (heq ▸ hb) hc, fun heq => absurd (heq ▸ hd) hc⟩

theorem slice?_place (h : t <:+ source) (hr : r <:+ t) :
    slice? source (place source t) (place source r) = some (upTo t r) := by
  obtain ⟨s, rfl⟩ := hr
  rw [upTo_self_append, place_append h]
  exact (holds_place h).front.slice?_eq

section Walks

variable {σ α : Type} {move? : σ → Nat → Char → Option (Move σ α)} {atEnd : σ → Nat → α}
  {state next : σ} {result : α}

theorem walk?_nil : walk? source move? atEnd state (place source []) =
    some (atEnd state (size source)) := by
  rw [place_nil, walk?, byteAt?_size]

theorem walk?_stop (h : c :: t <:+ source) (hc : ¬ IsWide c)
    (hmove : move? state (place source (c :: t)) c = some (.stop result)) :
    walk? source move? atEnd state (place source (c :: t)) = some result := by
  rw [walk?, byteAt?_place h hc]
  simp only [hmove]

theorem walk?_byte (hbyte : byteAt? source i = some b)
    (hmove : move? state i b = some (.go next j)) (hlt : i < j) (hle : j ≤ size source) :
    walk? source move? atEnd state i = walk? source move? atEnd next j := by
  rw [walk?, hbyte]
  simp only [hmove, if_pos (And.intro hlt hle)]

/-- A walk goes on from a rest. -/
theorem walk?_go {answer : Option α} (h : c :: t <:+ source) (hc : ¬ IsWide c) (hr : r <:+ t)
    (hmove : move? state (place source (c :: t)) c = some (.go next (place source r)))
    (hrest : r <:+ source → walk? source move? atEnd next (place source r) = answer) :
    walk? source move? atEnd state (place source (c :: t)) = answer := by
  rw [walk?_byte (byteAt?_place h hc) hmove (place_lt h hr) (place_le_size source r)]
  exact hrest ((hr.trans (List.suffix_cons c t)).trans h)

/-- A walk goes on behind a character; the bytes of a wide one it takes one by one. -/
theorem walk?_char {answer : Option α} (h : c :: t <:+ source)
    (hwide : ∀ i b, IsWide b → move? state i b = some (.go state (i + 1)))
    (hmove : move? state (place source (c :: t)) c = some (.go state (place source (c :: t) + 1)))
    (hrest : t <:+ source → walk? source move? atEnd state (place source t) = answer) :
    walk? source move? atEnd state (place source (c :: t)) = answer := by
  by_cases hc : IsWide c
  · have hpasses : PassesWideAt source (size source) (walk? source move? atEnd state) :=
      fun i b hi hbyte hb => walk?_byte hbyte (hwide i b hb) (Nat.lt_succ_self i) hi
    rw [hpasses.char (holds_place h) hc, ← place_tail h]
    exact hrest ((List.suffix_cons c t).trans h)
  · refine walk?_go h hc (List.suffix_refl t) ?_ hrest
    rw [hmove, place_tail_ascii h hc]

end Walks

/-! ## Escapes, strings and identifiers -/

theorem hexDigitsEnd_eq (n : Nat) (h : t <:+ source) :
    hexDigitsEnd source n (place source t) = place source (dropHexDigits n t) := by
  have hwide : ∀ c, IsWide c → isHexDigit c = false := fun _ hc => hc.isHexDigit_eq
  induction t generalizing n with
  | nil =>
      cases n with
      | zero => rfl
      | succ n => rw [hexDigitsEnd, any_byteAt?_place hwide h]; rfl
  | cons c t ih =>
      cases n with
      | zero => rfl
      | succ n =>
          rw [hexDigitsEnd, any_byteAt?_place hwide h, List.head?_cons, Option.any_some,
            dropHexDigits]
          split
          next hc =>
            have hascii : ¬ IsWide c := fun hc' => by
              rw [hwide c hc'] at hc
              cases hc
            rw [← place_tail_ascii h hascii, ih n ((List.suffix_cons c t).trans h)]
          next => rfl

theorem hexEnd_eq (h : t <:+ source) :
    (if (byteAt? source (place source t)).any fun b => b = ' ' ∨ b = '\t' ∨ b = '\n'
      then place source t + 1 else place source t) = place source (dropHexEnd t) := by
  have hwide : ∀ c, IsWide c → decide (c = ' ' ∨ c = '\t' ∨ c = '\n') = false := by
    intro c hc
    refine decide_eq_false ?_
    rintro (rfl | rfl | rfl) <;> exact absurd hc (by decide)
  rw [any_byteAt?_place hwide h]
  cases t with
  | nil => rfl
  | cons c t =>
      rw [List.head?_cons, Option.any_some, dropHexEnd]
      simp only [decide_eq_true_eq]
      split
      next hc =>
        have hascii : ¬ IsWide c := fun hc' => of_decide_eq_false (hwide c hc') hc
        rw [place_tail_ascii h hascii]
      next => rfl

theorem escapeEnd?_eq (h : '\x5c' :: t <:+ source) :
    escapeEnd? source (place source ('\x5c' :: t)) = some (place source (afterEscape t)) := by
  have ht := (List.suffix_cons _ t).trans h
  rw [escapeEnd?, ← place_tail_ascii h (by decide)]
  cases t with
  | nil =>
      rw [place_nil, byteAt?_size]
      rfl
  | cons c t =>
      obtain ⟨b, hbyte, hb⟩ := (holds_place ht).exists_byte
      have hhex : isHexDigit b = isHexDigit c := by
        rcases hb with rfl | ⟨hb, hc⟩
        · rfl
        · rw [hb.isHexDigit_eq, hc.isHexDigit_eq]
      rw [hbyte, afterEscape]
      simp only [hhex]
      split
      next hc =>
        have hdigits : dropHexDigits 6 (c :: t) = dropHexDigits 5 t := by
          rw [dropHexDigits, if_pos hc]
        have hrest := ((dropHexDigits_suffix 5 t).trans (List.suffix_cons c t)).trans ht
        rw [hexDigitsEnd_eq 6 ht, hdigits, hexEnd_eq hrest]
      next =>
        rw [(holds_place ht).slice?_eq, Option.map_some]
        exact congrArg some (place_tail ht).symm

theorem stringEnd?_eq (h : c :: t <:+ source) (hc : isQuote c = true) :
    stringEnd? source (place source (c :: t)) c = some (place source (afterString c t)) := by
  rw [stringEnd?, ← place_tail_ascii h (not_isWide_of_isQuote hc)]
  exact stringEndFrom?_eq hc (holds_place ((List.suffix_cons c t).trans h))

theorem identifierEnd?_eq (h : t <:+ source) :
    identifierEnd? source (place source t) = some (place source (afterIdentifier t)) := by
  have hwide : ∀ i b, IsWide b → identifierMove? source () i b = some (.go () (i + 1)) := by
    intro i b hb
    rw [identifierMove?, if_neg (hb.ne (by decide)), if_pos hb.isIdentifierChar]
  unfold identifierEnd? walkTo?
  fun_induction afterIdentifier t with
  | case1 => exact walk?_nil
  | case2 rest ih =>
      refine walk?_go h (by decide) (afterEscape_suffix rest) ?_ ih
      rw [identifierMove?, if_pos rfl, escapeEnd?_eq h, Option.map_some]
  | case3 c rest hescape hc ih =>
      refine walk?_char h hwide ?_ ih
      rw [identifierMove?, if_neg hescape, if_pos hc]
  | case4 c rest hescape hc =>
      refine walk?_stop h (fun hwide => hc hwide.isIdentifierChar) ?_
      rw [identifierMove?, if_neg hescape, if_neg hc]

theorem attributeWalk_eq (h : t <:+ source) :
    walkTo? source (attributeMove? source) () (place source t) =
      some (place source (afterAttribute t)) := by
  have hwide : ∀ i b, IsWide b → attributeMove? source () i b = some (.go () (i + 1)) := by
    intro i b hb
    rw [attributeMove?, if_neg (hb.ne (by decide)), hb.isQuote_eq, if_neg Bool.false_ne_true,
      if_neg (hb.ne (by decide))]
  unfold walkTo?
  fun_induction afterAttribute t with
  | case1 => exact walk?_nil
  | case2 rest ih =>
      refine walk?_go h (by decide) (afterEscape_suffix rest) ?_ ih
      rw [attributeMove?, if_pos rfl, escapeEnd?_eq h, Option.map_some]
  | case3 c rest hescape hquote ih =>
      refine walk?_go h (not_isWide_of_isQuote hquote) (afterString_suffix c rest) ?_ ih
      rw [attributeMove?, if_neg hescape, if_pos hquote, stringEnd?_eq h hquote, Option.map_some]
  | case4 rest =>
      refine walk?_stop h (by decide) ?_
      rw [attributeMove?, if_neg (by decide), if_neg (by decide), if_pos rfl,
        place_tail_ascii h (by decide)]
  | case5 c rest hescape hquote hclose ih =>
      refine walk?_char h hwide ?_ ih
      rw [attributeMove?, if_neg hescape, if_neg hquote, if_neg hclose]

theorem attributeEnd?_eq (h : '[' :: t <:+ source) :
    attributeEnd? source (place source ('[' :: t)) = some (place source (afterAttribute t)) := by
  rw [attributeEnd?, ← place_tail_ascii h (by decide)]
  exact attributeWalk_eq ((List.suffix_cons _ t).trans h)

theorem parenthesesWalk_eq (depth : Nat) (h : t <:+ source) :
    walkTo? source (parenthesesMove? source) depth (place source t) =
      some (place source (afterParentheses depth t)) := by
  have hwide : ∀ depth i b, IsWide b →
      parenthesesMove? source depth i b = some (.go depth (i + 1)) := by
    intro depth i b hb
    rw [parenthesesMove?, if_neg (hb.ne (by decide)), hb.isQuote_eq, if_neg Bool.false_ne_true,
      if_neg (hb.ne (by decide)), if_neg (hb.ne (by decide)), if_neg (hb.ne (by decide))]
  unfold walkTo?
  fun_induction afterParentheses depth t with
  | case1 => exact walk?_nil
  | case2 depth rest ih =>
      refine walk?_go h (by decide) (afterEscape_suffix rest) ?_ ih
      rw [parenthesesMove?, if_pos rfl, escapeEnd?_eq h, Option.map_some]
  | case3 depth c rest hescape hquote ih =>
      refine walk?_go h (not_isWide_of_isQuote hquote) (afterString_suffix c rest) ?_ ih
      rw [parenthesesMove?, if_neg hescape, if_pos hquote, stringEnd?_eq h hquote, Option.map_some]
  | case4 depth rest _ _ ih =>
      refine walk?_go h (by decide) (afterAttribute_suffix rest) ?_ ih
      rw [parenthesesMove?, if_neg (by decide), if_neg (by decide), if_pos rfl, attributeEnd?_eq h,
        Option.map_some]
  | case5 depth rest _ _ _ ih =>
      refine walk?_go h (by decide) (List.suffix_refl rest) ?_ ih
      rw [parenthesesMove?, if_neg (by decide), if_neg (by decide), if_neg (by decide), if_pos rfl,
        place_tail_ascii h (by decide)]
  | case6 depth rest hdepth =>
      refine walk?_stop h (by decide) ?_
      rw [parenthesesMove?, if_neg (by decide), if_neg (by decide), if_neg (by decide),
        if_neg (by decide), if_pos rfl, if_pos (by omega), place_tail_ascii h (by decide)]
  | case7 depth rest hdepth _ _ _ _ ih =>
      refine walk?_go h (by decide) (List.suffix_refl rest) ?_ ih
      rw [parenthesesMove?, if_neg (by decide), if_neg (by decide), if_neg (by decide),
        if_neg (by decide), if_pos rfl, if_neg (by omega), place_tail_ascii h (by decide)]
  | case8 depth c rest hescape hquote hsquare hopen hclose ih =>
      refine walk?_char h (hwide depth) ?_ ih
      rw [parenthesesMove?, if_neg hescape, if_neg hquote, if_neg hsquare, if_neg hopen,
        if_neg hclose]

theorem parenthesesEnd?_eq (h : '(' :: t <:+ source) :
    parenthesesEnd? source (place source ('(' :: t)) =
      some (place source (afterParentheses 1 t)) := by
  rw [parenthesesEnd?, parenthesesWalk_eq 0 h, afterParentheses_open]

/-! ## Compounds and class tokens -/

theorem pseudoClassEnd?_eq (h : ':' :: t <:+ source) :
    pseudoClassEnd? source (place source (':' :: t)) =
      some ((afterPseudoClass? t).map (place source)) := by
  have ht := (List.suffix_cons _ t).trans h
  have hname := afterIdentifier_suffix t
  rw [pseudoClassEnd?, ← place_tail_ascii h (by decide), afterPseudoClass?,
    identifierEnd?_eq ht]
  simp only [byteAt?_place_eq_some_iff ht (show ¬ IsWide ':' by decide), Option.bind_eq_bind,
    Option.bind_some, slice?_place ht hname,
    byteAt?_place_eq_some_iff (hname.trans ht) (show ¬ IsWide '(' by decide)]
  split
  next => rfl
  next =>
    split
    next => rfl
    next =>
      split
      next hround =>
        obtain ⟨inner, hinner⟩ := List.head?_eq_some_iff.mp hround
        rw [hinner] at hname ⊢
        rw [parenthesesEnd?_eq (hname.trans ht), afterParentheses_open]
        rfl
      next => rfl

/-- The first character of an identifier belongs to it. -/
theorem afterIdentifier_cons (hc : isIdentifierChar c = true) (t : Text) :
    afterIdentifier (c :: t) = afterIdentifier t := by
  rw [afterIdentifier, if_neg (isIdentifierChar_spec hc).1, if_pos hc]

theorem compoundEnd?_eq (h : t <:+ source) :
    compoundEnd? source (place source t) = some (place source (afterCompound t)) := by
  unfold compoundEnd? walkTo?
  fun_induction afterCompound t with
  | case1 => exact walk?_nil
  | case2 c rest hcombinator =>
      refine walk?_stop h (not_isWide_of_isCombinator hcombinator) ?_
      rw [compoundMove?, if_pos hcombinator]
  | case3 c rest hcombinator hname ih =>
      have hc : ¬ IsWide c := by rcases hname with rfl | rfl <;> decide
      refine walk?_go h hc (afterIdentifier_suffix rest) ?_ ih
      rw [compoundMove?, if_neg hcombinator, if_pos hname, ← place_tail_ascii h hc,
        identifierEnd?_eq ((List.suffix_cons c rest).trans h), Option.map_some]
  | case4 rest hcombinator hname ih =>
      refine walk?_go h (by decide) (afterAttribute_suffix rest) ?_ ih
      rw [compoundMove?, if_neg hcombinator, if_neg hname, if_pos rfl, attributeEnd?_eq h,
        Option.map_some]
  | case5 rest left hleft hcombinator hname hsquare ih =>
      refine walk?_go h (by decide) (suffix_of_afterPseudoClass? hleft) ?_ ih
      rw [compoundMove?, if_neg hcombinator, if_neg hname, if_neg hsquare, if_pos rfl,
        pseudoClassEnd?_eq h, hleft]
      rfl
  | case6 rest hnone hcombinator hname hsquare =>
      refine walk?_stop h (by decide) ?_
      rw [compoundMove?, if_neg hcombinator, if_neg hname, if_neg hsquare, if_pos rfl,
        pseudoClassEnd?_eq h, hnone]
      rfl
  | case7 rest hcombinator hname hsquare hcolon ih =>
      refine walk?_go h (by decide) (afterEscape_suffix rest) ?_ ih
      rw [compoundMove?, if_neg hcombinator, if_neg hname, if_neg hsquare, if_neg hcolon, if_pos rfl,
        escapeEnd?_eq h, Option.map_some]
  | case8 c rest hcombinator hname hsquare hcolon hescape hall ih =>
      have hc : ¬ IsWide c := by rcases hall with rfl | rfl <;> decide
      refine walk?_go h hc (List.suffix_refl rest) ?_ ih
      rw [compoundMove?, if_neg hcombinator, if_neg hname, if_neg hsquare, if_neg hcolon,
        if_neg hescape, if_pos hall, place_tail_ascii h hc]
  | case9 c rest hcombinator hname hsquare hcolon hescape hall hc ih =>
      obtain ⟨b, hbyte, hb⟩ := (holds_place h).exists_byte
      have hident := identifierEnd?_eq h
      rw [afterIdentifier_cons hc] at hident
      have hmove : compoundMove? source () (place source (c :: rest)) b =
          some (.go () (place source (afterIdentifier rest))) := by
        rcases hb with rfl | ⟨hb, -⟩
        · rw [compoundMove?, if_neg hcombinator, if_neg hname, if_neg hsquare, if_neg hcolon,
            if_neg hescape, if_neg hall, if_pos hc, hident, Option.map_some]
        · have hne : ∀ d : Char, d.toNat < 0x80 → b ≠ d := fun d hd => hb.ne hd
          rw [compoundMove?, if_neg fun hd => not_isWide_of_isCombinator hd hb,
            if_neg (not_or.mpr ⟨hne _ (by decide), hne _ (by decide)⟩), if_neg (hne _ (by decide)),
            if_neg (hne _ (by decide)), if_neg (hne _ (by decide)),
            if_neg (not_or.mpr ⟨hne _ (by decide), hne _ (by decide)⟩),
            if_pos hb.isIdentifierChar, hident, Option.map_some]
      have hrest := afterIdentifier_suffix rest
      rw [walk?_byte hbyte hmove (place_lt h hrest) (place_le_size source _)]
      exact ih ((hrest.trans (List.suffix_cons c rest)).trans h)
  | case10 c rest hcombinator hname hsquare hcolon hescape hall hc =>
      refine walk?_stop h (fun hwide => hc hwide.isIdentifierChar) ?_
      rw [compoundMove?, if_neg hcombinator, if_neg hname, if_neg hsquare, if_neg hcolon,
        if_neg hescape, if_neg hall, if_neg hc]

theorem isTokenAt?_eq (escaped : Text) (h : '.' :: t <:+ source) :
    isTokenAt? escaped source (place source ('.' :: t)) = some (startsWithName escaped t) := by
  have ht := (List.suffix_cons _ t).trans h
  rw [isTokenAt?, ← place_tail_ascii h (by decide), (holds_place ht).slice?_eq, Option.map_some]
  unfold startsWithName
  cases hafter : after? escaped t with
  | none => rfl
  | some rest =>
      have hwide : ∀ c, IsWide c → (isIdentifierChar c || c == '\x5c') = true := fun c hc => by
        rw [hc.isIdentifierChar, Bool.true_or]
      have hsplit := eq_append_of_after? hafter
      rw [hsplit] at ht ⊢
      rw [← place_append ht, any_byteAt?_place hwide ((List.suffix_append escaped rest).trans ht)]
      rfl

/-- In front of all but a dot, the search goes on behind one unit. -/
theorem tokenMove?_unit (escaped : Text) (h : c :: t <:+ source) (hc : ¬ IsWide c) (hdot : c ≠ '.') :
    tokenMove? escaped source () (place source (c :: t)) c =
      some (.go () (place source (afterUnit (c :: t)))) := by
  rw [tokenMove?, afterUnit]
  split
  next hescape =>
    rw [hescape] at h ⊢
    rw [escapeEnd?_eq h, Option.map_some]
  next =>
    split
    next hquote => rw [stringEnd?_eq h hquote, Option.map_some]
    next =>
      split
      next hsquare =>
        rw [hsquare] at h ⊢
        rw [attributeEnd?_eq h, Option.map_some]
      next =>
        split
        next hround =>
          rw [hround] at h ⊢
          rw [parenthesesEnd?_eq h, Option.map_some]
        next => rw [place_tail_ascii h hc]

theorem tokenWalk_eq (escaped : Text) (h : t <:+ source) :
    walk? source (tokenMove? escaped source) (fun _ _ => none) () (place source t) =
      some ((findClassToken escaped t).map (place source)) := by
  have hwide : ∀ i b, IsWide b → tokenMove? escaped source () i b = some (.go () (i + 1)) := by
    intro i b hb
    rw [tokenMove?, if_neg (hb.ne (by decide)), hb.isQuote_eq, if_neg Bool.false_ne_true,
      if_neg (hb.ne (by decide)), if_neg (hb.ne (by decide)), if_neg (hb.ne (by decide))]
  have hdot : ∀ {rest}, '.' :: rest <:+ source →
      tokenMove? escaped source () (place source ('.' :: rest)) '.' =
        if startsWithName escaped rest then some (.stop (some (place source ('.' :: rest))))
        else some (.go () (place source (afterIdentifier rest))) := by
    intro rest h
    rw [tokenMove?, if_neg (by decide), if_neg (by decide), if_neg (by decide), if_neg (by decide),
      if_pos rfl, isTokenAt?_eq escaped h, ← place_tail_ascii h (by decide),
      identifierEnd?_eq ((List.suffix_cons _ rest).trans h)]
    rfl
  fun_induction findClassToken escaped t with
  | case1 => exact walk?_nil
  | case2 rest hname =>
      refine walk?_stop h (by decide) ?_
      rw [hdot h, if_pos hname, Option.map_some]
  | case3 rest hname ih =>
      refine walk?_go h (by decide) (afterIdentifier_suffix rest) ?_ ih
      rw [hdot h, if_neg hname]
  | case4 c rest hc ih =>
      by_cases hascii : IsWide c
      · rw [afterUnit_identifierChar hascii.isIdentifierChar] at ih ⊢
        exact walk?_char h hwide (hwide _ c hascii) ih
      · exact walk?_go h hascii (afterUnit_suffix c rest) (tokenMove?_unit escaped h hascii hc) ih

/-- The search by positions finds the token that the search in the text finds. -/
theorem tokenStart?_eq (escaped source : Text) :
    tokenStart? escaped source = some (classTokenStart? escaped source) := by
  have hwalk := tokenWalk_eq escaped (List.suffix_refl source)
  rwa [place_self] at hwalk

end UtilityCss.Selector
