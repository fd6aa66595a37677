import UtilityCss.ClassName.Value
import UtilityCss.Proofs.Css.Lexeme
import UtilityCss.Proofs.Text.Trim

/-!
# Tildes by their place

Whether a tilde becomes a space depends on what stands in front of it: on the backslashes right
there, and on the quotes that are open. Spaces in place of tildes change neither, and blanks at the
ends of a text have no part in it, so that a value that has been decoded and trimmed stays as it is.
-/

namespace UtilityCss.ClassName

open Text Css

variable {before before' t : Text}

/-- Whether an odd number of backslashes stands right in front of a place. What is in front of the
place is given with its last character first, here and below. -/
def isEscaped (before : Text) : Bool :=
  (before.takeWhile (· == '\x5c')).length % 2 == 1

/-- The quote in which a place lies. It is opened by a quote outside any, and another one of its kind
closes it; escaped quotes neither open nor close. -/
def openQuote : Text → Option Char
  | [] => none
  | c :: before =>
      if isQuote c && !isEscaped before then
        match openQuote before with
        | none => some c
        | some q => if c = q then none else some q
      else openQuote before

def decodedChar (before : Text) (c : Char) : Char :=
  if c = '~' ∧ openQuote before = none ∧ isEscaped before = false then ' ' else c

def decodedFrom (before : Text) : Text → Text
  | [] => []
  | c :: t => decodedChar before c :: decodedFrom (c :: before) t

theorem decodedFrom_eq_mapIdx (before t : Text) :
    decodedFrom before t = t.mapIdx fun i c => decodedChar ((t.take i).reverse ++ before) c := by
  induction t generalizing before with
  | nil => rfl
  | cons c t ih =>
      rw [decodedFrom, ih, List.mapIdx_cons]
      simp

theorem decodedFrom_append (before s t : Text) :
    decodedFrom before (s ++ t) = decodedFrom before s ++ decodedFrom (s.reverse ++ before) t := by
  induction s generalizing before with
  | nil => rfl
  | cons c s ih =>
      rw [List.cons_append, decodedFrom, ih, decodedFrom, List.reverse_cons, List.append_assoc]
      rfl

theorem length_decodedFrom (before t : Text) : (decodedFrom before t).length = t.length := by
  rw [decodedFrom_eq_mapIdx, List.length_mapIdx]

theorem isEscaped_backslash (before : Text) : isEscaped ('\x5c' :: before) = !isEscaped before := by
  rw [isEscaped, isEscaped, List.takeWhile_cons_of_pos rfl, List.length_cons, Bool.eq_iff_iff]
  simp only [beq_iff_eq, Bool.not_eq_true', beq_eq_false_iff_ne]
  omega

theorem isEscaped_of_ne {c : Char} (hc : c ≠ '\x5c') (before : Text) :
    isEscaped (c :: before) = false := by
  rw [isEscaped, List.takeWhile_cons_of_neg (by simpa using hc)]
  rfl

theorem openQuote_of_escaped {c : Char} (h : isEscaped before = true) :
    openQuote (c :: before) = openQuote before := by
  rw [openQuote, h, Bool.not_true, Bool.and_false, if_neg Bool.false_ne_true]

theorem openQuote_of_not_isQuote {c : Char} (h : isQuote c = false) (before : Text) :
    openQuote (c :: before) = openQuote before := by
  rw [openQuote, h, Bool.false_and, if_neg Bool.false_ne_true]

/-- A quote that is not escaped. -/
theorem openQuote_quote {c : Char} (hc : isQuote c = true) (h : isEscaped before = false) :
    openQuote (c :: before) =
      match openQuote before with
      | none => some c
      | some q => if c = q then none else some q := by
  rw [openQuote, hc, h, Bool.not_false, Bool.and_true, if_pos rfl]

theorem isQuote_of_openQuote {q : Char} (h : openQuote before = some q) : isQuote q = true := by
  induction before with
  | nil => cases h
  | cons c before ih =>
      rw [openQuote] at h
      split at h
      next hquote =>
        have hc : isQuote c = true := (Bool.and_eq_true_iff.mp hquote).1
        cases hopen : openQuote before with
        | none =>
            rw [hopen] at h
            exact Option.some.inj h ▸ hc
        | some p =>
            rw [hopen] at h
            simp only at h
            split at h
            · cases h
            · exact ih (hopen.trans h)
      next => exact ih h

/-- Between two places that are escaped alike and lie in the same quote, decoding knows no
difference. -/
theorem decodedFrom_congr (hquote : openQuote before = openQuote before')
    (hescaped : isEscaped before = isEscaped before') (t : Text) :
    decodedFrom before t = decodedFrom before' t := by
  induction t generalizing before before' with
  | nil => rfl
  | cons c t ih =>
      have hnext : isEscaped (c :: before) = isEscaped (c :: before') := by
        by_cases hc : c = '\x5c'
        · rw [hc, isEscaped_backslash, isEscaped_backslash, hescaped]
        · rw [isEscaped_of_ne hc, isEscaped_of_ne hc]
      have hopen : openQuote (c :: before) = openQuote (c :: before') := by
        rw [openQuote, openQuote, hquote, hescaped]
      rw [decodedFrom, decodedFrom, decodedChar, decodedChar, hquote, hescaped, ih hopen hnext]

/-! ## Decoding by places -/

theorem decodedChar_of_ne {c : Char} (hc : c ≠ '~') : decodedChar before c = c :=
  if_neg fun h => hc h.1

theorem decodedChar_of_escaped (h : isEscaped before = true) (c : Char) :
    decodedChar before c = c :=
  if_neg fun hplace => by
    rw [h] at hplace
    cases hplace.2.2

theorem decodedChar_of_openQuote {q : Char} (h : openQuote before = some q) (c : Char) :
    decodedChar before c = c :=
  if_neg fun hplace => by
    rw [h] at hplace
    cases hplace.2.1

theorem decodedFrom_cons {c : Char} (hc : decodedChar before c = c) (t : Text) :
    decodedFrom before (c :: t) = c :: decodedFrom (c :: before) t := by
  rw [decodedFrom, hc]

/-- The reading is in the quote that the text in front of it leaves open. -/
theorem spacedFrom_eq_decodedFrom {quote : Option Char} (hquote : openQuote before = quote)
    (h : isEscaped before = false) (t : Text) : spacedFrom quote t = decodedFrom before t := by
  fun_induction spacedFrom quote t generalizing before with
  | case1 => rfl
  | case2 => exact (decodedFrom_cons (decodedChar_of_ne (by decide)) []).symm
  | case3 quote c rest ih =>
      have hescaped : isEscaped ('\x5c' :: before) = true := by rw [isEscaped_backslash, h]; rfl
      have hnext : isEscaped (c :: '\x5c' :: before) = false := by
        by_cases hc : c = '\x5c'
        · rw [hc, isEscaped_backslash, hescaped]
          rfl
        · exact isEscaped_of_ne hc _
      have hopen : openQuote (c :: '\x5c' :: before) = quote := by
        rw [openQuote_of_escaped hescaped, openQuote_of_not_isQuote (by decide), hquote]
      rw [decodedFrom_cons (decodedChar_of_ne (by decide)),
        decodedFrom_cons (decodedChar_of_escaped hescaped c), ih hopen hnext]
  | case4 c rest hlone hpair q ih =>
      have hne := ne_backslash_of_cases hlone hpair
      rw [decodedFrom_cons (decodedChar_of_openQuote hquote c), ih ?_ (isEscaped_of_ne hne before)]
      by_cases hc : isQuote c = true
      · rw [openQuote_quote hc h, hquote]
      · have hcq : c ≠ q := by
          rintro rfl
          exact hc (isQuote_of_openQuote hquote)
        rw [openQuote_of_not_isQuote (by simpa using hc), hquote, if_neg hcq]
  | case5 c rest hlone hpair hc ih =>
      have hne := ne_backslash_of_cases hlone hpair
      have htilde : c ≠ '~' := by
        rintro rfl
        exact absurd hc (by decide)
      have hopen : openQuote (c :: before) = some c := by rw [openQuote_quote hc h, hquote]
      rw [decodedFrom_cons (decodedChar_of_ne htilde), ih hopen (isEscaped_of_ne hne before)]
  | case6 rest hlone hpair hc ih =>
      have hspace : decodedChar before '~' = ' ' := if_pos ⟨rfl, hquote, h⟩
      have hopen : openQuote ('~' :: before) = none := by
        rw [openQuote_of_not_isQuote (by decide), hquote]
      rw [decodedFrom, hspace, ih hopen (isEscaped_of_ne (by decide) before)]
  | case7 c rest hlone hpair hc htilde ih =>
      have hne := ne_backslash_of_cases hlone hpair
      have hopen : openQuote (c :: before) = none := by
        rw [openQuote_of_not_isQuote (by simpa using hc), hquote]
      rw [decodedFrom_cons (decodedChar_of_ne htilde), ih hopen (isEscaped_of_ne hne before)]

theorem spaced_eq (raw : Text) : spaced raw = decodedFrom [] raw := by
  have hopen : openQuote [] = none := rfl
  exact spacedFrom_eq_decodedFrom hopen rfl raw

/-- A space leaves quotes and escapes as the tilde in its place did. -/
theorem decodedFrom_decodedFrom (before t : Text) :
    decodedFrom before (decodedFrom before t) = decodedFrom before t := by
  induction t generalizing before with
  | nil => rfl
  | cons c t ih =>
      by_cases hplace : c = '~' ∧ openQuote before = none ∧ isEscaped before = false
      · have hspace : decodedChar before c = ' ' := if_pos hplace
        have hopen : openQuote (' ' :: before) = openQuote (c :: before) := by
          rw [openQuote_of_not_isQuote (by decide), hplace.1,
            openQuote_of_not_isQuote (by decide)]
        have hescaped : isEscaped (' ' :: before) = isEscaped (c :: before) := by
          rw [isEscaped_of_ne (by decide), hplace.1, isEscaped_of_ne (by decide)]
        rw [decodedFrom, hspace, decodedFrom_cons (decodedChar_of_ne (by decide)),
          decodedFrom_congr hopen hescaped, ih]
      · have hsame : decodedChar before c = c := if_neg hplace
        rw [decodedFrom_cons hsame, decodedFrom_cons hsame, ih]

/-- Behind blanks a place is as it is at the start. -/
theorem place_blanks {ws : Text} (h : ∀ c ∈ ws, isBlank c = true) :
    openQuote ws = none ∧ isEscaped ws = false := by
  induction ws with
  | nil => exact ⟨rfl, rfl⟩
  | cons c ws ih =>
      obtain ⟨hc, hws⟩ := List.forall_mem_cons.mp h
      have hquote : isQuote c = false := Bool.eq_false_iff.mpr fun hquote => by
        rw [isBlank_of_isQuote hquote] at hc
        cases hc
      have hne : c ≠ '\x5c' := by
        rintro rfl
        exact absurd hc (by decide)
      exact ⟨(openQuote_of_not_isQuote hquote ws).trans (ih hws).1, isEscaped_of_ne hne ws⟩

theorem decodedFrom_trim {t : Text} (h : decodedFrom [] t = t) :
    decodedFrom [] (trim t) = trim t := by
  obtain ⟨ws, hstart, hws⟩ := exists_append_trimStart t
  obtain ⟨ws', hend, -⟩ := exists_trimEnd_append (trimStart t)
  have hsplit : t = ws ++ (trim t ++ ws') := by rw [trim, ← hend, ← hstart]
  have hparts : decodedFrom [] ws ++ (decodedFrom (ws.reverse ++ []) (trim t) ++
      decodedFrom ((trim t).reverse ++ (ws.reverse ++ [])) ws') = ws ++ (trim t ++ ws') := by
    rw [← decodedFrom_append, ← decodedFrom_append, ← hsplit, h]
  obtain ⟨-, hrest⟩ := List.append_inj hparts (length_decodedFrom [] ws)
  obtain ⟨hmiddle, -⟩ := List.append_inj hrest (length_decodedFrom _ (trim t))
  have hblanks : ∀ c ∈ ws.reverse ++ [], isBlank c = true := by simpa using hws
  obtain ⟨hopen, hescaped⟩ := place_blanks hblanks
  have hnothing : openQuote [] = none ∧ isEscaped [] = false := ⟨rfl, rfl⟩
  rwa [decodedFrom_congr (hopen.trans hnothing.1.symm) (hescaped.trans hnothing.2.symm)] at hmiddle

/-- Exactly the tildes that are neither in a quoted string nor behind a backslash that means
something become spaces, and the rest stays as it is, place by place. What has been decoded and
trimmed stays so, and an important value has its flag at the end. -/
theorem formatValue_decodes (raw : Text) :
    formatValue (formatValue raw false) false = formatValue raw false ∧
    formatValue raw false = trim (spaced raw) ∧
    (spaced raw = raw.mapIdx fun i c =>
      let before := (raw.take i).reverse
      if c = '~' ∧ openQuote before = none ∧ isEscaped before = false then ' ' else c) ∧
    formatValue raw true =
      if formatValue raw false = [] then "!important".toList
      else formatValue raw false ++ " !important".toList := by
  have hvalue : ∀ raw, formatValue raw false = trim (spaced raw) := fun _ => rfl
  refine ⟨?_, hvalue raw, ?_, ?_⟩
  · have hspaced : decodedFrom [] (spaced raw) = spaced raw := by
      rw [spaced_eq, decodedFrom_decodedFrom]
    rw [hvalue, hvalue, spaced_eq (trim _), decodedFrom_trim hspaced, trim_trim]
  · rw [spaced_eq, decodedFrom_eq_mapIdx]
    simp only [List.append_nil]
    rfl
  · rw [hvalue, formatValue, if_pos rfl]
    simp only [List.isEmpty_iff]
    rfl

end UtilityCss.ClassName
