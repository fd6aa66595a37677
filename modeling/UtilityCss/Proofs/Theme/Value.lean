import UtilityCss.Proofs.Name.Set
import UtilityCss.Proofs.Selector.Escape
import UtilityCss.Proofs.Text.Bytes
import UtilityCss.Proofs.Theme.Reference

/-!
# References of composed values

A call cannot reach over a character that separates: what stands on its two sides is read as if it
stood alone. Values with fallbacks and operands are put together at such characters, at the comma in
front of a fallback and at the parenthesis that closes a reference.
-/

namespace UtilityCss.Theme

open Text

structure IsSeparator (s : Char) : Prop where
  solid : isBlank s = false
  opensNoCall : s ≠ '('
  endsName : isReferenceChar s = false

variable {s : Char} {a b t name behind : Text}

theorem isSeparator_comma : IsSeparator ',' :=
  ⟨by decide, by decide, by decide⟩

theorem isSeparator_close : IsSeparator ')' :=
  ⟨by decide, by decide, by decide⟩

theorem IsSeparator.not_mem_call (hs : IsSeparator s) {blanks : Text}
    (hblanks : ∀ c ∈ blanks, isBlank c = true) (hname : ∀ c ∈ name, isReferenceChar c = true) :
    s ∉ "var(".toList ++ (blanks ++ ("--".toList ++ name)) := by
  have hletters : ∀ c ∈ ['v', 'a', 'r', '-'], isReferenceChar c = true :=
    List.all_eq_true.mp rfl
  have hne {c : Char} (hc : isReferenceChar c = true) : s ≠ c := by
    rintro rfl
    exact absurd hc (by simp [hs.endsName])
  intro hmem
  rcases List.mem_append.mp hmem with hmem | hmem
  · have hcases : s = 'v' ∨ s = 'a' ∨ s = 'r' ∨ s = '(' := by simpa using hmem
    rcases hcases with h | h | h | h
    · exact hne (hletters 'v' (by decide)) h
    · exact hne (hletters 'a' (by decide)) h
    · exact hne (hletters 'r' (by decide)) h
    · exact hs.opensNoCall h
  · rcases List.mem_append.mp hmem with hmem | hmem
    · exact absurd (hblanks s hmem) (by simp [hs.solid])
    · rcases List.mem_append.mp hmem with hmem | hmem
      · have hdash : s = '-' := by simpa using hmem
        exact hne (hletters '-' (by decide)) hdash
      · exact hne (hname s hmem) rfl

theorem isCall_append_separator (hs : IsSeparator s) : IsCall name behind (a ++ s :: b) ↔
    ∃ behind', behind = behind' ++ s :: b ∧ IsCall name behind' a := by
  constructor
  · intro h
    generalize htext : a ++ s :: b = text at h
    obtain ⟨hblanks, hname, hbehind⟩ := h
    rename_i blanks
    have hcut : a ++ s :: b =
        ("var(".toList ++ (blanks ++ ("--".toList ++ name))) ++ behind := by
      rw [htext]
      simp only [List.append_assoc]
    obtain ⟨behind', rfl, hrest⟩ := exists_append_of_not_mem hcut (hs.not_mem_call hblanks hname)
    refine ⟨behind', hrest.symm, ?_⟩
    have hhead : ∀ c ∈ behind'.head?, isReferenceChar c = false := by
      intro c hc
      refine hbehind c ?_
      rw [← hrest, List.head?_append, hc]
      rfl
    have hcall : IsCall name behind' _ := .intro hblanks hname hhead
    simpa only [List.append_assoc] using hcall
  · rintro ⟨behind', rfl, hblanks, hname, hbehind⟩
    have hhead : ∀ c ∈ (behind' ++ s :: b).head?, isReferenceChar c = false := by
      cases behind' with
      | nil =>
          rintro c ⟨⟩
          exact hs.endsName
      | cons x behind' => exact hbehind
    have hcall : IsCall name (behind' ++ s :: b) _ := .intro hblanks hname hhead
    simpa only [List.append_assoc] using hcall

theorem exists_isCall_append_separator (hs : IsSeparator s) :
    (∃ behind, IsCall name behind (a ++ s :: b)) ↔ ∃ behind, IsCall name behind a := by
  constructor
  · rintro ⟨behind, h⟩
    obtain ⟨behind', -, h⟩ := (isCall_append_separator hs).mp h
    exact ⟨behind', h⟩
  · rintro ⟨behind, h⟩
    exact ⟨_, (isCall_append_separator hs).mpr ⟨behind, rfl, h⟩⟩

theorem referenceList_append_separator (hs : IsSeparator s) (a b : Text) :
    referenceList (a ++ s :: b) = referenceList a ++ referenceList b := by
  induction hlength : a.length using Nat.strongRecOn generalizing a with
  | _ n ih =>
      cases a with
      | nil =>
          have hne : s ≠ 'v' := by
            rintro rfl
            exact absurd hs.endsName (by decide)
          rw [List.nil_append, referenceList_cons_of_ne hne, referenceList]
          rfl
      | cons c a =>
          by_cases hcall : ∃ name behind, IsCall name behind (c :: a)
          · obtain ⟨name, behind, hcall⟩ := hcall
            have hwhole := (isCall_append_separator (b := b) hs).mpr ⟨behind, rfl, hcall⟩
            rw [referenceList_of_isCall hcall, referenceList_of_isCall hwhole,
              ih _ (hlength ▸ hcall.length_lt) behind rfl]
            split <;> rfl
          · have hskip : ∀ name behind, ¬ IsCall name behind (c :: a) := fun name behind h =>
              hcall ⟨name, behind, h⟩
            have hwhole : ∀ name behind, ¬ IsCall name behind (c :: (a ++ s :: b)) := by
              intro name behind h
              obtain ⟨behind', -, h⟩ := (isCall_append_separator (a := c :: a) hs).mp h
              exact hskip name behind' h
            rw [List.cons_append, referenceList_skip hwhole, referenceList_skip hskip,
              ih _ (hlength ▸ Nat.lt_succ_self a.length) a rfl]

theorem references_append_separator (hs : IsSeparator s) (a b : Text) :
    references (a ++ s :: b) = references a ∪ references b := by
  refine NameSet.eq_of_mem_iff fun x => ?_
  simp only [references, NameSet.mem_union, NameSet.mem_ofList, referenceList_append_separator hs,
    List.mem_append]

def WrittenIn (name t : Text) : Prop :=
  name ≠ [] ∧ ∃ rest behind, rest <:+ t ∧ IsCall name behind rest

theorem not_isCall_nil : ¬ IsCall name behind [] := fun h =>
  absurd h.length_lt (Nat.not_lt_zero _)

theorem not_writtenIn_nil : ¬ WrittenIn name [] := by
  rintro ⟨-, rest, behind, hrest, hcall⟩
  rw [List.suffix_nil.mp hrest] at hcall
  exact not_isCall_nil hcall

theorem writtenIn_cons {c : Char} : WrittenIn name (c :: t) ↔
    (name ≠ [] ∧ ∃ behind, IsCall name behind (c :: t)) ∨ WrittenIn name t := by
  constructor
  · rintro ⟨hne, rest, behind, hrest, hcall⟩
    rcases List.suffix_cons_iff.mp hrest with rfl | hrest
    · exact .inl ⟨hne, behind, hcall⟩
    · exact .inr ⟨hne, rest, behind, hrest, hcall⟩
  · rintro (⟨hne, behind, hcall⟩ | ⟨hne, rest, behind, hrest, hcall⟩)
    · exact ⟨hne, c :: t, behind, List.suffix_refl _, hcall⟩
    · exact ⟨hne, rest, behind, hrest.trans (List.suffix_cons c t), hcall⟩

theorem writtenIn_append_separator (hs : IsSeparator s) (a b : Text) :
    WrittenIn name (a ++ s :: b) ↔ WrittenIn name a ∨ WrittenIn name b := by
  induction a with
  | nil =>
      have hno : ¬ ∃ behind, IsCall name behind ([] ++ s :: b) := by
        rw [exists_isCall_append_separator hs]
        rintro ⟨behind, h⟩
        exact not_isCall_nil h
      rw [List.nil_append] at hno ⊢
      rw [writtenIn_cons]
      simp only [hno, and_false, false_or, not_writtenIn_nil]
  | cons c a ih =>
      have hcall : (∃ behind, IsCall name behind (c :: (a ++ s :: b))) ↔
          ∃ behind, IsCall name behind (c :: a) := exists_isCall_append_separator (a := c :: a) hs
      rw [List.cons_append]
      rw [writtenIn_cons, writtenIn_cons, ih, hcall, or_assoc]

/-- Without calls, and not the first part of a call either. -/
abbrev IsPlain (t : Text) : Prop :=
  ¬ "var(".toList <:+: t

theorem not_isCall_of_isPlain {c : Char} {front : Text} (hfront : IsPlain (c :: front))
    (ht : ∀ x ∈ t.head?, x = 'v') : ¬ IsCall name behind (c :: (front ++ t)) := by
  intro h
  obtain ⟨call, -, hcall, -⟩ := isCall_iff.mp h
  have htext : c :: front ++ t = 'v' :: 'a' :: 'r' :: '(' :: call := eq_append_of_after? hcall
  -- A call that the front holds the beginning of has a second `v` in it.
  match front, t with
  | d :: e :: f :: front, _ =>
      simp only [List.cons_append, List.cons.injEq] at htext
      obtain ⟨rfl, rfl, rfl, rfl, -⟩ := htext
      exact hfront ⟨[], front, rfl⟩
  | [], x :: t | [d], x :: t | [d, e], x :: t =>
      have hx := ht x rfl
      subst hx
      simp at htext
  | [], [] | [d], [] | [d, e], [] => simp at htext

theorem isPlain_of_cons {c : Char} (h : IsPlain (c :: t)) : IsPlain t := fun hin =>
  h (hin.trans (List.suffix_cons c t).isInfix)

theorem referenceList_isPlain_append {front : Text} (hfront : IsPlain front)
    (ht : ∀ x ∈ t.head?, x = 'v') : referenceList (front ++ t) = referenceList t := by
  induction front with
  | nil => rfl
  | cons c front ih =>
      rw [List.cons_append, referenceList_skip fun _ _ => not_isCall_of_isPlain hfront ht,
        ih (isPlain_of_cons hfront)]

theorem writtenIn_isPlain_append {front : Text} (hfront : IsPlain front)
    (ht : ∀ x ∈ t.head?, x = 'v') : WrittenIn name (front ++ t) ↔ WrittenIn name t := by
  induction front with
  | nil => rfl
  | cons c front ih =>
      have hno : ¬ ∃ behind, IsCall name behind (c :: (front ++ t)) := by
        rintro ⟨behind, h⟩
        exact not_isCall_of_isPlain hfront ht h
      rw [List.cons_append, writtenIn_cons, ih (isPlain_of_cons hfront)]
      simp only [hno, and_false, false_or]

theorem referenceList_isPlain (h : IsPlain t) : referenceList t = [] := by
  have htext := referenceList_isPlain_append (t := []) h (by simp)
  rwa [List.append_nil, referenceList] at htext

theorem not_writtenIn_isPlain (h : IsPlain t) : ¬ WrittenIn name t := by
  have htext : WrittenIn name (t ++ []) ↔ WrittenIn name [] :=
    writtenIn_isPlain_append h (by simp)
  rw [List.append_nil] at htext
  exact fun hin => not_writtenIn_nil (htext.mp hin)

theorem isPlain_of_not_mem (h : '(' ∉ t) : IsPlain t := fun hin =>
  h (hin.subset (by decide))

/-! ## Openings -/

/-- The characters of a reference are those that an escape leaves plain. -/
theorem isBlank_of_isReferenceChar {c : Char} (hc : isReferenceChar c = true) :
    isBlank c = false :=
  (Selector.isSolid_of_isPlain hc).1

structure Opening where
  blanks : Text
  name : Text
  gap : Text
  blanks_blank : ∀ c ∈ blanks, isBlank c = true
  gap_blank : ∀ c ∈ gap, isBlank c = true
  name_ne_nil : name ≠ []
  name_chars : ∀ c ∈ name, isReferenceChar c = true

namespace Opening

def text (o : Opening) : Text :=
  "var(".toList ++ (o.blanks ++ "--".toList ++ (o.name ++ o.gap))

variable (o : Opening)

theorem isCall : IsCall o.name o.gap o.text := by
  refine .intro o.blanks_blank o.name_chars fun c hc => ?_
  have hblank := o.gap_blank c (List.mem_of_mem_head? hc)
  by_contra hchar
  rw [isBlank_of_isReferenceChar (by simpa using hchar)] at hblank
  cases hblank

theorem referenceList_text : referenceList o.text = [o.name] := by
  have hgap : IsPlain o.gap :=
    isPlain_of_not_mem fun hin => absurd (o.gap_blank _ hin) (by decide)
  rw [referenceList_of_isCall o.isCall, if_neg (by simp [o.name_ne_nil]), referenceList_isPlain hgap]

theorem isPlain_tail : IsPlain o.text.tail := by
  intro hin
  have hrest : '(' ∉ o.blanks ++ "--".toList ++ (o.name ++ o.gap) := by
    simp only [List.mem_append, not_or]
    refine ⟨⟨fun hin => ?_, by decide⟩, fun hin => ?_, fun hin => ?_⟩
    · exact absurd (o.blanks_blank _ hin) (by decide)
    · exact absurd (o.name_chars _ hin) (by decide)
    · exact absurd (o.gap_blank _ hin) (by decide)
  change ['v', 'a', 'r', '('] <:+: 'a' :: 'r' :: '(' :: _ at hin
  simp only [List.infix_cons_iff, List.cons_prefix_cons] at hin
  simp only [show 'v' ≠ 'a' by decide, show 'v' ≠ 'r' by decide, show 'v' ≠ '(' by decide,
    false_and, false_or] at hin
  exact hrest (hin.subset (by decide))

theorem writtenIn_text {name : Text} : WrittenIn name o.text ↔ name = o.name := by
  have htail : ¬ WrittenIn name o.text.tail := not_writtenIn_isPlain o.isPlain_tail
  have hcons : o.text = 'v' :: o.text.tail := rfl
  rw [hcons, writtenIn_cons, ← hcons]
  simp only [htail, or_false]
  constructor
  · rintro ⟨-, behind, hcall⟩
    exact hcall.name_unique o.isCall
  · rintro rfl
    exact ⟨o.name_ne_nil, o.gap, o.isCall⟩

end Opening

/-! ## Values -/

/-- A value by its references: what stands in front of each, its opening, the value behind the comma
if it has a fallback, and what stands behind its parenthesis. -/
inductive Value where
  | plain (t : { t : Text // IsPlain t })
  | reference (front : { t : Text // IsPlain t }) (opening : Opening) (behind : Value)
  | fallback (front : { t : Text // IsPlain t }) (opening : Opening) (inner behind : Value)

namespace Value

def text : Value → Text
  | plain t => t
  | reference front o behind => front ++ o.text ++ ')' :: behind.text
  | fallback front o inner behind => front ++ o.text ++ ',' :: (inner.text ++ ')' :: behind.text)

def names : Value → List Text
  | plain _ => []
  | reference _ o behind => o.name :: behind.names
  | fallback _ o inner behind => o.name :: (inner.names ++ behind.names)

theorem referenceList_opening (hs : IsSeparator s) (front : { t : Text // IsPlain t })
    (o : Opening) (t : Text) :
    referenceList (front ++ o.text ++ s :: t) = o.name :: referenceList t := by
  have hfront : referenceList (front ++ o.text) = referenceList o.text :=
    referenceList_isPlain_append front.property fun x hx => (Option.some.inj hx).symm
  rw [referenceList_append_separator hs, hfront, o.referenceList_text, List.singleton_append]

theorem writtenIn_opening (hs : IsSeparator s) (front : { t : Text // IsPlain t })
    (o : Opening) (t : Text) :
    WrittenIn name (front ++ o.text ++ s :: t) ↔ name = o.name ∨ WrittenIn name t := by
  have hfront : WrittenIn name (front ++ o.text) ↔ WrittenIn name o.text :=
    writtenIn_isPlain_append front.property fun x hx => (Option.some.inj hx).symm
  rw [writtenIn_append_separator hs, hfront, o.writtenIn_text]

theorem referenceList_text (v : Value) : referenceList v.text = v.names := by
  induction v with
  | plain t => exact referenceList_isPlain t.property
  | reference front o behind ih => rw [text, referenceList_opening isSeparator_close, ih, names]
  | fallback front o inner behind ihinner ihbehind =>
      rw [text, referenceList_opening isSeparator_comma,
        referenceList_append_separator isSeparator_close, ihinner, ihbehind, names]

theorem writtenIn_text (v : Value) : WrittenIn name v.text ↔ name ∈ v.names := by
  induction v with
  | plain t => simp only [text, names, not_writtenIn_isPlain t.property, List.not_mem_nil]
  | reference front o behind ih =>
      rw [text, writtenIn_opening isSeparator_close, ih, names, List.mem_cons]
  | fallback front o inner behind ihinner ihbehind =>
      rw [text, writtenIn_opening isSeparator_comma, writtenIn_append_separator isSeparator_close,
        ihinner, ihbehind, names, List.mem_cons, List.mem_append]

end Value

/-- References are found on the two sides of a separator each for itself. In a value they are exactly
the names written in it, however deep its fallbacks are nested and however many operands it has. -/
theorem references_compositional :
    (∀ (a b : Text) (s : Char), IsSeparator s →
      references (a ++ s :: b) = references a ∪ references b) ∧
    ∀ (v : Value) (name : Text), (name ∈ references v.text ↔ WrittenIn name v.text) ∧
      (name ∈ references v.text ↔ name ∈ v.names) := by
  refine ⟨fun a b s hs => references_append_separator hs a b, fun v name => ?_⟩
  have hnames : name ∈ references v.text ↔ name ∈ v.names := by
    rw [references, NameSet.mem_ofList, v.referenceList_text]
  exact ⟨hnames.trans v.writtenIn_text.symm, hnames⟩

/-- The operands of a sum, the first with a fallback that is a reference itself. -/
theorem references_compositional_calc : IsSeparator '+' ∧
    references ("calc(var(--a, var( --b)) * 2".toList ++ '+' :: "var(--c))".toList) =
      references "calc(var(--a, var( --b)) * 2".toList ∪ references "var(--c))".toList ∧
    ∃ v : Value, v.text = "calc(var(--a, var( --b)) * 2+var(--c))".toList ∧
      v.names = ["a".toList, "b".toList, "c".toList] ∧
      ("b".toList ∈ references v.text ↔ WrittenIn "b".toList v.text) := by
  have hplus : IsSeparator '+' := ⟨by decide, by decide, by decide⟩
  have hblank : ∀ c ∈ " ".toList, isBlank c = true := List.all_eq_true.mp rfl
  let a : Opening := ⟨[], "a".toList, [], nofun, nofun, by decide, List.all_eq_true.mp rfl⟩
  let b : Opening := ⟨" ".toList, "b".toList, [], hblank, nofun, by decide, List.all_eq_true.mp rfl⟩
  let c : Opening := ⟨[], "c".toList, [], nofun, nofun, by decide, List.all_eq_true.mp rfl⟩
  let v : Value := .fallback ⟨"calc(".toList, by decide⟩ a
    (.reference ⟨" ".toList, by decide⟩ b (.plain ⟨[], by decide⟩))
    (.reference ⟨" * 2+".toList, by decide⟩ c (.plain ⟨")".toList, by decide⟩))
  exact ⟨hplus, references_compositional.1 _ _ _ hplus, v, rfl, rfl,
    (references_compositional.2 v _).1⟩

end UtilityCss.Theme
