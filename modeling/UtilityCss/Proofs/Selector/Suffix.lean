import UtilityCss.Modifier.Table
import UtilityCss.Proofs.Selector.Members
import UtilityCss.Proofs.Selector.Scans
import UtilityCss.Selector.Pseudo

/-!
# States and pseudo-elements behind a compound

A chain of pseudo-classes from the table of modifiers is cut into links that close their brackets
and end with a character that is no blank; so does a pseudo-element.
-/

namespace UtilityCss.Selector

open Text Css Stylesheet

def isSuffixChar (c : Char) : Bool :=
  isBare c && c != ';' && c != '/' && c != '*' && !isBlank c

/-- What may stand behind a compound, and in front of anything. -/
structure IsSuffix (s : Text) : Prop where
  chars : ∀ c ∈ s, isSuffixChar c = true
  balanced : ∀ depth, bracketDepth? depth s = some depth

theorem isSuffixChar_iff {c : Char} : isSuffixChar c = true ↔
    isBare c = true ∧ c ≠ ';' ∧ c ≠ '/' ∧ c ≠ '*' ∧ isBlank c = false := by
  simp only [isSuffixChar, Bool.and_eq_true, bne_iff_ne, Bool.not_eq_true', and_assoc]

namespace IsSuffix

variable {s s' : Text}

theorem nil : IsSuffix [] :=
  ⟨fun _ hc => absurd hc List.not_mem_nil, fun _ => rfl⟩

theorem append (h : IsSuffix s) (h' : IsSuffix s') : IsSuffix (s ++ s') := by
  refine ⟨List.forall_mem_append.mpr ⟨h.chars, h'.chars⟩, fun depth => ?_⟩
  rw [bracketDepth?_append, h.balanced]
  exact h'.balanced depth

theorem flatten {ls : List Text} (h : ∀ l ∈ ls, IsSuffix l) : IsSuffix ls.flatten := by
  induction ls with
  | nil => exact .nil
  | cons l ls ih =>
      exact (h l List.mem_cons_self).append (ih fun x hx => h x (List.mem_cons_of_mem l hx))

theorem steady (h : IsSuffix s) : Steady s := by
  have hscan : ∀ (u : Text) (depth deeper : Nat), (∀ c ∈ u, isSuffixChar c = true) →
      bracketDepth? depth u = some deeper →
      ∀ t depth', Scans deeper t depth' → Scans depth (u ++ t) depth' := by
    intro u
    induction u with
    | nil =>
        intro depth deeper _ hdepth t depth' ht
        rw [Option.some.inj hdepth]
        exact ht
    | cons c u ih =>
        intro depth deeper hchars hdepth t depth' ht
        rw [bracketDepth?_cons] at hdepth
        obtain ⟨inner, hfirst, hrest⟩ := Option.bind_eq_some_iff.mp hdepth
        obtain ⟨hbare, hsemicolon, hslash, -, -⟩ := isSuffixChar_iff.mp (hchars c List.mem_cons_self)
        exact .char hbare hsemicolon (fun hc => absurd hc hslash) hfirst
          (ih inner deeper (fun x hx => hchars x (List.mem_cons_of_mem c hx)) hrest t depth' ht)
  exact fun depth t depth' ht => hscan s depth depth h.chars (h.balanced depth) t depth' ht

theorem head?_ne (h : IsSuffix s) : s.head? ≠ some '*' := by
  intro hhead
  exact (isSuffixChar_iff.mp (h.chars '*' (List.mem_of_mem_head? hhead))).2.2.2.1 rfl

theorem endsSolid (h : IsSuffix s) : s = [] ∨ EndsSolid s := by
  rcases List.eq_nil_or_concat s with hnil | ⟨front, c, hconcat⟩
  · exact Or.inl hnil
  · right
    rw [List.concat_eq_append] at hconcat
    refine ⟨front, c, hconcat, (isSuffixChar_iff.mp (h.chars c ?_)).2.2.2.2⟩
    rw [hconcat]
    exact List.mem_append_right front List.mem_cons_self

end IsSuffix

theorem isSuffix_of_nested {commas : Bool} {s : Text} (h : Nested commas s)
    (hchars : ∀ c ∈ s, isSuffixChar c = true) : IsSuffix s := by
  refine ⟨hchars, fun depth => ?_⟩
  have hdepth := h.bracketDepth?_append depth []
  rwa [List.append_nil] at hdepth

theorem consHead_eq (c : Char) (parts : List Text) : consHead c parts = appendHead [c] parts := by
  cases parts <;> rfl

theorem flatten_appendHead (u : Text) (parts : List Text) :
    (appendHead u parts).flatten = u ++ parts.flatten := by
  cases parts with
  | nil => simp [appendHead]
  | cons part parts => rw [appendHead, List.flatten_cons, List.flatten_cons, List.append_assoc]

/-- To cut a chain takes nothing away. -/
theorem flatten_linksFrom (previous : Option Char) (s : Text) :
    (linksFrom previous s).flatten = s := by
  fun_induction linksFrom previous s with
  | case1 => rfl
  | case2 previous rest left group ih =>
      rw [flatten_appendHead, ih]
      exact upTo_append ((afterParentheses_suffix 1 rest).trans (List.suffix_cons _ rest))
  | case3 previous c rest _ _ ih => rw [List.flatten_cons, consHead_eq, flatten_appendHead, ih]; rfl
  | case4 previous c rest _ _ ih => rw [consHead_eq, flatten_appendHead, ih]; rfl

/-- A link that is not the first one begins with its colon. -/
theorem head?_of_mem_tail_linksFrom (previous : Option Char) (s : Text) :
    ∀ l ∈ (linksFrom previous s).tail, l.head? = some ':' := by
  have hjoin : ∀ (u : Text) (parts : List Text), (∀ l ∈ parts.tail, l.head? = some ':') →
      ∀ l ∈ (appendHead u parts).tail, l.head? = some ':' := by
    intro u parts hparts
    cases parts with
    | nil => exact nofun
    | cons part parts => exact hparts
  fun_induction linksFrom previous s with
  | case1 => exact nofun
  | case2 previous rest left group ih => exact hjoin _ _ ih
  | case3 previous c rest _ hcolon ih =>
      rw [List.tail_cons, hcolon.1]
      cases hlinks : linksFrom (some ':') rest with
      | nil => exact List.forall_mem_singleton.mpr rfl
      | cons part parts =>
          rw [hcolon.1, hlinks] at ih
          exact List.forall_mem_cons.mpr ⟨rfl, ih⟩
  | case4 previous c rest _ _ ih =>
      rw [consHead_eq]
      exact hjoin _ _ ih

/-- Parentheses belong to one link as a whole, so that the links of a chain close theirs. -/
theorem nested_of_mem_linksFrom {commas : Bool} {s : Text} (h : Nested commas s)
    (hsquare : '[' ∉ s) (previous : Option Char) :
    ∀ l ∈ linksFrom previous s, Nested commas l := by
  have hjoin : ∀ {commas : Bool} {u : Text} {parts : List Text}, Nested commas u →
      (∀ l ∈ parts, Nested commas l) → ∀ l ∈ appendHead u parts, Nested commas l := by
    intro commas u parts hu hparts
    cases parts with
    | nil => exact List.forall_mem_singleton.mpr hu
    | cons part parts =>
        obtain ⟨hpart, hrest⟩ := List.forall_mem_cons.mp hparts
        exact List.forall_mem_cons.mpr ⟨hu.append hpart, hrest⟩
  induction h generalizing previous with
  | nil =>
      rw [linksFrom]
      exact List.forall_mem_singleton.mpr .nil
  | @char commas c s hc hcomma _ ih =>
      have hlinks := ih (fun hin => hsquare (List.mem_cons_of_mem c hin)) (some c)
      have hhead := hjoin (.char hc hcomma .nil) hlinks
      rw [← consHead_eq] at hhead
      rw [linksFrom, if_neg (isOrdinary_iff.mp hc).2.2.1]
      split
      · exact List.forall_mem_cons.mpr ⟨.nil, hhead⟩
      · exact hhead
  | @round commas inner s hinner _ _ ih =>
      have hgroup : '(' :: (inner ++ ')' :: s) = '(' :: (inner ++ [')']) ++ s := by simp
      rw [linksFrom, if_pos rfl]
      simp only [hinner.afterParentheses_closing]
      rw [hgroup] at hsquare ⊢
      rw [upTo_self_append]
      exact hjoin (.round hinner .nil) (ih (fun hin => hsquare (List.mem_append_right _ hin)) _)
  | square => exact absurd List.mem_cons_self hsquare

structure IsAddition (s : Text) : Prop where
  nested : Nested false s
  chars : ∀ c ∈ s, isSuffixChar c = true ∧ c ≠ '['
  begins : ∀ c ∈ s.head?, c = ':'

namespace IsAddition

variable {s s' : Text}

theorem nil : IsAddition [] := ⟨.nil, fun _ hc => absurd hc List.not_mem_nil, nofun⟩

theorem append (h : IsAddition s) (h' : IsAddition s') : IsAddition (s ++ s') := by
  refine ⟨h.nested.append h'.nested, List.forall_mem_append.mpr ⟨h.chars, h'.chars⟩, ?_⟩
  cases s with
  | nil => exact h'.begins
  | cons c s => exact h.begins

theorem flatten {ls : List Text} (h : ∀ l ∈ ls, IsAddition l) : IsAddition ls.flatten := by
  induction ls with
  | nil => exact .nil
  | cons l ls ih =>
      exact (h l List.mem_cons_self).append (ih fun x hx => h x (List.mem_cons_of_mem l hx))

theorem isSuffix (h : IsAddition s) : IsSuffix s :=
  isSuffix_of_nested h.nested fun c hc => (h.chars c hc).1

/-- The links of a chain may be inserted one by one. -/
theorem of_mem_links (h : IsAddition s) : ∀ l ∈ links s, IsAddition l := by
  intro l hl
  obtain ⟨hl, hne⟩ := List.mem_filter.mp hl
  have hchars := flatten_linksFrom none s
  refine ⟨?_, ?_, ?_⟩
  · exact nested_of_mem_linksFrom h.nested (fun hin => (h.chars _ hin).2 rfl) none l hl
  · intro c hc
    exact h.chars c (hchars ▸ List.mem_flatten.mpr ⟨l, hl, hc⟩)
  · intro c hc
    cases hlinks : linksFrom none s with
    | nil =>
        rw [hlinks] at hl
        exact absurd hl List.not_mem_nil
    | cons first rest =>
        have htail := head?_of_mem_tail_linksFrom none s
        rw [hlinks] at hl htail hchars
        rcases List.mem_cons.mp hl with rfl | hl
        · -- The first link begins as the chain does.
          refine h.begins c ?_
          rw [← hchars, List.flatten_cons, List.head?_append, Option.mem_def.mp hc]
          rfl
        · rw [htail l hl] at hc
          exact (Option.some.inj hc).symm

end IsAddition

/-! ## The table of modifiers -/

/-- A pseudo-class of the table is a name, perhaps with a word in parentheses. -/
theorem states_shape : ∀ m ∈ Modifier.states,
    let name := m.css.takeWhile (· != '(')
    let word := ((m.css.dropWhile (· != '(')).drop 1).dropLast
    (m.css = name ∨ m.css = name ++ '(' :: (word ++ [')'])) ∧
      name.all (fun c => isOrdinary c && c != ',') = true ∧
      word.all (fun c => isOrdinary c && c != ',') = true ∧
      m.css.all (fun c => isSuffixChar c && c != '[') = true := by
  decide +kernel

theorem nested_states {states : List Modifier} (h : ∀ m ∈ states, m ∈ Modifier.states) :
    Nested false (states.flatMap (·.css)) := by
  have hordinary : ∀ t : Text, t.all (fun c => isOrdinary c && c != ',') = true →
      ∀ {commas : Bool}, Nested commas t := by
    intro t ht commas
    refine .of_ordinary fun c hc => ?_
    simpa using List.all_eq_true.mp ht c hc
  induction states with
  | nil => exact .nil
  | cons m states ih =>
      obtain ⟨hshape, hname, hword, -⟩ := states_shape m (h m List.mem_cons_self)
      have hm : Nested false m.css := by
        rcases hshape with hcss | hcss
        · rw [hcss]
          exact hordinary _ hname
        · rw [hcss]
          exact (hordinary _ hname).append (.round (hordinary _ hword) .nil)
      exact hm.append (ih fun x hx => h x (List.mem_cons_of_mem m hx))

theorem isSuffixChar_of_mem_states {states : List Modifier}
    (h : ∀ m ∈ states, m ∈ Modifier.states) :
    ∀ c ∈ states.flatMap (·.css), isSuffixChar c = true ∧ c ≠ '[' := by
  intro c hc
  obtain ⟨m, hm, hc⟩ := List.mem_flatMap.mp hc
  have hcss := List.all_eq_true.mp (states_shape m (h m hm)).2.2.2 c hc
  simpa using hcss

theorem isAddition_states {states : List Modifier} (h : ∀ m ∈ states, m ∈ Modifier.states) :
    IsAddition (states.flatMap (·.css)) := by
  refine ⟨nested_states h, isSuffixChar_of_mem_states h, ?_⟩
  have hcolon : ∀ m ∈ Modifier.states, m.css.head? = some ':' := by decide +kernel
  cases states with
  | nil => exact nofun
  | cons m states =>
      obtain ⟨css, hcss⟩ := List.head?_eq_some_iff.mp (hcolon m (h m List.mem_cons_self))
      intro c hc
      rw [List.flatMap_cons, hcss] at hc
      exact (Option.some.inj hc).symm

theorem isSuffix_states {states : List Modifier} (h : ∀ m ∈ states, m ∈ Modifier.states) :
    IsSuffix (states.flatMap (·.css)) :=
  (isAddition_states h).isSuffix

theorem isSuffix_of_states {states : List Modifier} (h : ∀ m ∈ states, m ∈ Modifier.states) :
    ∀ l ∈ links (states.flatMap (·.css)), IsSuffix l :=
  fun l hl => ((isAddition_states h).of_mem_links l hl).isSuffix

theorem isAddition_of_element {element : Option Modifier}
    (h : ∀ m ∈ element, m ∈ Modifier.pseudoElements) :
    IsAddition ((element.map (·.css)).getD []) := by
  have htable : ∀ m ∈ Modifier.pseudoElements, m.css.head? = some ':' ∧
      m.css.all (fun c => isSuffixChar c && isOrdinary c && c != ',') = true := by
    decide +kernel
  cases element with
  | none => exact .nil
  | some m =>
      obtain ⟨hcolon, hall⟩ := htable m (h m rfl)
      have hcss := List.all_eq_true.mp hall
      simp only [Bool.and_eq_true, bne_iff_ne] at hcss
      refine ⟨.of_ordinary fun c hc => ⟨(hcss c hc).1.2, (hcss c hc).2⟩, fun c hc => ?_, ?_⟩
      · exact ⟨(hcss c hc).1.1, (isOrdinary_iff.mp (hcss c hc).1.2).2.2.2.2.1⟩
      · intro c hc
        rw [Option.map_some, Option.getD_some, hcolon] at hc
        exact (Option.some.inj hc).symm

theorem isSuffix_of_element {element : Option Modifier}
    (h : ∀ m ∈ element, m ∈ Modifier.pseudoElements) :
    IsSuffix ((element.map (·.css)).getD []) :=
  (isAddition_of_element h).isSuffix

end UtilityCss.Selector
