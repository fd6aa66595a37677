import UtilityCss.Proofs.Modifier.Table
import UtilityCss.Proofs.Selector.Compound
import UtilityCss.Proofs.Selector.Conflict
import UtilityCss.Proofs.Selector.Suffix

/-!
# Chains and their links

To cut a chain undoes putting it together: its links make up the whole of it, and pseudo-classes that
are written one behind the other, the group of each closed where it ends, are its links again. So the
chain of the states of a class is cut into these states.
-/

namespace UtilityCss.Selector

open Text Css

variable {name group inner t rest body : Text} {previous : Option Char} {ls : List Text}

structure IsLinkName (name : Text) : Prop where
  nonempty : name ≠ []
  chars : ∀ c ∈ name, c ≠ ':' ∧ c ≠ '('

/-- Links one behind the other. The argument of a link is a group that ends, where it stands, with
the link. -/
inductive IsChain : List Text → Prop where
  | nil : IsChain []
  | bare {name : Text} {ls : List Text} (hname : IsLinkName name) (hls : IsChain ls) :
      IsChain ((':' :: name) :: ls)
  | call {name group : Text} {ls : List Text} (hname : IsLinkName name)
      (hopen : group.head? = some '(')
      (hend : afterParentheses 0 (group ++ ls.flatten) = ls.flatten) (hls : IsChain ls) :
      IsChain ((':' :: (name ++ group)) :: ls)

theorem IsPseudoName.isLinkName (h : IsPseudoName name) : IsLinkName name := by
  refine ⟨h.nonempty, fun c hc => ⟨?_, (isIdentifierChar_spec (h.chars c hc)).2.2.2.1⟩⟩
  rintro rfl
  exact absurd (h.chars ':' hc) (by decide)

/-- Pseudo-classes that close their groups whatever follows make a chain. -/
theorem isChain_of_isPseudoClass (h : ∀ l ∈ ls, IsPseudoClass l) : IsChain ls := by
  induction ls with
  | nil => exact .nil
  | cons l ls ih =>
      obtain ⟨hl, hls⟩ := List.forall_mem_cons.mp h
      cases hl with
      | bare hname => exact .bare hname.isLinkName (ih hls)
      | @call name inner hname hclosed =>
          refine .call hname.isLinkName rfl ?_ (ih hls)
          rw [List.cons_append, afterParentheses_open, List.append_assoc, List.singleton_append,
            hclosed]

/-! ## Reading a chain -/

theorem exists_linksFrom (previous : Option Char) (t : Text) :
    ∃ link links, linksFrom previous t = link :: links := by
  have hjoin : ∀ (u : Text) (parts : List Text),
      ∃ link links, appendHead u parts = link :: links := by
    intro u parts
    cases parts with
    | nil => exact ⟨u, [], rfl⟩
    | cons part parts => exact ⟨u ++ part, parts, rfl⟩
  fun_cases linksFrom previous t with
  | case1 => exact ⟨[], [], rfl⟩
  | case2 => exact hjoin _ _
  | case3 => exact ⟨_, _, rfl⟩
  | case4 c rest =>
      rw [consHead_eq]
      exact hjoin _ _

/-- A name belongs to the link that it stands in. -/
theorem linksFrom_name (h : ∀ c ∈ name, c ≠ ':' ∧ c ≠ '(') (t : Text) :
    linksFrom previous (name ++ t) =
      appendHead name (linksFrom (name.getLast?.or previous) t) := by
  induction name generalizing previous with
  | nil =>
      obtain ⟨link, links, hlinks⟩ := exists_linksFrom previous t
      exact hlinks.trans (congrArg (appendHead []) hlinks).symm
  | cons c name ih =>
      obtain ⟨⟨hcolon, hround⟩, hname⟩ := List.forall_mem_cons.mp h
      have hlast : (c :: name).getLast?.or previous = name.getLast?.or (some c) := by
        rw [List.getLast?_cons]
        cases name.getLast? <;> rfl
      rw [List.cons_append, linksFrom, if_neg hround, if_neg fun heq => hcolon heq.1, ih hname,
        consHead_eq, appendHead_append, hlast, List.singleton_append]

/-- So does a group that ends where the scan of it stops. -/
theorem linksFrom_group (hopen : group.head? = some '(')
    (hend : afterParentheses 0 (group ++ rest) = rest) :
    linksFrom previous (group ++ rest) = appendHead group (linksFrom group.getLast? rest) := by
  obtain ⟨inner, rfl⟩ := List.head?_eq_some_iff.mp hopen
  have hgroup := upTo_self_append ('(' :: inner) rest
  rw [List.cons_append] at hend hgroup ⊢
  rw [afterParentheses_open] at hend
  rw [linksFrom, if_pos rfl]
  simp only [hend, hgroup]

/-- A scan of a group that does not stop at the end of the text stops behind a parenthesis. -/
theorem exists_of_afterParentheses {depth : Nat} (h : afterParentheses depth t = rest)
    (hne : rest ≠ []) : ∃ u, t = u ++ ')' :: rest := by
  have hsplit : ∀ {c : Char} {tail left : Text}, left <:+ tail → (∃ u, left = u ++ ')' :: rest) →
      ∃ u, c :: tail = u ++ ')' :: rest := by
    rintro c _ _ ⟨v, rfl⟩ ⟨u, rfl⟩
    exact ⟨c :: (v ++ u), by simp⟩
  fun_induction afterParentheses depth t with
  | case1 => exact absurd h.symm hne
  | case2 _ tail ih => exact hsplit (afterEscape_suffix tail) (ih h)
  | case3 _ c tail _ _ ih => exact hsplit (afterString_suffix c tail) (ih h)
  | case4 _ tail _ _ ih => exact hsplit (afterAttribute_suffix tail) (ih h)
  | case5 _ tail _ _ _ ih => exact hsplit (List.suffix_refl tail) (ih h)
  | case6 => exact ⟨[], by rw [h]; rfl⟩
  | case7 _ tail _ _ _ _ _ ih => exact hsplit (List.suffix_refl tail) (ih h)
  | case8 _ _ tail _ _ _ _ _ ih => exact hsplit (List.suffix_refl tail) (ih h)

/-- Behind its colon, a link of a chain is read to its end, where no other colon stands unless the
chain ends there too. -/
theorem linksFrom_of_isChain {l : Text} (h : IsChain (l :: ls)) : ∃ body, l = ':' :: body ∧
    linksFrom (some ':') (body ++ ls.flatten) =
      appendHead body (linksFrom body.getLast? ls.flatten) ∧
    (ls.flatten ≠ [] → body.getLast?.any (· != ':') = true) := by
  cases h with
  | bare hname hls =>
      refine ⟨_, rfl, ?_, fun _ => ?_⟩
      · rw [linksFrom_name hname.chars, List.getLast?_eq_some_getLast hname.nonempty, Option.some_or]
      · rw [List.getLast?_eq_some_getLast hname.nonempty, Option.any_some, bne_iff_ne]
        exact (hname.chars _ (List.getLast_mem hname.nonempty)).1
  | @call name group ls hname hopen hend hls =>
      have hlast : (name ++ group).getLast? = group.getLast? := by
        obtain ⟨inner, rfl⟩ := List.head?_eq_some_iff.mp hopen
        rw [List.getLast?_append, List.getLast?_cons, Option.some_or]
      refine ⟨_, rfl, ?_, fun hne => ?_⟩
      · rw [List.append_assoc, linksFrom_name hname.chars, linksFrom_group hopen hend,
          appendHead_append, hlast]
      · obtain ⟨u, hu⟩ := exists_of_afterParentheses hend hne
        rw [List.append_cons] at hu
        rw [hlast, List.append_cancel_right hu, List.getLast?_concat]
        rfl

theorem linksFrom_flatten (h : IsChain ls)
    (hprevious : ls.flatten ≠ [] → previous.any (· != ':') = true) :
    linksFrom previous ls.flatten = [] :: ls := by
  induction ls generalizing previous with
  | nil => rw [List.flatten_nil, linksFrom]
  | cons l ls ih =>
      obtain ⟨body, rfl, hbody, hlast⟩ := linksFrom_of_isChain h
      have hls : IsChain ls := by cases h <;> assumption
      rw [List.flatten_cons, List.cons_append] at hprevious ⊢
      rw [linksFrom, if_neg (by decide), if_pos ⟨rfl, hprevious (List.cons_ne_nil _ _)⟩, hbody,
        ih hls hlast, consHead_eq, appendHead_append, appendHead, List.append_nil]
      rfl

theorem ne_nil_of_isChain (h : IsChain ls) : ∀ l ∈ ls, l ≠ [] := by
  induction h with
  | nil => exact nofun
  | bare _ _ ih => exact List.forall_mem_cons.mpr ⟨List.cons_ne_nil _ _, ih⟩
  | call _ _ _ _ ih => exact List.forall_mem_cons.mpr ⟨List.cons_ne_nil _ _, ih⟩

/-- A chain is cut into the links that it was put together from. -/
theorem links_flatten_of_isChain (h : IsChain ls) : links ls.flatten = ls := by
  have hne := ne_nil_of_isChain h
  have hkept : ls.filter (!·.isEmpty) = ls := by
    refine List.filter_eq_self.mpr fun l hl => ?_
    rw [List.isEmpty_eq_false_iff.mpr (hne l hl)]
    rfl
  unfold links
  cases ls with
  | nil => rw [List.flatten_nil, linksFrom]; rfl
  | cons l ls =>
      obtain ⟨body, rfl, hbody, hlast⟩ := linksFrom_of_isChain h
      have hls : IsChain ls := by cases h <;> assumption
      have hnone : ¬ (':' = ':' ∧ (none : Option Char).any (· != ':') = true) :=
        fun hcut => Bool.false_ne_true hcut.2
      rw [List.flatten_cons, List.cons_append, linksFrom, if_neg (by decide), if_neg hnone, hbody,
        linksFrom_flatten hls hlast, consHead_eq, appendHead_append, appendHead, List.append_nil]
      exact hkept

/-- Of a text that begins with brackets, a part that leaves no closing bracket out has them whole. -/
theorem exists_of_closing {first last : Char} {s ws : Text}
    (h : s ++ ws = first :: (inner ++ last :: t)) (hlast : last ∉ ws) :
    s = [] ∨ ∃ s', s = first :: (inner ++ last :: s') ∧ s' ++ ws = t := by
  cases s with
  | nil => exact Or.inl rfl
  | cons c s =>
      obtain ⟨rfl, hrest⟩ := List.cons.inj h
      rcases List.append_eq_append_iff.mp hrest with ⟨u, -, hu⟩ | ⟨u, rfl, hu⟩
      · exact absurd (hu ▸ List.mem_append_right u List.mem_cons_self) hlast
      · cases u with
        | nil =>
            rw [List.nil_append] at hu
            exact absurd (hu ▸ List.mem_cons_self) hlast
        | cons d u =>
            obtain ⟨rfl, ht⟩ := List.cons.inj hu
            exact Or.inr ⟨u, rfl, ht.symm⟩

theorem stringBody_spaced {quote : Char} (hquote : isQuote quote = true)
    (h : StringBody quote body) : StringBody quote (body.map fun c => if c = '~' then ' ' else c) := by
  induction h with
  | nil => exact .nil
  | escape _ ih => exact .escape ih
  | char hne hescape _ ih =>
      rw [List.map_cons]
      split
      next => exact .char (by rintro rfl; cases hquote) (by decide) ih
      next => exact .char hne hescape ih

namespace Enclosed

theorem chars_append {b : Bracket} {s : Text} (hs : ∀ c ∈ s, b.holds c = true)
    (h : Enclosed b t) : Enclosed b (s ++ t) := by
  induction s with
  | nil => exact h
  | cons c s ih =>
      obtain ⟨hc, hs⟩ := List.forall_mem_cons.mp hs
      exact .char hc (ih hs)

theorem trimStart {b : Bracket} (h : Enclosed b t) : Enclosed b (trimStart t) := by
  induction t with
  | nil => exact h
  | cons c t ih =>
      by_cases hc : isBlank c = true
      · rw [Text.trimStart, List.dropWhile_cons_of_pos hc]
        exact ih (h.of_cons (isOrdinary_of_isBlank hc))
      · rwa [Text.trimStart, List.dropWhile_cons_of_neg hc]

/-- Blanks at the end belong to no string and to no brackets; there must be no escape either that
takes the first of them. -/
theorem of_append_blanks {b : Bracket} {s ws : Text} (h : Enclosed b (s ++ ws))
    (hws : ∀ c ∈ ws, isBlank c = true) (hescape : '\x5c' ∉ s) : Enclosed b s := by
  have hblank : ∀ c, isBlank c = false → c ∉ ws := fun c hc hmem => by
    rw [hws c hmem] at hc
    cases hc
  generalize htext : s ++ ws = t at h
  induction h generalizing s with
  | nil =>
      rw [(List.append_eq_nil_iff.mp htext).1]
      exact .nil
  | char hc _ ih =>
      cases s with
      | nil => exact .nil
      | cons d s =>
          obtain ⟨rfl, hrest⟩ := List.cons.inj htext
          exact .char hc (ih (fun hmem => hescape (List.mem_cons_of_mem d hmem)) hrest)
  | escape =>
      cases s with
      | nil => exact .nil
      | cons d s =>
          obtain ⟨rfl, -⟩ := List.cons.inj htext
          exact absurd List.mem_cons_self hescape
  | string hquote hbody _ ih =>
      rcases exists_of_closing htext (hblank _ (isBlank_of_isQuote hquote)) with rfl | ⟨s, rfl, hrest⟩
      · exact .nil
      · exact .string hquote hbody (ih (fun hmem => hescape (by simp [hmem])) hrest)
  | square hinner _ _ ih =>
      rcases exists_of_closing htext (hblank ']' (by decide)) with rfl | ⟨s, rfl, hrest⟩
      · exact .nil
      · exact .square hinner (ih (fun hmem => hescape (by simp [hmem])) hrest)
  | round hinner _ _ ih =>
      rcases exists_of_closing htext (hblank ')' (by decide)) with rfl | ⟨s, rfl, hrest⟩
      · exact .nil
      · exact .round hinner (ih (fun hmem => hescape (by simp [hmem])) hrest)

theorem trim {b : Bracket} (h : Enclosed b t) (hescape : '\x5c' ∉ t) : Enclosed b (trim t) := by
  obtain ⟨ws, hend, hws⟩ := exists_trimEnd_append (Text.trimStart t)
  have hstart := h.trimStart
  rw [hend] at hstart
  exact of_append_blanks hstart hws fun hmem => hescape (trim_subset t hmem)

/-- Blanks in the place of tildes close and open nothing. -/
theorem spaced {b : Bracket} (h : Enclosed b t) :
    Enclosed b (t.map fun c => if c = '~' then ' ' else c) := by
  have hheld : ∀ (b : Bracket) (c : Char), b.holds c = true →
      b.holds (if c = '~' then ' ' else c) = true := by
    intro b c hc
    split
    next => cases b <;> rfl
    next => exact hc
  induction h with
  | nil => exact .nil
  | char hc _ ih => exact .char (hheld _ _ hc) ih
  | escape _ ih => exact .escape ih
  | @string _ quote body t hquote hbody _ ih =>
      have hsame : (if quote = '~' then ' ' else quote) = quote := if_neg (by rintro rfl; cases hquote)
      rw [List.map_cons, List.map_append, List.map_cons, hsame]
      exact .string hquote (stringBody_spaced hquote hbody) ih
  | square _ _ ihinner ih =>
      rw [List.map_cons, List.map_append, List.map_cons]
      exact .square ihinner ih
  | round _ _ ihinner ih =>
      rw [List.map_cons, List.map_append, List.map_cons]
      exact .round ihinner ih

end Enclosed

/-- An argument without backslashes closes in the pseudo-class what it closes in the class name. -/
theorem enclosed_argument (h : Enclosed .round inner) (hescape : '\x5c' ∉ inner) :
    Enclosed .round (Modifier.argument inner) := by
  refine h.spaced.trim fun hmem => ?_
  obtain ⟨c, hc, heq⟩ := List.mem_map.mp hmem
  split at heq
  next => exact absurd heq (by decide)
  next => exact hescape (heq ▸ hc)

/-! ## The states of a class -/

theorem isPseudoName_of_mem_indexedStates {function : Text}
    (h : function ∈ Modifier.indexedStates) : IsPseudoName function := by
  have htable : ∀ name ∈ Modifier.indexedStates, name ≠ [] ∧
      name.all isIdentifierChar = true ∧ toLowerAscii name ∉ singleColonElements := by
    decide +kernel
  obtain ⟨hne, hchars, helement⟩ := htable function h
  exact ⟨hne, List.all_eq_true.mp hchars, helement⟩

/-- A state is a pseudo-class if its argument closes what it opens. -/
theorem isPseudoClass_of_ofName? {name : Text} {m : Modifier} (h : Modifier.ofName? name = some m)
    (hkind : m.kind = .state)
    (hinner : ∀ function inner, Modifier.call? name = some (function, inner) →
      Enclosed .round inner ∧ '\x5c' ∉ inner) : IsPseudoClass m.css := by
  rw [Modifier.ofName?] at h
  split at h
  next found hfound =>
    obtain rfl := Option.some.inj h
    exact isPseudoClass_of_mem_states
      ((Modifier.mem_of_fixed (List.mem_of_find?_eq_some hfound)).1 hkind)
  next =>
    rw [Modifier.ofCall?] at h
    split at h
    next => cases h
    next function inner hcall =>
      obtain ⟨henclosed, hescape⟩ := hinner function inner hcall
      have hargument := enclosed_argument henclosed hescape
      repeat' split at h
      · cases h
        cases hkind
      · cases h
        cases hkind
      next hfunction =>
        have hcss : m.css =
            ':' :: (function ++ '(' :: (Modifier.argument inner ++ [')'])) := by
          rw [← Option.some.inj h]
          simp
        rw [hcss]
        exact .call (isPseudoName_of_mem_indexedStates hfunction)
          hargument.afterParentheses_closing
      · cases h

/-- The links of a chain are not empty and make up the chain. Pseudo-classes that are written one
behind the other, each with the group that its name opens, are the links of what they make up; and
so the states of a class under modifiers are the links of its chain, where each of their arguments,
as the class name writes it, has no backslash and closes what it opens. -/
theorem links_join :
    (∀ chain, (∀ l ∈ links chain, l ≠ []) ∧ (links chain).flatten = chain) ∧
    (∀ ls, IsChain ls → links ls.flatten = ls) ∧
    ∀ s : ModifierSet,
      (∀ m ∈ s.states, m.kind = .state ∧ Modifier.ofName? m.name = some m ∧
        ∀ function inner, Modifier.call? m.name = some (function, inner) →
          Enclosed .round inner ∧ '\x5c' ∉ inner) →
      links s.placement.states = s.states.map (·.css) := by
  refine ⟨fun chain => ⟨fun l hl => ?_, ?_⟩, fun ls => links_flatten_of_isChain, fun s hs => ?_⟩
  · have hne := (List.mem_filter.mp hl).2
    rintro rfl
    cases hne
  · rw [links, List.flatten_filter_not_isEmpty, flatten_linksFrom]
  · have hchain : IsChain (s.states.map (·.css)) := by
      refine isChain_of_isPseudoClass fun l hl => ?_
      obtain ⟨m, hm, rfl⟩ := List.mem_map.mp hl
      obtain ⟨hkind, hname, hinner⟩ := hs m hm
      exact isPseudoClass_of_ofName? hname hkind hinner
    rw [ModifierSet.placement, List.flatMap_def]
    exact links_flatten_of_isChain hchain

/-- Colons and parentheses in strings, in brackets and in groups inside a group. -/
theorem links_join_nested :
    let ls := [":is([x=\x27:)\x27] > \x22:(\x22)".toList, ":é".toList, ":not(:x(a:b):)".toList]
    let nth : Modifier :=
      ⟨.state, "nth-child(n~of~:is([t=\x27:)\x27]))".toList,
        ":nth-child(n of :is([t=\x27:)\x27]))".toList⟩
    let s : ModifierSet := { states := [⟨.state, "hover".toList, ":hover".toList⟩, nth] }
    IsChain ls ∧ links ls.flatten = ls ∧ Modifier.ofName? nth.name = some nth ∧
      links s.placement.states = [":hover".toList, nth.css] := by
  intro ls nth s
  have hls : IsChain ls := by
    have hname (name : Text) (hne : name ≠ [])
        (hchars : name.all (fun c => c != ':' && c != '(') = true) : IsLinkName name :=
      ⟨hne, fun c hc => by simpa using List.all_eq_true.mp hchars c hc⟩
    exact .call (hname "is".toList (by decide) (by decide)) rfl (by decide +kernel)
      (.bare (hname "é".toList (by decide) (by decide))
        (.call (hname "not".toList (by decide) (by decide)) rfl (by decide +kernel) .nil))
  have hinner : Enclosed .round "n~of~:is([t=\x27:)\x27])".toList := by
    have hstring : StringBody '\x27' [':', ')'] :=
      .char (by decide) (by decide) (.char (by decide) (by decide) .nil)
    have hsquare : Enclosed .square ['t', '=', '\x27', ':', ')', '\x27'] :=
      .char (by decide) (.char (by decide) (.string (by decide) hstring .nil))
    have hround : Enclosed .round ['(', '[', 't', '=', '\x27', ':', ')', '\x27', ']', ')'] :=
      .round (.square hsquare .nil) .nil
    have hchars : "n~of~:is".toList.all (Bracket.holds .round) = true := by decide
    exact .chars_append (List.all_eq_true.mp hchars) hround
  have hname : Modifier.ofName? nth.name = some nth := by decide +kernel
  have hstates : ∀ m ∈ s.states, m.kind = .state ∧ Modifier.ofName? m.name = some m ∧
      ∀ function inner, Modifier.call? m.name = some (function, inner) →
        Enclosed .round inner ∧ '\x5c' ∉ inner := by
    refine List.forall_mem_cons.mpr ⟨⟨rfl, by decide +kernel, fun _ _ hcall => ?_⟩,
      List.forall_mem_singleton.mpr ⟨rfl, hname, fun function inner hcall => ?_⟩⟩
    · have hnone : Modifier.call? "hover".toList = none := by decide +kernel
      rw [hnone] at hcall
      cases hcall
    · have hread : Modifier.call? nth.name =
          some ("nth-child".toList, "n~of~:is([t=\x27:)\x27])".toList) := by decide +kernel
      obtain ⟨-, rfl⟩ := Prod.mk.inj (Option.some.inj (hread.symm.trans hcall))
      exact ⟨hinner, by decide +kernel⟩
  obtain ⟨-, hjoin, hset⟩ := links_join
  exact ⟨hls, hjoin ls hls, hname, hset s hstates⟩

end UtilityCss.Selector
