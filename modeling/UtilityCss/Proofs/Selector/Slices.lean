import UtilityCss.Proofs.Selector.Position
import UtilityCss.Proofs.Selector.Suffix

/-!
# The change of a selector in slices of it

Every slice that the change of a selector asks for begins and ends between characters, in order, so
that the slices put together are the change of the text. What the change puts in stands at places
that can be told beforehand, and without it the selector is left without the name of the class.
-/

namespace UtilityCss.Selector

open Text Css
open Ruleset (byteAt? slice? slice?_eq_some_iff size_of_not_isWide)

variable {source t : Text} {c : Char}

/-- In front of a place stands the last byte of the character in front of it. -/
theorem exists_byteAt?_front (h : c :: t <:+ source) :
    ∃ b, byteAt? source (place source t - 1) = some b ∧ (b = c ∨ IsWide b ∧ IsWide c) := by
  have hpos := c.utf8Size_pos
  have htail := place_tail h
  have hlast : place source t - 1 = place source (c :: t) + (c.utf8Size - 1) := by omega
  rw [hlast]
  by_cases hc : IsWide c
  · obtain ⟨b, hbyte, hb⟩ := (holds_place h).exists_wide (n := c.utf8Size - 1) hc (by omega)
    exact ⟨b, hbyte, Or.inr ⟨hb, hc⟩⟩
  · refine ⟨c, ?_, Or.inl rfl⟩
    rw [size_of_not_isWide hc]
    exact byteAt?_place h hc

theorem beginsLink?_eq (done : Text) (h : done ++ t <:+ source) :
    beginsLink? source (place source (done ++ t)) (place source t) =
      some (done.getLast?.any (· != ':')) := by
  have hplace := place_append h
  rcases List.eq_nil_or_concat done with rfl | ⟨front, c, rfl⟩
  · exact if_neg (Nat.lt_irrefl _)
  · rw [List.concat_eq_append] at h hplace ⊢
    have hpos := c.utf8Size_pos
    rw [size_append, size_cons] at hplace
    rw [List.append_assoc, List.singleton_append] at h
    obtain ⟨b, hbyte, hb⟩ := exists_byteAt?_front ((List.suffix_append front (c :: t)).trans h)
    rw [beginsLink?, if_pos (by omega), hbyte, Option.map_some, List.getLast?_concat,
      Option.any_some]
    rcases hb with rfl | ⟨hb, hc⟩
    · by_cases hcolon : b = ':' <;> simp [hcolon]
    · have hne : b ≠ ':' := hb.ne (by decide)
      have hne' : c ≠ ':' := hc.ne (by decide)
      simp [hne, hne']

theorem filter_appendHead_nil (parts : List Text) :
    (appendHead [] parts).filter (!·.isEmpty) = parts.filter (!·.isEmpty) := by
  cases parts <;> rfl

theorem linkMove?_wide {s : LinkScan} {i : Nat} {b : Char} (hb : IsWide b) :
    linkMove? source s i b = some (.go s (i + 1)) := by
  rw [linkMove?, if_neg (hb.ne (by decide)), if_neg (hb.ne (by decide))]

/-- At a colon, the text that has been read becomes a link if it ends in another character. -/
theorem linkMove?_colon (parts : List Text) (done : Text) (h : done ++ ':' :: t <:+ source) :
    linkMove? source ⟨place source (done ++ ':' :: t), parts⟩ (place source (':' :: t)) ':' =
      if done.getLast?.any (· != ':') then
        some (.go ⟨place source (':' :: t), parts ++ [done]⟩ (place source t))
      else some (.go ⟨place source (done ++ ':' :: t), parts⟩ (place source t)) := by
  have hdone := slice?_place h (List.suffix_append done (':' :: t))
  have htail := (List.suffix_append done (':' :: t)).trans h
  rw [upTo_self_append] at hdone
  rw [linkMove?, if_neg (by decide), if_pos rfl, beginsLink?_eq done h,
    ← place_tail_ascii htail (by decide), hdone]
  rfl

/-- At the end of the chain, the text that has been read is the last link, unless it is empty. -/
theorem links?_end {parts : List Text} (done : Text) (h : done <:+ source) :
    LinkScan.links? source ⟨place source done, parts⟩ =
      some (parts ++ [done].filter (!·.isEmpty)) := by
  cases done with
  | nil =>
      rw [LinkScan.links?, place_nil, if_neg (Nat.lt_irrefl _)]
      exact congrArg some (List.append_nil parts).symm
  | cons c done =>
      rw [LinkScan.links?, if_pos (holds_place h).lt, (holds_place h).slice?_eq]
      rfl

/-- The walk over a chain, with the text of the link that is being read. -/
theorem linkWalk_eq {previous : Option Char} (parts : List Text) (done : Text)
    (h : done ++ t <:+ source) (hprevious : done.getLast? = previous) :
    (walk? source (linkMove? source) (fun s _ => s) ⟨place source (done ++ t), parts⟩
        (place source t)).bind (·.links? source) =
      some (parts ++ (appendHead done (linksFrom previous t)).filter (!·.isEmpty)) := by
  fun_induction linksFrom previous t generalizing done parts with
  | case1 previous =>
      rw [List.append_nil] at h ⊢
      rw [walk?_nil, Option.bind_some, links?_end done h, appendHead, List.append_nil]
  | @case2 previous rest left group ih =>
      have hplace := (List.suffix_append done ('(' :: rest)).trans h
      have hleft : left <:+ rest := afterParentheses_suffix 1 rest
      have hgroup : group ++ left = '(' :: rest :=
        upTo_append (hleft.trans (List.suffix_cons _ rest))
      have hne : group ≠ [] := by
        intro hnil
        have hlength := congrArg List.length hgroup
        have hle := hleft.length_le
        rw [hnil, List.nil_append, List.length_cons] at hlength
        omega
      have hmove : ∀ s, linkMove? source s (place source ('(' :: rest)) '(' =
          some (.go s (place source left)) := by
        intro s
        rw [linkMove?, if_pos rfl, parenthesesEnd?_eq hplace, Option.map_some]
      rw [walk?_go hplace (by decide) hleft (hmove _) fun _ => rfl, appendHead_append]
      rw [← hgroup, ← List.append_assoc] at h ⊢
      refine ih parts (done ++ group) h ?_
      rw [List.getLast?_append, List.getLast?_eq_some_getLast hne]
      rfl
  | @case3 previous c rest hround hcolon ih =>
      obtain ⟨rfl, hprev⟩ := hcolon
      have hplace := (List.suffix_append done (':' :: rest)).trans h
      have hdone : (!done.isEmpty) = true := by
        cases done with
        | nil =>
            rw [← hprevious] at hprev
            cases hprev
        | cons => rfl
      have hmove := linkMove?_colon parts done h
      rw [hprevious, if_pos hprev] at hmove
      rw [walk?_go hplace (by decide) (List.suffix_refl rest) hmove fun _ => rfl]
      have hrest := ih (parts ++ [done]) [':'] hplace rfl
      rw [List.singleton_append] at hrest
      rw [hrest, consHead_eq, appendHead, List.append_nil, List.filter_cons, if_pos hdone,
        List.append_assoc, List.singleton_append]
  | @case4 previous c rest hround hcolon ih =>
      have hplace := (List.suffix_append done (c :: rest)).trans h
      have hmove : linkMove? source ⟨place source (done ++ c :: rest), parts⟩
          (place source (c :: rest)) c =
            some (.go ⟨place source (done ++ c :: rest), parts⟩ (place source (c :: rest) + 1)) := by
        by_cases hc : c = ':'
        · rw [hc] at h hplace ⊢
          rw [linkMove?_colon parts done h, hprevious, if_neg fun hprev => hcolon ⟨hc, hprev⟩,
            place_tail_ascii hplace (by decide)]
        · rw [linkMove?, if_neg hround, if_neg hc]
      rw [walk?_char hplace (fun i b hb => linkMove?_wide hb) hmove fun _ => rfl, consHead_eq,
        appendHead_append]
      rw [← List.singleton_append, ← List.append_assoc] at h ⊢
      exact ih parts (done ++ [c]) h List.getLast?_concat

/-- The slices of a chain are its links. -/
theorem slicedLinks?_eq (chain : Text) : slicedLinks? chain = some (links chain) := by
  have hwalk := linkWalk_eq [] [] (List.suffix_refl chain) rfl
  rw [List.nil_append, place_self, filter_appendHead_nil] at hwalk
  exact hwalk

theorem tokenStart?_of_found {escaped selector token : Text}
    (h : findClassToken escaped selector = some token) :
    tokenStart? escaped selector = some (some (place selector token)) := by
  rw [tokenStart?_eq, classTokenStart?, h]
  rfl

/-- The end of the name of a token. -/
theorem place_behindName {name behind : Text} (h : '.' :: (name ++ behind) <:+ source) :
    place source ('.' :: (name ++ behind)) + 1 + size name = place source behind := by
  rw [← place_tail_ascii h (by decide), ← place_append ((List.suffix_cons _ _).trans h)]

/-- The change by slices asks for no slice that is not there, and is the change of the text. -/
theorem modifySlices?_eq (change : Change) (selector : Text) :
    modifySlices? change selector = some (modify change selector) := by
  unfold modifySlices? modify
  cases htoken : findClassToken (escape change.className) selector with
  | none =>
      rw [tokenStart?_eq, classTokenStart?, htoken]
      rfl
  | some token =>
      obtain ⟨front, behind, hselector, hparts, hcompound⟩ := exists_token_parts htoken
      have hsuffix : token <:+ selector := ⟨front, hselector.symm⟩
      have hrest : afterCompound token <:+ token := afterCompound_suffix token
      have hfront := slice?_place (List.suffix_refl selector) hsuffix
      rw [place_self] at hfront
      have hbehind : slice? selector (place selector token + 1 + size (escape change.className))
          (place selector (afterCompound token)) = some behind := by
        have hname := hparts ▸ hsuffix
        have hslice := slice?_place ((List.suffix_append (escape change.className) _).trans
          ((List.suffix_cons '.' _).trans hname)) (List.suffix_append behind _)
        rwa [upTo_self_append, ← place_behindName hname, ← hparts] at hslice
      simp only [tokenStart?_of_found htoken, Option.bind_eq_bind, Option.bind_some,
        compoundEnd?_eq hsuffix, slice?_place hsuffix hrest, slicedLinks?_eq,
        (holds_place hsuffix).slice?_eq, (holds_place (hrest.trans hsuffix)).slice?_eq, hfront,
        hbehind, drop_compound hcompound]
      split <;> rfl

/-! ## What the change puts in -/

section Stretches

variable {s u : Text} {start stop : Nat}

theorem slice?_of_eq (h : source = s ++ (t ++ u)) (hstart : start = size s)
    (hstop : stop = start + size t) : slice? source start stop = some t :=
  slice?_eq_some_iff.mpr ⟨s, u, h, hstart, hstop⟩

theorem cutOut_eq (h : source = s ++ (t ++ u)) (hstart : start = size s)
    (hstop : stop = start + size t) : replaceRange start stop [] source = s ++ u := by
  rw [h, hstop, hstart, ← List.append_assoc, replaceRange_append, List.append_nil]

theorem isBoundary_of_slice? (h : slice? source start stop = some t) :
    IsBoundary start source ∧ IsBoundary stop source := by
  obtain ⟨front, behind, rfl, rfl, rfl⟩ := slice?_eq_some_iff.mp h
  refine ⟨isBoundary_size front _, ?_⟩
  rw [← size_append, ← List.append_assoc]
  exact isBoundary_size (front ++ t) behind

end Stretches

/-- Two stretches of a changed text, the first in another's place, and the text without them. -/
theorem cut_insertions {before name newName behind inserted rest text changed : Text}
    {nameStart stop : Nat} (htext : text = before ++ (name ++ (behind ++ rest)))
    (hchanged : changed = before ++ (newName ++ (behind ++ (inserted ++ rest))))
    (hstart : nameStart = size before) (hstop : stop = nameStart + size name + size behind) :
    let nameEnd := nameStart + size name
    let newNameEnd := nameStart + size newName
    let insertStart := newNameEnd + (stop - nameEnd)
    let insertEnd := insertStart + size inserted
    slice? text nameStart nameEnd = some name ∧
      slice? changed nameStart newNameEnd = some newName ∧
      slice? changed insertStart insertEnd = some inserted ∧
      replaceRange nameStart newNameEnd [] (replaceRange insertStart insertEnd [] changed) =
        replaceRange nameStart nameEnd [] text := by
  intro nameEnd newNameEnd insertStart insertEnd
  have hinserted : changed = (before ++ newName ++ behind) ++ (inserted ++ rest) := by
    rw [hchanged]
    simp only [List.append_assoc]
  have hinsertStart : insertStart = size (before ++ newName ++ behind) := by
    rw [size_append, size_append, ← hstart]
    omega
  refine ⟨slice?_of_eq htext hstart rfl, slice?_of_eq hchanged hstart rfl,
    slice?_of_eq hinserted hinsertStart rfl, ?_⟩
  rw [cutOut_eq hinserted hinsertStart rfl, cutOut_eq htext hstart rfl, List.append_assoc,
    List.append_assoc, cutOut_eq rfl hstart rfl]

/-- The change of a selector asks for no slice that begins or ends inside a character, or behind its
end. In the selector, the name of the class ends where its compound does or in front of that, and
both ends lie between characters; in the changed selector, the new name and what is added to the
compound stand at their places, and without them it is the selector without the name. -/
theorem modify_slices (change : Change) (selector : Text) :
    modifySlices? change selector = some (modify change selector) ∧
    ∀ start, tokenStart? (escape change.className) selector = some (some start) →
      ∃ stop token rest,
        compoundEnd? selector start = some stop ∧
        slice? selector start (size selector) = some token ∧
        slice? selector stop (size selector) = some rest ∧
        let nameStart := start + 1
        let nameEnd := nameStart + size (escape change.className)
        let changed := (modify change selector).selector
        let newNameEnd := nameStart + size change.newName
        let inserted := change.inserted token rest
        let insertStart := newNameEnd + (stop - nameEnd)
        let insertEnd := insertStart + size inserted
        nameEnd ≤ stop ∧ stop ≤ size selector ∧
        IsBoundary start selector ∧ IsBoundary nameEnd selector ∧ IsBoundary stop selector ∧
        slice? selector nameStart nameEnd = some (escape change.className) ∧
        slice? changed nameStart newNameEnd = some change.newName ∧
        slice? changed insertStart insertEnd = some inserted ∧
        replaceRange nameStart newNameEnd [] (replaceRange insertStart insertEnd [] changed) =
          replaceRange nameStart nameEnd [] selector := by
  refine ⟨modifySlices?_eq change selector, fun start hstart => ?_⟩
  cases htoken : findClassToken (escape change.className) selector with
  | none =>
      rw [tokenStart?_eq, classTokenStart?, htoken] at hstart
      cases hstart
  | some token =>
      rw [tokenStart?_of_found htoken, Option.some.injEq, Option.some.injEq] at hstart
      obtain ⟨front, behind, hselector, hparts, hcompound⟩ := exists_token_parts htoken
      have hchanged := selector_modify htoken hselector hcompound
      have hsuffix : token <:+ selector := ⟨front, hselector.symm⟩
      have hrest : afterCompound token <:+ token := afterCompound_suffix token
      have hstop := compoundEnd?_eq hsuffix
      have htokenSlice := (holds_place hsuffix).slice?_eq
      have hrestSlice := (holds_place (hrest.trans hsuffix)).slice?_eq
      rw [hstart] at hstop htokenSlice
      refine ⟨_, token, afterCompound token, hstop, htokenSlice, hrestSlice, ?_⟩
      generalize afterCompound token = rest at *
      intro nameStart nameEnd changed newNameEnd inserted insertStart insertEnd
      have hname := hparts ▸ hsuffix
      have hplace : place selector rest = nameEnd + size behind := by
        rw [place_append ((List.suffix_append _ _).trans ((List.suffix_cons _ _).trans hname)),
          ← place_behindName hname, ← hparts, hstart]
      have hfront : start = size front := by
        rw [← hstart, place, hselector, size_append, Nat.add_sub_cancel]
      have hsize : nameStart = size (front ++ ['.']) := by
        rw [size_append, ← hfront]
        rfl
      rw [hparts, List.append_cons] at hselector
      rw [List.append_cons] at hchanged
      obtain ⟨hslice, hslices⟩ := cut_insertions hselector hchanged hsize hplace
      have hle := place_le_size selector rest
      exact ⟨by omega, hle, (isBoundary_of_slice? htokenSlice).1, (isBoundary_of_slice? hslice).2,
        (isBoundary_of_slice? hrestSlice).1, hslice, hslices⟩

/-- The compound takes the whole of a string that is not closed, with an escape of which the string
passes half a character, and a backslash at the end of the selector. -/
theorem modify_slices_open_string :
    let change : Change :=
      ⟨"a:é".toList, "b".toList, ":hover:not([x=\x27:\x27])".toList, "::before".toList⟩
    let selector := "(é\x22 .a\x22)é .a\x5c:\x5cé:hover[t=\x22\x5cé\x27é\x5c".toList
    let changed :=
      "(é\x22 .a\x22)é .b:hover[t=\x22\x5cé\x27é\x5c:not([x=\x27:\x27])::before".toList
    tokenStart? (escape change.className) selector = some (some 12) ∧
      modifySlices? change selector =
        some ⟨changed, true, [⟨.stateConflict, selector, ":hover".toList⟩]⟩ ∧
      IsBoundary 19 selector ∧ compoundEnd? selector 12 = some 36 ∧ IsBoundary 36 selector ∧
      slice? changed 31 52 = some ":not([x=\x27:\x27])::before".toList ∧
      replaceRange 13 14 [] (replaceRange 31 52 [] changed) = replaceRange 13 19 [] selector := by
  intro change selector changed
  have hstart : tokenStart? (escape change.className) selector = some (some 12) := by
    decide +kernel
  have hmodify : modify change selector =
      ⟨changed, true, [⟨.stateConflict, selector, ":hover".toList⟩]⟩ := by decide +kernel
  have hend : compoundEnd? selector 12 = some 36 := by decide +kernel
  have htext : slice? selector 12 (size selector) = some (dropBytes 12 selector) := by
    decide +kernel
  have hnil : slice? selector 36 (size selector) = some [] := by decide +kernel
  have hinserted : change.inserted (dropBytes 12 selector) [] =
      ":not([x=\x27:\x27])::before".toList := by decide +kernel
  have hsizes : size (escape change.className) = 6 ∧ size change.newName = 1 ∧
      size (":not([x=\x27:\x27])::before".toList) = 21 := by decide +kernel
  obtain ⟨hslices, hall⟩ := modify_slices change selector
  obtain ⟨stop, token, rest, hstop, htoken, hrest, hfacts⟩ := hall 12 hstart
  obtain rfl : 36 = stop := Option.some.inj (hend.symm.trans hstop)
  obtain rfl := Option.some.inj (htext.symm.trans htoken)
  obtain rfl := Option.some.inj (hnil.symm.trans hrest)
  simp only [hinserted, hsizes, hmodify] at hfacts
  obtain ⟨-, -, -, hname, hcompound, -, -, hadded, hcut⟩ := hfacts
  exact ⟨hstart, hslices.trans (congrArg some hmodify), hname, hend, hcompound, hadded, hcut⟩

end UtilityCss.Selector
