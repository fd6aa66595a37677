import UtilityCss.Proofs.Selector.Changed
import UtilityCss.Proofs.Selector.Context

/-!
# Changed lists, cut again

A changed list is cut at its commas into the changed members: neither the new name nor what is
inserted moves a comma, or makes one. The last member may leave a string or a bracket open; what is
inserted behind it belongs to what is open.
-/

namespace UtilityCss.Selector

open Text Css Stylesheet

variable {m t behind : Text} {ms : List Text}

/-- Members of which each ends at a comma that is put behind it, and the last one at the end. -/
inductive Listed : List Text → Prop where
  | nil : Listed []
  | last {m : Text} (h : Leads false m []) : Listed [m]
  | cons {m : Text} {ms : List Text} (h : ∀ t, Leads false (m ++ ',' :: t) (',' :: t))
      (hms : Listed ms) : Listed (m :: ms)

/-- A list of members is cut into these again. -/
theorem Listed.members_join (h : Listed ms) (htrim : ∀ m ∈ ms, trim m = m ∧ m ≠ []) :
    members (join [',', '\n'] ms) = ms := by
  induction h with
  | nil =>
      rw [join, members, splitAtCommas]
      rfl
  | @last m h =>
      obtain ⟨hm, hne⟩ := htrim m List.mem_cons_self
      rw [join, members_of_single h.splitAtCommas_eq, hm, if_neg hne]
  | @cons m ms h hms ih =>
      obtain ⟨⟨hm, hne⟩, hrest⟩ := List.forall_mem_cons.mp htrim
      cases ms with
      | nil =>
          have hend := (h []).replace (List.cons_ne_nil _ _) endsEscape_nil
          rw [List.append_nil] at hend
          rw [join, members_of_single hend.splitAtCommas_eq, hm, if_neg hne]
      | cons second ms =>
          have hjoin : join [',', '\n'] (m :: second :: ms) =
              m ++ ',' :: '\n' :: join [',', '\n'] (second :: ms) := by
            simp [join]
          have hnewline : IsBlanks ['\n'] := by simp [IsBlanks, isAsciiBlank]
          have hbehind : members ('\n' :: join [',', '\n'] (second :: ms)) = second :: ms :=
            (members_blanks_append hnewline _).trans (ih hrest)
          rw [hjoin, members_of_comma (h _).splitAtCommas_comma, hbehind, hm, if_neg hne]

/-- The members of a list may be joined again. A member that ends in a backslash has lost the blank
to which the backslash belonged. -/
theorem listed_members {g : Text} (hlast : ∀ m ∈ members g, m.getLast? ≠ some '\x5c') :
    Listed (members g) := by
  have hparts : ∀ part : Text, ∃ front blanks, part = front ++ (trim part ++ blanks) ∧
      (∀ c ∈ front, isBlank c = true) ∧ ∀ c ∈ blanks, isBlank c = true := by
    intro part
    obtain ⟨front, hfront, hfrontBlank⟩ := exists_append_trimStart part
    obtain ⟨blanks, hblanks, hblanksBlank⟩ := exists_trimEnd_append (trimStart part)
    exact ⟨front, blanks, by rw [trim, ← hblanks]; exact hfront, hfrontBlank, hblanksBlank⟩
  induction hlength : g.length using Nat.strongRecOn generalizing g with
  | ind n ih =>
      rcases splitAtCommas_cases g with ⟨hend, hsplit⟩ | ⟨part, rest, hg, hcomma, hsplit⟩
      · rw [members_of_single hsplit] at hlast ⊢
        split
        next => exact .nil
        next hne =>
          rw [if_neg hne] at hlast
          obtain ⟨front, blanks, hg, hfront, -⟩ := hparts g
          rw [hg] at hend
          have htrimmed := hend.drop_front hfront (Nat.zero_le _)
          exact .last (htrimmed.front (hlast _ List.mem_cons_self))
      · rw [members_of_comma hsplit] at hlast ⊢
        have hshort : rest.length < n := by
          rw [← hlength, hg, List.length_append, List.length_cons]
          omega
        split
        next hnil =>
          rw [if_pos hnil] at hlast
          exact ih _ hshort hlast rfl
        next hne =>
          rw [if_neg hne] at hlast
          obtain ⟨hpart, hrest⟩ := List.forall_mem_cons.mp hlast
          refine .cons (fun t => ?_) (ih _ hshort hrest rfl)
          obtain ⟨front, blanks, hsplitPart, hfront, hblanks⟩ := hparts part
          rw [hg, hsplitPart, List.append_assoc, List.append_assoc] at hcomma
          have htrimmed := hcomma.drop_front hfront (by simp only [List.length_append]; omega)
          exact htrimmed.drop_blanks hblanks hpart fun c hc => by cases hc; decide

structure Change.Inserts (change : Change) : Prop where
  name : ∀ t, Leads false (change.newName ++ t) t
  endsSolid : change.newName = [] ∨ EndsSolid change.newName
  states : IsAddition change.states
  element : IsAddition change.pseudoElement

theorem IsAddition.endsEscape {w : Text} (h : IsAddition w) (hne : w ≠ []) (t : Text) :
    EndsEscape (w ++ t) := by
  obtain ⟨c, rest, rfl⟩ := List.exists_cons_of_ne_nil hne
  intro d hd
  cases hd
  rw [h.begins c rfl]
  decide

/-- What is inserted behind a stretch is passed with it, or taken up by what is open. -/
theorem Leads.insert {w : Text} (h : Leads false (behind ++ t) t) (hw : IsAddition w)
    (hlast : t = [] → behind.getLast? ≠ some '\x5c') : Leads false (behind ++ (w ++ t)) t := by
  by_cases hne : w = []
  · rw [hne]
    exact h
  · by_cases ht : t = []
    · subst ht
      rw [List.append_nil] at h ⊢
      have hends := hw.endsEscape hne []
      have hleads := hw.nested.leads []
      rw [List.append_nil] at hends hleads
      have hidle : IsIdle w := ⟨hw.nested.mono nofun, fun hin => (hw.chars _ hin).2 rfl⟩
      exact h.append_idle (hlast rfl) hidle hends hleads
    · exact (h.replace ht (hw.endsEscape hne t)).trans (hw.nested.leads t)

/-- A member that ends where a text begins does so after a change. -/
theorem leads_modify {change : Change} (hchange : change.Inserts)
    (h : Leads false (m ++ t) t) (ht : EndsEscape t) (hlast : t = [] → m.getLast? ≠ some '\x5c') :
    Leads false ((modify change m).selector ++ t) t := by
  cases htoken : findClassToken (escape change.className) m with
  | none =>
      rw [modify_of_not_found htoken]
      exact h
  | some token =>
      obtain ⟨front, behind, element, hfront, htext, hmodify, helement, -⟩ := modify_parts htoken
      have hadded :
          IsAddition (splitStates (upTo token (afterCompound token)) change.states).2.flatten :=
        .flatten fun l hl => hchange.states.of_mem_links l (mem_added hl)
      have helementAdded : IsAddition element := by
        rcases helement with rfl | rfl
        · exact .nil
        · exact hchange.element
      have hcompound : Leads true token (afterCompound token) := leads_afterCompound token
      generalize (splitStates _ change.states).2.flatten = added at hmodify hadded
      generalize afterCompound token = rest at htext hmodify hcompound
      -- The units of the member are those of the whole text, so they meet at the token and at the
      -- end of its compound.
      have htokenPlace := (leads_findClassToken htoken).1.within h ht
      obtain ⟨hfrontLeads, htokenLeads⟩ := htokenPlace.between h (by simp)
      have hrestPlace := hcompound.within htokenLeads ht
      obtain ⟨hcompoundLeads, hrestLeads⟩ := hrestPlace.between htokenLeads (by simp)
      have hname : Leads false (token ++ t) (behind ++ (rest ++ t)) := by
        have hdot : Leads false ('.' :: (escape change.className ++ (behind ++ (rest ++ t))))
            (behind ++ (rest ++ t)) := (Leads.of_char (by decide) rfl).trans (leads_escape _ _)
        rw [htext]
        simpa using hdot
      obtain ⟨-, hbehind⟩ := hname.between hcompoundLeads (by simp)
      have hbehindLast : rest ++ t = [] → behind.getLast? ≠ some '\x5c' := by
        intro hnil
        obtain ⟨rfl, rfl⟩ := List.append_eq_nil_iff.mp hnil
        refine getLast?_ne_of_suffix ⟨front ++ '.' :: escape change.className, ?_⟩ (hlast rfl)
        simp [hfront, htext]
      have hinserted := hbehind.insert (hadded.append helementAdded) hbehindLast
      -- The new token, what follows it in the compound, what is inserted, and all that follows.
      have hdot : EndsEscape
          ('.' :: (change.newName ++ (behind ++ (added ++ element ++ (rest ++ t))))) := fun c hc => by
        cases hc
        decide
      rw [hfront, List.append_assoc] at hfrontLeads
      have hfrontAgain := hfrontLeads.replace (by simp [htext]) hdot
      have hnewName := hfrontAgain.trans ((Leads.of_char (by decide) rfl).trans (hchange.name _))
      rw [hmodify]
      simpa using hnewName.trans (hinserted.trans hrestLeads)

theorem trimmed_modify {change : Change} (hchange : change.Inserts) (hm : trim m = m)
    (hne : m ≠ []) : trim (modify change m).selector = (modify change m).selector ∧
      (modify change m).selector ≠ [] := by
  have hbegins := beginsSolid_modify (beginsSolid_of_trim hm hne) change
  have hends := endsSolid_modify hchange.endsSolid
    (fun l hl => (hchange.states.of_mem_links l hl).isSuffix) hchange.element.isSuffix
    (endsSolid_of_trim hm hne)
  refine ⟨trim_of_solid hbegins hends, ?_⟩
  obtain ⟨c, rest, heq, -⟩ := hbegins
  rw [heq]
  exact List.cons_ne_nil c rest

/-! ## Lists -/

theorem trimmed_of_mem_members {g : Text} (h : m ∈ members g) : trim m = m ∧ m ≠ [] := by
  obtain ⟨hparts, hne⟩ := List.mem_filter.mp h
  obtain ⟨part, -, rfl⟩ := List.mem_map.mp hparts
  exact ⟨trim_trim part, by simpa using hne⟩

theorem Listed.modify {change : Change} (hchange : change.Inserts) (h : Listed ms)
    (hlast : ∀ m ∈ ms, m.getLast? ≠ some '\x5c') :
    Listed (ms.map fun m => (Selector.modify change m).selector) := by
  induction h with
  | nil => exact .nil
  | @last m h =>
      have hleads := leads_modify hchange (t := []) (by rwa [List.append_nil]) endsEscape_nil
        fun _ => hlast m List.mem_cons_self
      rw [List.append_nil] at hleads
      exact .last hleads
  | @cons m ms h hms ih =>
      refine .cons (fun t => ?_) (ih fun x hx => hlast x (List.mem_cons_of_mem m hx))
      exact leads_modify hchange (h t) (fun c hc => by cases hc; decide) nofun

theorem inserts_of_table (className : Text) {newName : Text}
    (hname : trimEnd (escape newName) = escape newName) {states : List Modifier}
    (hstates : ∀ m ∈ states, m ∈ Modifier.states) {element : Option Modifier}
    (helement : ∀ m ∈ element, m ∈ Modifier.pseudoElements) :
    Change.Inserts ⟨className, escape newName, states.flatMap (·.css),
      (element.map (·.css)).getD []⟩ := by
  have hsolid := trimEnd_eq_nil_or (escape newName)
  rw [hname] at hsolid
  exact ⟨leads_escape newName, hsolid, isAddition_states hstates, isAddition_of_element helement⟩

/-- To cut a changed list at its commas gives the members of the list, each changed, whatever they
are and in their order. -/
theorem members_modifyList (className : Text) {newName : Text}
    (hname : trimEnd (escape newName) = escape newName) {states : List Modifier}
    (hstates : ∀ m ∈ states, m ∈ Modifier.states) {element : Option Modifier}
    (helement : ∀ m ∈ element, m ∈ Modifier.pseudoElements) {g : Text}
    (hlast : ∀ m ∈ members g, m.getLast? ≠ some '\x5c') :
    let change : Change :=
      ⟨className, escape newName, states.flatMap (·.css), (element.map (·.css)).getD []⟩
    members (modifyList change g).selector =
        (members g).map (fun m => (modify change m).selector) ∧
      ((modifyList change g).found = true ↔ ∃ m ∈ members g, (modify change m).found = true) ∧
      (modifyList change g).skipped = (members g).flatMap fun m => (modify change m).skipped := by
  intro change
  have hchange : change.Inserts := inserts_of_table className hname hstates helement
  refine ⟨?_, ?_, ?_⟩
  · have hlisted := (listed_members hlast).modify hchange hlast
    rw [modifyList, List.map_map]
    refine hlisted.members_join fun m hm => ?_
    obtain ⟨member, hmember, rfl⟩ := List.mem_map.mp hm
    obtain ⟨htrim, hne⟩ := trimmed_of_mem_members hmember
    exact trimmed_modify hchange htrim hne
  · simp [modifyList]
  · rw [modifyList, List.flatMap_map]

/-- Commas in arguments, in a string, behind a backslash and in the new name, an empty member, and a
last one whose string stays open. -/
theorem members_modifyList_openString :
    let hover : Modifier := ⟨.state, "hover".toList, ":hover".toList⟩
    let after : Modifier := ⟨.pseudoElement, "after".toList, "::after".toList⟩
    let newName : Text := ['0', ',']
    let change : Change :=
      ⟨['a'], escape newName, [hover].flatMap (·.css), ((some after).map (·.css)).getD []⟩
    let g := "p:is(q,.a) , [x=\x22,\x22].a\x5c, ,, .a:hover>i, .a[x=\x27, y".toList
    trimEnd (escape newName) = escape newName ∧ (∀ m ∈ [hover], m ∈ Modifier.states) ∧
      (∀ m ∈ some after, m ∈ Modifier.pseudoElements) ∧
      (∀ m ∈ members g, m.getLast? ≠ some '\x5c') ∧
      members (modifyList change g).selector =
        ["p:is(q,.a)".toList, "[x=\x22,\x22].a\x5c,".toList,
          ".\x5c30 \x5c,:hover::after>i".toList,
          ".\x5c30 \x5c,[x=\x27, y:hover::after".toList] ∧
      (modifyList change g).found = true ∧
      (modifyList change g).skipped = [⟨.stateConflict, ".a:hover>i".toList, ":hover".toList⟩] := by
  intro hover after newName change g
  have hname : trimEnd (escape newName) = escape newName := by decide
  have hstates : ∀ m ∈ [hover], m ∈ Modifier.states := by decide +kernel
  have helement : ∀ m ∈ some after, m ∈ Modifier.pseudoElements := by decide +kernel
  have hlast : ∀ m ∈ members g, m.getLast? ≠ some '\x5c' := by decide +kernel
  obtain ⟨hmembers, hfound, hskipped⟩ :=
    members_modifyList ['a'] hname hstates helement hlast
  refine ⟨hname, hstates, helement, hlast, ?_, hfound.mpr ?_, ?_⟩
  · rw [hmembers]
    decide +kernel
  · decide +kernel
  · rw [hskipped]
    decide +kernel

end UtilityCss.Selector
