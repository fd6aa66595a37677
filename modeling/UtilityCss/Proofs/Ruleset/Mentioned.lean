import UtilityCss.Proofs.Selector.Changed
import UtilityCss.Proofs.Selector.Context
import UtilityCss.Ruleset.Check
import UtilityCss.Ruleset.Modify

/-!
# Rules that mention a class

The check of a ruleset searches whole selector lists for the token of the class, the change of a
ruleset searches their members, cut at commas and trimmed. Both find the token or none does: it
stands between two units of one part, and to trim the part takes nothing away from it, as long as
the escaped name does not end in a blank. So a rule for which the ruleset was accepted is changed
and not removed.
-/

namespace UtilityCss.Ruleset

open Text Css Selector

variable {name front behind t : Text}

theorem trimEnd_token (hname : trimEnd (escape name) = escape name) (front behind : Text) :
    trimEnd (front ++ '.' :: (escape name ++ behind)) =
      front ++ '.' :: (escape name ++ trimEnd behind) := by
  have hdot : ∀ t, trimEnd (front ++ '.' :: t) = front ++ '.' :: trimEnd t :=
    fun t => trimEnd_append_cons front (by decide) t
  rcases trimEnd_eq_nil_or (escape name) with hnil | hsolid
  · rw [hname] at hnil
    rw [hnil, List.nil_append, hdot, List.nil_append]
  · rw [hname] at hsolid
    obtain ⟨lead, c, heq, hc⟩ := hsolid
    rw [hdot, heq, List.append_assoc, List.singleton_append, trimEnd_append_cons lead hc,
      List.append_assoc, List.singleton_append]

theorem continuesName_trimEnd (h : continuesName (behind ++ t) = false) :
    continuesName (trimEnd behind) = false := by
  obtain ⟨blanks, hbehind, -⟩ := exists_trimEnd_append behind
  cases hend : trimEnd behind with
  | nil => rfl
  | cons c rest =>
      rw [hbehind, hend] at h
      exact h

/-- A token in a part is one in the trimmed part. -/
theorem hasClassToken_trim (hname : trimEnd (escape name) = escape name)
    (hleads : Leads true (front ++ '.' :: (escape name ++ (behind ++ t)))
      ('.' :: (escape name ++ (behind ++ t))))
    (hends : continuesName (behind ++ t) = false) :
    hasClassToken (escape name) (trim (front ++ '.' :: (escape name ++ behind))) = true := by
  obtain ⟨blanks, hfront, hblanks⟩ := exists_append_trimStart front
  have hsolid : BeginsSolid ('.' :: (escape name ++ behind)) := ⟨'.', _, rfl, by decide⟩
  rw [trim, trimStart_append_solid front hsolid, trimEnd_token hname]
  rw [hfront, List.append_assoc] at hleads
  have hdot : EndsEscape ('.' :: (escape name ++ trimEnd behind)) := fun c hc => by
    cases hc
    decide
  have htrimmed := (hleads.drop_front hblanks (by simp)).replace (List.cons_ne_nil _ _) hdot
  refine hasClassToken_iff_leads.mpr ⟨_, htrimmed, ?_⟩
  exact startsWithName_iff.mpr ⟨_, rfl, continuesName_trimEnd hends⟩

/-- A token that begins in front of a comma ends there too. -/
theorem exists_of_comma {rest : Text}
    (h : Leads false ('.' :: (escape name ++ behind)) (',' :: rest)) :
    ∃ inner, behind = inner ++ ',' :: rest := by
  have htoken : Leads false ('.' :: (escape name ++ behind)) behind :=
    (Leads.of_char (by decide) rfl).trans (leads_escape name behind)
  rcases h.linear htoken with ⟨-, hcomma⟩ | ⟨-, hbehind⟩
  · -- Units that are no commas do not lead over one.
    cases hcomma with
    | refl => exact ⟨[], rfl⟩
    | unit hc => exact absurd (hc rfl) Bool.false_ne_true
  · obtain ⟨inner, hinner⟩ := hbehind.suffix
    exact ⟨inner, hinner.symm⟩

theorem exists_member_of_hasClassToken (hname : trimEnd (escape name) = escape name) {g : Text}
    (h : hasClassToken (escape name) g = true) :
    ∃ m ∈ members g, hasClassToken (escape name) m = true := by
  have hne : ∀ m, hasClassToken (escape name) m = true → m ≠ [] := by
    rintro m hm rfl
    rw [hasClassToken, findClassToken] at hm
    cases hm
  obtain ⟨token, hleads, hstarts⟩ := hasClassToken_iff_leads.mp h
  clear h
  induction hlength : g.length using Nat.strongRecOn generalizing g with
  | ind n ih =>
      rcases splitAtCommas_cases g with ⟨-, hsplit⟩ | ⟨part, rest, hg, hcomma, hsplit⟩
      · obtain ⟨behind, rfl, hends⟩ := startsWithName_iff.mp hstarts
        obtain ⟨front, rfl⟩ := hleads.suffix
        have hfound := hasClassToken_trim (t := []) hname (by simpa using hleads)
          (by rwa [List.append_nil])
        rw [members_of_single hsplit, if_neg (hne _ hfound)]
        exact ⟨_, List.mem_singleton_self _, hfound⟩
      · rw [members_of_comma hsplit]
        rcases hleads.linear hcomma with ⟨htoken, hbehind⟩ | ⟨-, hrest⟩
        · obtain ⟨behind, rfl, hends⟩ := startsWithName_iff.mp hstarts
          obtain ⟨inner, rfl⟩ := exists_of_comma hbehind
          obtain ⟨front, rfl⟩ := hleads.suffix
          have hpart : part = front ++ '.' :: (escape name ++ inner) := by
            have hsame : part ++ ',' :: rest =
                (front ++ '.' :: (escape name ++ inner)) ++ ',' :: rest := by
              rw [← hg]
              simp
            exact List.append_cancel_right hsame
          have hfound := hasClassToken_trim hname hleads hends
          rw [← hpart] at hfound
          rw [if_neg (hne _ hfound)]
          exact ⟨_, List.mem_cons_self, hfound⟩
        · cases hrest with
          | unit _ hbehind =>
              have hshort : rest.length < n := by
                rw [← hlength, hg, List.length_append, List.length_cons]
                omega
              obtain ⟨m, hm, hfound⟩ := ih _ hshort hbehind rfl
              refine ⟨m, ?_, hfound⟩
              split
              · exact hm
              · exact List.mem_cons_of_mem _ hm

/-- A list in which the token of a class is found has a member in which it is found. A rule with
this selector is given the changed one in its place, whatever else the change does. -/
theorem modifyList_of_mentioned (change : Change) {g : Text}
    (hname : trimEnd (escape change.className) = escape change.className)
    (h : hasClassToken (escape change.className) g = true) :
    (∃ m ∈ members g, hasClassToken (escape change.className) m = true) ∧
      (modifyList change g).found = true ∧
      ∀ (source : Text) (r : Rule), r.selector = g →
        ruleEdit source r (modifyList change r.selector) =
          ⟨r.selectorSpan.start, r.selectorSpan.stop, (modifyList change g).selector⟩ := by
  obtain ⟨m, hm, htoken⟩ := exists_member_of_hasClassToken hname h
  have hfound : (modifyList change g).found = true := by
    refine List.any_eq_true.mpr ⟨Selector.modify change m, List.mem_map_of_mem hm, ?_⟩
    rw [found_modify]
    exact htoken
  refine ⟨⟨m, hm, htoken⟩, hfound, fun source r hr => ?_⟩
  rw [hr, ruleEdit, if_pos hfound]

/-- An escaped dot, a comma in parentheses, an attribute selector that does not end. -/
theorem modifyList_of_mentioned_unclosed :
    let change : Change := ⟨['a'], "h\x5c:a".toList, ":hover".toList, []⟩
    let g := "\x5c.a , :is(.a,.b) , \t.q.a [x=".toList
    trimEnd (escape change.className) = escape change.className ∧
      hasClassToken (escape change.className) g = true ∧
      (∃ m ∈ members g, hasClassToken (escape change.className) m = true) ∧
      (modifyList change g).found = true ∧
      (modifyList change g).selector =
        "\x5c.a,\n:is(.a,.b),\n.q.h\x5c:a:hover [x=".toList := by
  intro change g
  have hname : trimEnd (escape change.className) = escape change.className := by decide +kernel
  have hmention : hasClassToken (escape change.className) g = true := by decide +kernel
  obtain ⟨hmember, hfound, -⟩ := modifyList_of_mentioned change hname hmention
  exact ⟨hname, hmention, hmember, hfound, by decide +kernel⟩

end UtilityCss.Ruleset
