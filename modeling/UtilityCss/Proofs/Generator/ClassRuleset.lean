import UtilityCss.Proofs.Generator.StyleRule
import UtilityCss.Proofs.Selector.ClassToken
import UtilityCss.Proofs.Selector.Token
import UtilityCss.Ruleset.Check

/-!
# The rule of a class, recognised

A ruleset that is nothing but the rule of a class is accepted for the class and could be a plain
declaration. That is so as long as the escaped form of the name does not end in white space: a
selector is trimmed where it is read, which takes away the end of such a name.
-/

namespace UtilityCss

open Text Css Ruleset Selector

variable {name D t : Text} {c : Char}

def classRuleset (name D : Text) : Text :=
  classSelector name ++ " \x7b ".toList ++ D ++ " \x7d".toList

/-- The last character of the name is a blank, a control character, or a digit that starts the
identifier. -/
def endsOpen (name : Text) : Bool :=
  name.getLast?.any fun c =>
    isBlank c || isControl c || c.isDigit && (name.dropLast == [] || name.dropLast == ['-'])

theorem escape_of_ne (h : c ≠ '-') (rest : Text) : escape (c :: rest) = escapeStart (c :: rest) := by
  unfold escape
  split
  next heq => exact absurd (List.cons.inj heq).1 h
  next => rfl

/-- The last character is escaped as the start of the identifier if there is at most a hyphen in
front of it. -/
theorem escape_concat (front : Text) (c : Char) :
    escape (front ++ [c]) = escape front ++ escapeChar (front == [] || front == ['-']) c := by
  have hstart : ∀ first rest, escapeStart (first :: rest ++ [c]) =
      escapeStart (first :: rest) ++ escapeChar false c := by
    intro first rest
    rw [List.cons_append, escapeStart, escapeStart, List.flatMap_append, List.flatMap_singleton,
      List.append_assoc]
  cases front with
  | nil =>
      by_cases hc : c = '-'
      · rw [hc]
        rfl
      · rw [List.nil_append, escape_of_ne hc, escapeStart, List.flatMap_nil, List.append_nil]
        rfl
  | cons first rest =>
      by_cases hfirst : first = '-'
      · rw [hfirst]
        cases rest with
        | nil =>
            show '-' :: (escapeChar true c ++ []) = '-' :: escapeChar true c
            rw [List.append_nil]
        | cons second rest =>
            show '-' :: escapeStart (second :: rest ++ [c]) = _
            rw [hstart]
            rfl
      · have hlong : (first :: rest == [] || first :: rest == ['-']) = false := by
          simp [hfirst]
        rw [hlong, List.cons_append, escape_of_ne hfirst, ← List.cons_append, hstart,
          escape_of_ne hfirst]

theorem getLast?_escapeChar (startsIdentifier : Bool) (c : Char) :
    (escapeChar startsIdentifier c).getLast?.any isBlank =
      (isBlank c || isControl c || c.isDigit && startsIdentifier) := by
  have hhex : (hexEscape c).getLast?.any isBlank = true := by
    rw [hexEscape, List.getLast?_concat]
    rfl
  unfold escapeChar
  split
  next hstarts => rw [hhex, hstarts, Bool.or_true]
  next hstarts =>
    rw [Bool.not_eq_true] at hstarts
    rw [hstarts, Bool.or_false]
    split
    next hplain =>
      rw [(isSolid_of_isPlain hplain).2, Bool.or_false]
      rfl
    next =>
      split
      next hcontrol => rw [hhex, hcontrol, Bool.or_true]
      next hcontrol =>
        rw [Bool.not_eq_true] at hcontrol
        rw [hcontrol, Bool.or_false]
        rfl

theorem escapeChar_ne_nil (startsIdentifier : Bool) (c : Char) :
    escapeChar startsIdentifier c ≠ [] := by
  rcases escapeChar_eq_or startsIdentifier c with ⟨heq, -⟩ | ⟨t, heq⟩
  · rw [heq]
    exact List.cons_ne_nil c []
  · rw [heq]
    exact List.cons_ne_nil _ t

/-- Whether the selector of a class ends in white space can be seen from the name. -/
theorem getLast?_classSelector (name : Text) :
    (classSelector name).getLast?.any isBlank = endsOpen name := by
  rcases List.eq_nil_or_concat name with rfl | ⟨front, c, rfl⟩
  · rfl
  · have hlast : (classSelector (front ++ [c])).getLast? =
        (escapeChar (front == [] || front == ['-']) c).getLast? := by
      rw [classSelector, escape_concat, ← List.cons_append, List.getLast?_append,
        Option.or_of_isSome]
      exact List.getLast?_isSome.mpr (escapeChar_ne_nil _ c)
    rw [List.concat_eq_append, hlast, getLast?_escapeChar, endsOpen, List.getLast?_concat,
      Option.any_some, List.dropLast_concat]

theorem trimEnd_selector (h : endsOpen name = false) :
    trimEnd (classSelector name ++ [' ']) = classSelector name := by
  have hsolid : EndsSolid (classSelector name) := by
    rw [← getLast?_classSelector] at h
    rcases List.eq_nil_or_concat (classSelector name) with hnil | ⟨front, c, hconcat⟩
    · cases hnil
    · rw [hconcat, List.concat_eq_append, List.getLast?_concat, Option.any_some] at h
      exact ⟨front, c, by rw [hconcat, List.concat_eq_append], h⟩
  rw [trimEnd_append_blanks (by simp [isBlank]), hsolid.trimEnd_eq]

theorem length_trimEnd_selector (h : endsOpen name = true) :
    (trimEnd (classSelector name ++ [' '])).length < (classSelector name).length := by
  rw [← getLast?_classSelector] at h
  rcases List.eq_nil_or_concat (classSelector name) with hnil | ⟨front, c, hconcat⟩
  · cases hnil
  · rw [hconcat, List.concat_eq_append, List.getLast?_concat, Option.any_some] at h
    have hblanks : ∀ x ∈ [c] ++ [' '], isBlank x = true :=
      List.forall_mem_cons.mpr ⟨h, List.forall_mem_singleton.mpr (by decide)⟩
    obtain ⟨blanks, heq, -⟩ := exists_trimEnd_append front
    have hlength := congrArg List.length heq
    rw [List.length_append] at hlength
    rw [hconcat, List.concat_eq_append, List.append_assoc, trimEnd_append_blanks hblanks,
      List.length_append, List.length_singleton]
    omega

/-! ## Reading the rule -/

theorem classRuleset_eq (name D : Text) :
    classRuleset name D =
      classSelector name ++ [' '] ++ '\x7b' :: (' ' :: (D ++ [' ']) ++ ['\x7d']) := by
  simp [classRuleset]

theorem trim_classRuleset (name D : Text) : trim (classRuleset name D) = classRuleset name D := by
  rw [classRuleset_eq]
  refine trim_of_solid ⟨'.', _, rfl, by decide⟩ ?_
  exact ⟨classSelector name ++ [' '] ++ '\x7b' :: ' ' :: (D ++ [' ']), '\x7d', by simp, by decide⟩

/-- It is read as one rule, whatever characters the name has. -/
theorem parse_classRuleset (name : Text) (hD : IsBland D) :
    Ruleset.parse (classRuleset name D) =
      { rules := [ruleAt [] 0 (classSelector name ++ [' ']) (' ' :: (D ++ [' ']))],
        leadingComments := [] } := by
  have hselector : Steady (classSelector name ++ [' ']) :=
    (steady_classSelector name).append (.char (by decide))
  have hblank : ∀ c ∈ [' '] ++ [' '], isAsciiBlank c = true := by simp [isAsciiBlank]
  have hbody : Whole (' ' :: (D ++ [' '])) := (hD.padded hblank).whole
  rw [classRuleset_eq]
  exact parse_rule (c := '.') rfl (by decide) (by decide) hselector.fitsPrelude
    (fitsBody_of_whole hbody)

theorem hasClassToken_classSelector (name : Text) :
    hasClassToken (escape name) (classSelector name) = true := by
  have htoken := findClassToken_token name name (t := []) rfl
  rw [if_pos rfl, List.append_nil] at htoken
  rw [hasClassToken, htoken]
  rfl

/-- A class token is not shorter than the selector of the class. -/
theorem hasClassToken_of_short (h : t.length < (classSelector name).length) :
    hasClassToken (escape name) t = false := by
  unfold hasClassToken
  cases htoken : findClassToken (escape name) t with
  | none => rfl
  | some token =>
      obtain ⟨hsuffix, behind, rfl⟩ := findClassToken_spec htoken
      have hlength := hsuffix.length_le
      rw [classSelector, List.length_cons] at h
      rw [List.length_cons, List.length_append] at hlength
      omega

/-- The selector that is read is that of the class if this does not end in white space, and has no
token of the class otherwise. -/
theorem selector_classRuleset (name : Text) :
    (trimEnd (classSelector name ++ [' ']) = classSelector name ↔ endsOpen name = false) ∧
      hasClassToken (escape name) (trimEnd (classSelector name ++ [' '])) = !endsOpen name := by
  cases h : endsOpen name with
  | false =>
      rw [trimEnd_selector h]
      exact ⟨⟨fun _ => rfl, fun _ => rfl⟩, hasClassToken_classSelector name⟩
  | true =>
      have hshort := length_trimEnd_selector h
      have hne : trimEnd (classSelector name ++ [' ']) ≠ classSelector name := by
        intro heq
        rw [heq] at hshort
        exact Nat.lt_irrefl _ hshort
      exact ⟨⟨fun heq => absurd heq hne, nofun⟩, hasClassToken_of_short hshort⟩

/-- The rule of a class with nothing around it passes the check of the class and could be a
declaration, unless the escaped name ends in white space: then it does neither. -/
theorem check_classRuleset (name : Text) (hD : IsBland D) :
    check name (classRuleset name D) =
        (if endsOpen name then .error (.unmentioned name)
          else .ok (Ruleset.parse (classRuleset name D))) ∧
      ((Ruleset.parse (classRuleset name D)).onlyRule? name).isSome = !endsOpen name := by
  obtain ⟨hselector, htoken⟩ := selector_classRuleset name
  have hnonempty : ¬ (classRuleset name D).isEmpty = true := Bool.false_ne_true
  have hmentions : (Ruleset.parse (classRuleset name D)).mentions name = !endsOpen name := by
    rw [parse_classRuleset name hD, mentions, List.any_cons, List.any_nil, Bool.or_false]
    exact htoken
  constructor
  · unfold check
    rw [trim_classRuleset, if_neg hnonempty]
    simp only [hmentions]
    cases endsOpen name <;> rfl
  · have honly : ((Ruleset.parse (classRuleset name D)).onlyRule? name).isSome = true ↔
        endsOpen name = false := by
      rw [parse_classRuleset name hD, ← hselector]
      simp [onlyRule?, ruleAt]
    rw [Bool.eq_iff_iff, honly, Bool.not_eq_true']

/-- A name that needs all kinds of escapes, but not at its end. -/
theorem check_classRuleset_hostile :
    let name : Text := ['-', '0', '\n', '\x22', ' ', '\x7d', 'é']
    let D := "margin: 0; color: red".toList
    IsBland D ∧
      classRuleset name D =
        ".-\x5c30 \x5ca \x5c\x22\x5c \x5c\x7d\x5cé \x7b margin: 0; color: red \x7d".toList ∧
      check name (classRuleset name D) = .ok (Ruleset.parse (classRuleset name D)) ∧
      ((Ruleset.parse (classRuleset name D)).onlyRule? name).isSome = true := by
  intro name D
  have hbland : IsBland D := .of_slashFree (by decide +kernel) (by decide +kernel)
  have hends : endsOpen name = false := by decide +kernel
  obtain ⟨hcheck, honly⟩ := check_classRuleset name hbland
  rw [hends] at hcheck honly
  exact ⟨hbland, by decide +kernel, hcheck, honly⟩

/-- The one-digit name `1` is escaped with a space at the end, which its own rule loses. -/
theorem check_classRuleset_digit :
    let name := "1".toList
    let D := "color: red".toList
    IsBland D ∧ classRuleset name D = ".\x5c31  \x7b color: red \x7d".toList ∧
      check name (classRuleset name D) = .error (.unmentioned name) ∧
      (Ruleset.parse (classRuleset name D)).onlyRule? name = none := by
  intro name D
  have hbland : IsBland D := .of_slashFree (by decide +kernel) (by decide +kernel)
  have hnonempty : (trim (classRuleset name D)).isEmpty = false := by decide +kernel
  have hmentions : (Ruleset.parse (trim (classRuleset name D))).mentions name = false := by
    decide +kernel
  refine ⟨hbland, by decide +kernel, ?_, by decide +kernel⟩
  simp only [check, hnonempty, hmentions, Bool.false_eq_true, if_false]

end UtilityCss
