import UtilityCss.Name.Set

/-!
# References to theme variables

A style sheet refers to the variable `name` by `var(--name)`, anywhere in a value, also in the
fallback of another reference.
-/

namespace UtilityCss.Theme

open Text

def isReferenceChar (c : Char) : Bool :=
  c.isAlphanum || c == '_' || c == '-'

/-- The names that a text refers to, in the order of the references. -/
def referenceList (t : Text) : List Text :=
  match t with
  | [] => []
  | c :: rest =>
      match _h : after? ['v', 'a', 'r', '('] (c :: rest) with
      | none => referenceList rest
      | some call =>
          match _hn : after? ['-', '-'] (trimStart call) with
          | none => referenceList (trimStart call)
          | some tail =>
              let name := tail.takeWhile isReferenceChar
              let left := referenceList (tail.dropWhile isReferenceChar)
              if name.isEmpty then left else name :: left
termination_by t.length
decreasing_by
  · simp
  · have hcall := length_of_after? _h
    have htrim := (List.dropWhile_suffix isBlank (l := call)).length_le
    simp only [List.length_cons, List.length_nil, trimStart] at *
    omega
  · have hcall := length_of_after? _h
    have hdash := length_of_after? _hn
    have htrim := (List.dropWhile_suffix isBlank (l := call)).length_le
    have htail := (List.dropWhile_suffix isReferenceChar (l := tail)).length_le
    simp only [List.length_cons, List.length_nil, trimStart] at *
    omega

def references (t : Text) : NameSet :=
  NameSet.ofList (referenceList t)

/-- A variable name without the hyphens that references put in front of it. -/
def stripHyphens : Text → Text
  | '-' :: '-' :: t => stripHyphens t
  | t => t

end UtilityCss.Theme
