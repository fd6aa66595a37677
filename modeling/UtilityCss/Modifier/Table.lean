import UtilityCss.Modifier.Basic

/-!
# The table of modifiers

Every modifier that exists under a fixed name, in the order in which suggestions go through
them, and the modifiers that take an argument, such as `nth-child(2n+1)`.
-/

namespace UtilityCss.Modifier

open Text

def atLeast (width : Text) : Text :=
  "@media (width >= ".toList ++ width ++ [')']

def below (width : Text) : Text :=
  "@media (width < ".toList ++ width ++ [')']

def breakpoints : List (Text × Text) :=
  [("sm", "40rem"), ("md", "48rem"), ("lg", "64rem"), ("xl", "80rem"), ("2xl", "96rem")].map
    fun (name, width) => (name.toList, width.toList)

def fromBreakpoints : List Modifier :=
  breakpoints.map fun (name, width) => ⟨.media, name, atLeast width⟩

def upToBreakpoints : List Modifier :=
  breakpoints.map fun (name, width) => ⟨.media, "max-".toList ++ name, below width⟩

def mediaFeatures : List Modifier :=
  [("motion-safe", "@media (prefers-reduced-motion: no-preference)"),
    ("motion-reduce", "@media (prefers-reduced-motion: reduce)"),
    ("contrast-more", "@media (prefers-contrast: more)"),
    ("portrait", "@media (orientation: portrait)"),
    ("landscape", "@media (orientation: landscape)"),
    ("print", "@media print")].map fun (name, css) => ⟨.media, name.toList, css.toList⟩

def ancestors : List Modifier :=
  [("dark", ":root.dark"), ("light", ":root.light")].map
    fun (name, css) => ⟨.ancestor, name.toList, css.toList⟩

/-- The states, each with the pseudo-class that selects it. -/
def states : List Modifier :=
  [("active", ":active"), ("autofill", ":autofill"), ("checked", ":checked"),
    ("default", ":default"), ("disabled", ":disabled"), ("empty", ":empty"),
    ("enabled", ":enabled"), ("even", ":nth-child(even)"), ("first", ":first-child"),
    ("first-child", ":first-child"), ("first-of-type", ":first-of-type"), ("focus", ":focus"),
    ("focus-visible", ":focus-visible"), ("focus-within", ":focus-within"), ("hover", ":hover"),
    ("in-range", ":in-range"), ("indeterminate", ":indeterminate"), ("invalid", ":invalid"),
    ("last", ":last-child"), ("last-child", ":last-child"), ("last-of-type", ":last-of-type"),
    ("odd", ":nth-child(odd)"), ("only", ":only-child"), ("only-child", ":only-child"),
    ("only-of-type", ":only-of-type"), ("open", ":open"), ("optional", ":optional"),
    ("out-of-range", ":out-of-range"), ("placeholder-shown", ":placeholder-shown"),
    ("read-only", ":read-only"), ("read-write", ":read-write"), ("required", ":required"),
    ("target", ":target"), ("user-invalid", ":user-invalid"), ("user-valid", ":user-valid"),
    ("valid", ":valid"), ("visited", ":visited")].map
    fun (name, css) => ⟨.state, name.toList, css.toList⟩

def pseudoElements : List Modifier :=
  ["after", "backdrop", "before", "file-selector-button", "first-letter", "first-line", "marker",
    "placeholder", "selection"].map
    fun name => ⟨.pseudoElement, name.toList, ':' :: ':' :: name.toList⟩

def fixed : List Modifier :=
  fromBreakpoints ++ upToBreakpoints ++ mediaFeatures ++ ancestors ++ states ++ pseudoElements

def indexedStates : List Text :=
  ["nth-child", "nth-last-child", "nth-of-type", "nth-last-of-type"].map String.toList

/-- The name in front of the first parenthesis and the text between it and a parenthesis at the
end. -/
def call? (name : Text) : Option (Text × Text) :=
  match name.dropWhile (· != '(') with
  | [] => none
  | _ :: tail =>
      match before? [')'] tail with
      | none => none
      | some inner =>
          let function := name.takeWhile (· != '(')
          if function.isEmpty || (trim inner).isEmpty then none else some (function, inner)

def argument (inner : Text) : Text :=
  trim (inner.map fun c => if c = '~' then ' ' else c)

def ofCall? (name : Text) : Option Modifier :=
  match call? name with
  | none => none
  | some (function, inner) =>
      if function = "min-width".toList then some ⟨.media, name, atLeast (argument inner)⟩
      else if function = "max-width".toList then some ⟨.media, name, below (argument inner)⟩
      else if function ∈ indexedStates then
        some ⟨.state, name, ':' :: function ++ '(' :: argument inner ++ [')']⟩
      else none

def ofName? (name : Text) : Option Modifier :=
  match fixed.find? (·.name = name) with
  | some modifier => some modifier
  | none => ofCall? name

/-- The names that a suggestion for a misspelt modifier can give. -/
def knownNames : List Text :=
  fixed.map (·.name) ++ indexedStates ++ ["min-width".toList, "max-width".toList]

end UtilityCss.Modifier
