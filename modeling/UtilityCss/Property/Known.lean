import UtilityCss.Name.Set
import UtilityCss.Text.Closest
import UtilityCss.Property.Standard

/-!
# Known properties

The property names a literal class may set. A custom property is always known, and a
vendor-prefixed name is known when the name behind the prefix is.
-/

namespace UtilityCss

open Text

structure KnownProperties where
  names : NameSet

namespace KnownProperties

def vendorPrefixes : List Text :=
  ["-webkit-", "-moz-", "-ms-", "-o-"].map String.toList

def ofNames (names : List Text) : KnownProperties :=
  ⟨NameSet.ofList names⟩

/-- Reads one name a line; blank lines and lines that start with `#` hold none. -/
def ofListing (listing : Text) : KnownProperties :=
  ofNames (((lines listing).map trim).filter fun line => line.head?.any (· != '#'))

def standard : KnownProperties :=
  ofNames (Property.standardNames.map String.toList)

def insert (name : Text) (known : KnownProperties) : KnownProperties :=
  ⟨known.names.insert name⟩

def size (known : KnownProperties) : Nat :=
  known.names.size

/-- A custom property starts with two hyphens and has a character more. -/
def isCustom : Text → Bool
  | '-' :: '-' :: _ :: _ => true
  | _ => false

def knows (known : KnownProperties) (name : Text) : Bool :=
  isCustom name || decide (name ∈ known.names) ||
    vendorPrefixes.any fun vendor =>
      (after? vendor name).any fun plain => decide (plain ∈ known.names)

def suggest (known : KnownProperties) (name : Text) : Option Text :=
  closest name known.names.toList

end KnownProperties

end UtilityCss
