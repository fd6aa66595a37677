import UtilityCss.Checksum
import UtilityCss.Name.Map
import UtilityCss.Text.Bytes
import UtilityCss.Text.Closest
import UtilityCss.Theme.Reference
import UtilityCss.Theme.Variable

/-!
# The dependency graph of a theme

The graph holds the rows of a checked table by name, each with the variables that its values
refer to, and a hash of all names and values.
-/

namespace UtilityCss.Theme

open Text

/-- A variable with what its values refer to. -/
structure Node where
  name : Text
  light : Option Text
  dark : Option Text
  lightReferences : NameSet
  darkReferences : NameSet

namespace Node

def ofVariable (v : Variable) : Node :=
  { name := v.name, light := v.light, dark := v.dark,
    lightReferences := references (v.light.getD []),
    darkReferences := references (v.dark.getD []) }

def dependencies (n : Node) : NameSet :=
  n.lightReferences ∪ n.darkReferences

end Node

structure Graph where
  nodes : NameMap Node

namespace Graph

/-- The layout of graphs that this module builds. -/
def version : Nat := 1

/-- The graph of a table, unless something is wrong with the table. -/
def ofTable (table : List Variable) : Except TableError Graph :=
  match Variable.tableProblem? table with
  | some e => .error e
  | none => .ok ⟨table.foldl (fun nodes v => nodes.insert v.name (Node.ofVariable v)) .empty⟩

def get? (g : Graph) (name : Text) : Option Node :=
  g.nodes.get? name

def contains (g : Graph) (name : Text) : Bool :=
  g.nodes.contains name

def size (g : Graph) : Nat :=
  g.nodes.size

def names (g : Graph) : List Text :=
  g.nodes.keys

def closestName (g : Graph) (name : Text) : Option Text :=
  closest (stripHyphens name) g.names

/-! ## The content hash -/

/-- A row of the hashed stream: the name, then the two values behind zero bytes, then a line
feed. An absent value counts as an empty one. -/
def rowBytes (n : Node) : List UInt8 :=
  bytes n.name ++ 0 :: bytes (n.light.getD []) ++ 0 :: bytes (n.dark.getD []) ++ [10]

/-- The stream that is hashed: all rows by ascending name. -/
def contentBytes (g : Graph) : List UInt8 :=
  g.nodes.values.flatMap rowBytes

def contentHash (g : Graph) : Text :=
  Checksum.hex (Checksum.crc32 g.contentBytes)

end Graph

end UtilityCss.Theme
