import PointScope.Yaml.Token

/-!
# YAML documents

A document is a tree of scalars, sequences and mappings. An alias refers to a node that has an
anchor; nodes with anchors are numbered, and a document knows which scalar has which number.
-/

namespace PointScope.Yaml

/-- A scalar. -/
structure Scalar where
  style : Style := .plain
  /-- The full tag; empty if the scalar has none. -/
  tag : String := ""
  text : String := ""
deriving DecidableEq, Repr, Inhabited

/-- A node of a document. -/
inductive Node where
  | scalar (s : Scalar)
  | alias (number : Nat)
  | sequence (items : List Node)
  | mapping (entries : List (Node × Node))
deriving Inhabited

/-- A document: its root, and the nodes with anchors, newest first. A number that was given twice
belongs to the newer node; a collection has no scalar. -/
structure Document where
  root : Node
  anchored : List (Nat × Option Scalar) := []
deriving Inhabited

/-- The scalar that a node is or refers to. -/
def Document.scalar? (d : Document) : Node → Option Scalar
  | .scalar s => some s
  | .alias number => (d.anchored.lookup number).join
  | _ => none

end PointScope.Yaml
