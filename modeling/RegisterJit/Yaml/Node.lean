import RegisterJit.Yaml.Source

/-!
# Nodes

A document is a tree of scalars, sequences and mappings. A reference stands for a node elsewhere in
the tree that has an anchor, so the nodes with anchors are kept beside the tree.
-/

namespace RegisterJit.Yaml

/-- A part of a document. Tags are in their short form. -/
inductive Node
  /-- A scalar. A plain one without a tag has the empty tag: what it is, its text says. -/
  | scalar (mark : Mark) (tag text : Text)
  | sequence (mark : Mark) (tag : Text) (items : List Node)
  | mapping (mark : Mark) (tag : Text) (entries : List (Node × Node))
  /-- The node with the anchor that has a number. -/
  | reference (mark : Mark) (name : Text) (target : Nat)

/-- The kinds of nodes. -/
inductive NodeKind
  | scalar
  | sequence
  | mapping
  | reference
  deriving DecidableEq

namespace Node

/-- The kind of a node. -/
def kind : Node → NodeKind
  | .scalar .. => .scalar
  | .sequence .. => .sequence
  | .mapping .. => .mapping
  | .reference .. => .reference

/-- Where a node starts. -/
def mark : Node → Mark
  | .scalar m .. | .sequence m .. | .mapping m .. | .reference m .. => m

/-- The line of a node, counted from one. -/
def line (n : Node) : Nat := n.mark.line + 1

/-- The text that tells nodes of a kind apart: of a scalar its own, of a reference the anchor. -/
def text : Node → Text
  | .scalar _ _ t => t
  | .reference _ name _ => name
  | .sequence .. | .mapping .. => []

/-- The tag of a node, empty if its text decides. -/
def tag : Node → Text
  | .scalar _ tag _ | .sequence _ tag _ | .mapping _ tag _ => tag
  | .reference .. => []

/-- The scalar that stands where nothing is written. -/
def nothing (m : Mark) : Node := .scalar m [] []

end Node

/-! ## Tags -/

/-- What the tags that every document has start with. -/
def commonTag : Text := "tag:yaml.org,2002:"

/-- The tags that may be written without a directive. -/
def commonHandles : List (Text × Text) := [("!", "!"), ("!!", commonTag)]

/-- The short form of a tag. -/
def shortTag (tag : Text) : Text :=
  if commonTag.isPrefixOf tag then Text.ofString "!!" ++ tag.drop commonTag.length else tag

/-- Whether a tag says anything. -/
def isMeaningful (tag : Text) : Bool := !tag.isEmpty && tag ≠ [0x21]

/-- The tag of a scalar. Without one a scalar that is not plain is a string, and two angle brackets
merge mappings. -/
def scalarTag (given : Text) (isPlain : Bool) (text : Text) : Text :=
  if isMeaningful given then shortTag given
  else if !isPlain then "!!str"
  else if text = Text.ofString "<<" then "!!merge"
  else []

/-- The tag of a collection. -/
def collectionTag (given usual : Text) : Text :=
  if isMeaningful given then shortTag given else usual

/-- A document: its root, and the nodes with anchors in the order of their anchors. -/
structure Document where
  root : Node
  anchored : Array Node

end RegisterJit.Yaml
