import CodeBlocks.ParseTree.Basic
import CodeBlocks.Text.Bytes

/-! # SyntaxTree — a text with its named nodes in pre-order

    Nodes are numbered in pre-order, the root is number 0.  Three
    encodings of the same tree stand side by side: each node knows its
    parent, its children, and the number after its last descendant, so
    the descendants of `i` are `i + 1` up to `subtreeEnd`.

    Everything here holds for nodes wherever they lie: a span outside the
    text has the empty text. -/

namespace CodeBlocks

/-- A named node. -/
structure Node where
  kind : String
  /-- The role it plays in its parent. -/
  field : Option String
  span : Span
  /-- It or something below it did not parse cleanly. -/
  hasError : Bool
  parent : Option Nat
  children : List Nat
  /-- The number after its last descendant. -/
  subtreeEnd : Nat
deriving DecidableEq

namespace Node

/-- A node without kind and extent, found under no number. -/
def blank : Node := ⟨"", none, ⟨0, 0, ⟨0, 0⟩, ⟨0, 0⟩⟩, false, none, [], 0⟩

/-- Whether an offset lies in a node, both ends included. -/
def containsOffset (node : Node) (offset : Nat) : Bool :=
  decide (node.span.startByte ≤ offset ∧ offset ≤ node.span.endByte)

/-- Whether a node spans an offset, its end not included. -/
def spansOffset (offset : Nat) (node : Node) : Bool :=
  decide (node.span.startByte ≤ offset ∧ offset < node.span.endByte)

/-- Whether a node spans a point, its end not included. -/
def spansPoint (point : Point) (node : Node) : Bool :=
  decide (node.span.start ≤ point ∧ point < node.span.stop)

/-- A diagnostic text: the kind and both ends. -/
def describe (node : Node) : String :=
  let ends := fun p : Point => "[" ++ toString p.row ++ ", " ++ toString p.column ++ "]"
  node.kind ++ " " ++ ends node.span.start ++ " - " ++ ends node.span.stop

end Node

/-- A text with the named nodes of its parse. -/
structure SyntaxTree where
  source : String
  nodes : Array Node
deriving DecidableEq

namespace SyntaxTree

/-- The number of nodes. -/
def size (tree : SyntaxTree) : Nat := tree.nodes.size

/-- The node of a number. -/
def node (tree : SyntaxTree) (i : Nat) : Node := tree.nodes.getD i Node.blank

/-- Whether any part of the text did not parse cleanly. -/
def hasError (tree : SyntaxTree) : Bool := (tree.node 0).hasError

/-- The text a node covers. -/
def text (tree : SyntaxTree) (i : Nat) : String :=
  let span := (tree.node i).span
  String.ofList (Text.slice tree.source.toList span.startByte span.endByte)

/-- The child of a node in a role: the first one that plays it. -/
def childByField? (tree : SyntaxTree) (i : Nat) (field : String) : Option Nat :=
  (tree.node i).children.find? fun child => (tree.node child).field = some field

/-- The descendants of a node in pre-order. -/
def descendants (tree : SyntaxTree) (i : Nat) : List Nat :=
  List.range' (i + 1) ((tree.node i).subtreeEnd - (i + 1))

/-- A node and its ancestors, nearest first, at most `fuel` of them. -/
def lineageWithin (tree : SyntaxTree) : Nat → Nat → List Nat
  | 0, _ => []
  | fuel + 1, i =>
      match (tree.node i).parent with
      | some parent => i :: lineageWithin tree fuel parent
      | none => [i]

/-- A node and its ancestors, nearest first.  A parent has a smaller number
    than its children, so `i + 1` steps reach the root. -/
def lineage (tree : SyntaxTree) (i : Nat) : List Nat := tree.lineageWithin (i + 1) i

end SyntaxTree

end CodeBlocks
