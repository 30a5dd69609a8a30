import CodeBlocks.Point

/-! # ParseTree — the tree a parser engine delivers

    The engine's tree holds every node, tokens without a name included.
    Sibling trees form a `Forest` in first-child, next-sibling form, so
    that one plain induction covers a tree and its siblings.

    An engine may also hand its tree over as a listing in pre-order with
    depths; `ofListing?` rebuilds the tree.  Nothing is assumed about
    spans: a node may lie outside its parent or outside the text. -/

namespace CodeBlocks

/-- Where a node lies: byte offsets and points of its two ends. -/
structure Span where
  startByte : Nat
  endByte : Nat
  start : Point
  stop : Point
deriving DecidableEq

/-- A node as the engine reports it. -/
structure EngineNode where
  kind : String
  /-- The role it plays in its parent. -/
  field : Option String
  /-- Tokens such as brackets have no name. -/
  named : Bool
  /-- It or something below it did not parse cleanly. -/
  hasError : Bool
  span : Span
deriving DecidableEq

/-- Sibling trees: the first node, what is below it, and its later siblings. -/
inductive Forest where
  | nil
  | cons (node : EngineNode) (below after : Forest)

/-- A root and the trees below it. -/
structure ParseTree where
  root : EngineNode
  below : Forest

namespace Forest

/-- The number of nodes. -/
def size : Forest → Nat
  | nil => 0
  | cons _ below after => below.size + after.size + 1

end Forest

namespace ParseTree

/-- A tree that still waits for its parent, with its depth. -/
structure Pending where
  depth : Nat
  node : EngineNode
  below : Forest

/-- Pending trees as siblings. -/
def siblings (trees : List Pending) : Forest :=
  trees.foldr (fun tree after => .cons tree.node tree.below after) .nil

/-- Puts a node of a listing in front of what follows it: the deeper trees
    right after it are its children. -/
def adopt (row : Nat × EngineNode) (later : List Pending) : List Pending :=
  let deeper := fun tree : Pending => decide (row.1 < tree.depth)
  ⟨row.1, row.2, siblings (later.takeWhile deeper)⟩ :: later.dropWhile deeper

/-- The tree of a listing in pre-order, each node with its depth; there is none
    unless the listing starts with the only root. -/
def ofListing? (rows : List (Nat × EngineNode)) : Option ParseTree :=
  match rows.foldr adopt [] with
  | [tree] => some ⟨tree.node, tree.below⟩
  | _ => none

end ParseTree

end CodeBlocks
