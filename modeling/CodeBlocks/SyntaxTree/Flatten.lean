import CodeBlocks.ParseTree.Cursor
import CodeBlocks.SyntaxTree.Basic

/-! # Flattening — from the engine's tree to numbered nodes

    One walk over all nodes with a cursor.  Named nodes and the root are
    kept and numbered as they are met.  The walk carries the depth of the
    cursor and the kept nodes whose subtrees are still open, innermost
    first: the first of them is the parent of the next kept node.  Open
    nodes are closed when the next node met lies no deeper, or when the
    walk ends.

    The depth is an integer; that it never falls below zero is a fact
    about the walk. -/

namespace CodeBlocks

/-- The state of a walk. -/
structure Walk where
  cursor : Cursor
  depth : Int
  /-- The nodes kept so far. -/
  nodes : Array Node
  /-- Depth and number of the kept nodes around the cursor, innermost first. -/
  openNodes : List (Int × Nat)

namespace Walk

/-- Writes the end of a node's subtree. -/
def setEnd (nodes : Array Node) (i : Nat) : Array Node :=
  nodes.modify i fun node => { node with subtreeEnd := nodes.size }

/-- Closes the open nodes that lie no higher than `depth`. -/
def close (depth : Int) (nodes : Array Node) : List (Int × Nat) → Array Node × List (Int × Nat)
  | [] => (nodes, [])
  | (level, i) :: rest =>
      if level < depth then (nodes, (level, i) :: rest)
      else close depth (setEnd nodes i) rest

/-- Appends a child to a node. -/
def addChild (nodes : Array Node) (parent child : Nat) : Array Node :=
  nodes.modify parent fun node => { node with children := node.children ++ [child] }

/-- A node that is kept, without children yet. -/
def fresh (node : EngineNode) (parent : Option Nat) : Node :=
  ⟨node.kind, node.field, node.span, node.hasError, parent, [], 0⟩

/-- Numbers a node and enters it with its parent. -/
def keep (nodes : Array Node) (node : EngineNode) (parent : Option Nat) : Array Node :=
  let grown := nodes.push (fresh node parent)
  match parent with
  | some p => addChild grown p nodes.size
  | none => grown

/-- Meets the node under the cursor: closes what ended before it, and keeps it
    if it is named or the root. -/
def visit (w : Walk) : Walk :=
  let (nodes, openNodes) := close w.depth w.nodes w.openNodes
  if w.cursor.node.named || w.depth == 0 then
    { w with
      nodes := keep nodes w.cursor.node (openNodes.head?.map Prod.snd)
      openNodes := (w.depth, nodes.size) :: openNodes }
  else
    { w with nodes, openNodes }

/-- The kept nodes, with all that were still open closed. -/
def finish (w : Walk) : Array Node :=
  w.openNodes.foldl (fun nodes entry => setEnd nodes entry.2) w.nodes

/-- Meets the node under the cursor and all that follow in pre-order. -/
def run (w : Walk) : Array Node :=
  match h : w.cursor.advance? w.depth with
  | some (cursor, depth) =>
      have : cursor.pending + 1 = w.cursor.pending := Cursor.pending_advance h
      run { w.visit with cursor, depth }
  | none => w.visit.finish
termination_by w.cursor.pending

end Walk

/-- The kept nodes of a parse tree. -/
def ParseTree.nodes (tree : ParseTree) : Array Node :=
  Walk.run ⟨tree.walk, 0, #[], []⟩

/-- A text with the named nodes of its parse. -/
def SyntaxTree.ofParse (source : String) (tree : ParseTree) : SyntaxTree :=
  ⟨source, tree.nodes⟩

end CodeBlocks
