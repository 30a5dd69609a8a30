import CodeBlocks.SyntaxTree.Basic

/-! # Search — descent, ascent and scanning

    * `descend` goes from a node to its first child that spans a position,
      and on, until no child does.
    * `enclosing?` goes up from a node to the first one accepted.
    * `ofKind` scans the descendants of a node for kinds.  With a window it
      leaves out a whole subtree that ends before the window, and stops at
      the first node that starts after it.

    Each takes at most as many steps as there are numbers: children have
    greater numbers than their parent, parents smaller ones, and a subtree
    ends after its node. -/

namespace CodeBlocks

/-- Points from `first` to `last`, both included. -/
structure Window where
  first : Point
  last : Point
deriving DecidableEq

namespace Window

/-- Whether the window, if there is one, ends before a span starts. -/
def endsBefore (window : Option Window) (span : Span) : Bool :=
  match window with
  | some w => decide (w.last < span.start)
  | none => false

/-- Whether the window, if there is one, starts after a span ends. -/
def startsAfter (window : Option Window) (span : Span) : Bool :=
  match window with
  | some w => decide (span.stop < w.first)
  | none => false

end Window

namespace SyntaxTree

/-- At most `fuel` steps down, each to the first child accepted. -/
def descendWithin (tree : SyntaxTree) (spans : Node → Bool) : Nat → Nat → Nat
  | 0, i => i
  | fuel + 1, i =>
      match (tree.node i).children.find? fun child => spans (tree.node child) with
      | some child => descendWithin tree spans fuel child
      | none => i

/-- Down from a node, each time to the first child accepted. -/
def descend (tree : SyntaxTree) (spans : Node → Bool) (i : Nat) : Nat :=
  tree.descendWithin spans tree.size i

/-- The deepest descendant spanning an offset. -/
def deepestAtOffset (tree : SyntaxTree) (i offset : Nat) : Nat :=
  tree.descend (Node.spansOffset offset) i

/-- The deepest descendant spanning a point. -/
def deepestAtPoint (tree : SyntaxTree) (i : Nat) (point : Point) : Nat :=
  tree.descend (Node.spansPoint point) i

/-- The nearest ancestor-or-self of an accepted kind that contains an offset. -/
def enclosing? (tree : SyntaxTree) (accepts : String → Bool) (i offset : Nat) : Option Nat :=
  (tree.lineage i).find? fun j =>
    (tree.node j).containsOffset offset && accepts (tree.node j).kind

/-- Scans the numbers from `i` up to `stop`, in at most `fuel` steps. -/
def scan (tree : SyntaxTree) (kinds : List String) (window : Option Window) (stop : Nat) :
    Nat → Nat → List Nat
  | 0, _ => []
  | fuel + 1, i =>
      let node := tree.node i
      if stop ≤ i then []
      else if Window.endsBefore window node.span then []
      else if Window.startsAfter window node.span then
        scan tree kinds window stop fuel node.subtreeEnd
      else if kinds.contains node.kind then
        i :: scan tree kinds window stop fuel (i + 1)
      else
        scan tree kinds window stop fuel (i + 1)

/-- The descendants of the given kinds in pre-order; with a window, those that
    overlap it. -/
def ofKind (tree : SyntaxTree) (i : Nat) (kinds : List String) (window : Option Window) :
    List Nat :=
  let stop := (tree.node i).subtreeEnd
  tree.scan kinds window stop (stop - i) (i + 1)

end SyntaxTree

end CodeBlocks
