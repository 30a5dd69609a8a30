import CodeBlocks.Signature
import CodeBlocks.SyntaxTree.Search

/-! # Locating blocks — by offset, by range, and all of them

    An offset is looked up from the deepest node that spans it toward the
    root; the first accepted node is the smallest enclosing block.
    Listings scan every descendant of the root and report nested blocks
    on their own. -/

namespace CodeBlocks.Taxonomy

/-- The nearest ancestor-or-self of block kind that contains an offset. -/
def enclosingBlock? (t : Taxonomy) (tree : SyntaxTree) (i offset : Nat) : Option Nat :=
  tree.enclosing? t.isBlock i offset

/-- The nearest ancestor-or-self of function kind that contains an offset. -/
def enclosingFunction? (t : Taxonomy) (tree : SyntaxTree) (i offset : Nat) : Option Nat :=
  tree.enclosing? t.isFunction i offset

/-- Every block, in pre-order. -/
def listBlocks (t : Taxonomy) (tree : SyntaxTree) : List Block :=
  (tree.ofKind 0 t.blocks none).map (t.classify tree)

/-- The function or class of a node of such a kind. -/
def symbol? (t : Taxonomy) (tree : SyntaxTree) (i : Nat) : Option Block :=
  if t.isFunction (tree.node i).kind then (t.functionInfo? tree i).map .function
  else (t.classInfo? tree i).map .classLike

/-- Every function and class, in pre-order. -/
def listSymbols (t : Taxonomy) (tree : SyntaxTree) : List Block :=
  (tree.ofKind 0 t.symbols none).filterMap (t.symbol? tree)

/-- The function around an offset, if the nearest one has a signature. -/
def functionAt? (t : Taxonomy) (tree : SyntaxTree) (offset : Nat) : Option FunctionInfo :=
  (t.enclosingFunction? tree (tree.deepestAtOffset 0 offset) offset).bind (t.functionInfo? tree)

/-- The block around an offset: the nearest function if it has a signature,
    else the nearest block, over whole lines. -/
def blockAt? (t : Taxonomy) (tree : SyntaxTree) (offset : Nat) : Option Block :=
  match t.functionAt? tree offset with
  | some info => some (.function info)
  | none =>
      (t.enclosingBlock? tree (tree.deepestAtOffset 0 offset) offset).map fun block =>
        otherBlock tree block (TextRange.wholeLines (tree.node block).span)

/-- The first block, in pre-order, that overlaps a range. -/
def blockIn? (t : Taxonomy) (tree : SyntaxTree) (range : TextRange) : Option Block :=
  (tree.ofKind 0 t.blocks (some ⟨range.startPoint, range.endPoint⟩)).head?.map (t.classify tree)

end CodeBlocks.Taxonomy

namespace CodeBlocks.SyntaxTree

/-- Of a chain of ancestors, nearest first, the last one before an errored one
    or the root; `i` when there is none. -/
def outermostClean (tree : SyntaxTree) (i : Nat) : List Nat → Nat
  | [] => i
  | ancestor :: rest =>
      if (tree.node ancestor).hasError || (tree.node ancestor).parent.isNone then i
      else outermostClean tree ancestor rest

/-- The largest block without errors around the start of a range: the outermost
    ancestor below the root that has none.  An errored node at the start is
    reported over the range asked for. -/
def errorFreeBlock (tree : SyntaxTree) (range : TextRange) : Block :=
  let selected := tree.deepestAtPoint 0 range.startPoint
  let whole := fun i => Taxonomy.otherBlock tree i (TextRange.ofSpan (tree.node i).span)
  if (tree.node selected).parent.isNone then whole selected
  else if (tree.node selected).hasError then Taxonomy.otherBlock tree selected range
  else whole (tree.outermostClean selected (tree.lineage selected).tail)

end CodeBlocks.SyntaxTree
