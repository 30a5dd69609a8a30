import CodeBlocks.SyntaxTree.Flatten

/-! # The arena of a tree — its kept nodes by structural recursion

    What flattening is meant to build, said without a cursor.  The root is
    number 0; the named nodes below it follow in pre-order.  A named node
    at number `next` has the numbers after it for what is kept below it,
    and passes `next` down as the parent; a node without a name passes the
    parent it was given.

    * `Forest.kept` counts the nodes that are kept.
    * `Forest.tops` lists the numbers of those without a kept node above
      them in the forest: the children of the parent.
    * `Forest.arena` lists the kept nodes themselves. -/

namespace CodeBlocks

namespace Forest

/-- All nodes, each before what is below it. -/
def preorder : Forest → List EngineNode
  | nil => []
  | cons node below after => node :: (below.preorder ++ after.preorder)

/-- The number of named nodes. -/
def kept : Forest → Nat
  | nil => 0
  | cons node below after => (if node.named then 1 else 0) + below.kept + after.kept

/-- The numbers of the topmost named nodes, when numbering starts at `next`. -/
def tops (next : Nat) : Forest → List Nat
  | nil => []
  | cons node below after =>
      if node.named then next :: after.tops (next + 1 + below.kept)
      else below.tops next ++ after.tops (next + below.kept)

/-- The named nodes below `parent`, when numbering starts at `next`. -/
def arena (parent next : Nat) : Forest → List Node
  | nil => []
  | cons node below after =>
      if node.named then
        ⟨node.kind, node.field, node.span, node.hasError, some parent, below.tops (next + 1),
          next + 1 + below.kept⟩
          :: (below.arena next (next + 1) ++ after.arena parent (next + 1 + below.kept))
      else below.arena parent next ++ after.arena parent (next + below.kept)

/-- As many nodes as are counted. -/
@[simp] theorem length_arena (parent next : Nat) (forest : Forest) :
    (forest.arena parent next).length = forest.kept := by
  induction forest generalizing parent next with
  | nil => rfl
  | cons node below after ihBelow ihAfter =>
      by_cases hnamed : node.named
      · simp only [arena, kept, hnamed, if_true, List.length_cons, List.length_append, ihBelow,
          ihAfter]
        omega
      · simp [arena, kept, hnamed, ihBelow, ihAfter]

/-- No more nodes are kept than there are. -/
theorem kept_le_size (forest : Forest) : forest.kept ≤ forest.size := by
  induction forest with
  | nil => exact Nat.le_refl 0
  | cons node below after ihBelow ihAfter =>
      simp only [kept, size]
      split <;> omega

end Forest

/-- The kept nodes of a tree: the root and the named nodes below it. -/
def ParseTree.arena (tree : ParseTree) : List Node :=
  ⟨tree.root.kind, tree.root.field, tree.root.span, tree.root.hasError, none,
    tree.below.tops 1, 1 + tree.below.kept⟩ :: tree.below.arena 0 1

/-- What a node has of its own, apart from its links to other nodes. -/
structure NodeData where
  kind : String
  field : Option String
  span : Span
  hasError : Bool
deriving DecidableEq

/-- The data of a kept node. -/
def Node.data (node : Node) : NodeData := ⟨node.kind, node.field, node.span, node.hasError⟩

/-- The data of a node as the engine reports it. -/
def EngineNode.data (node : EngineNode) : NodeData :=
  ⟨node.kind, node.field, node.span, node.hasError⟩

/-- The kept nodes are the named ones in pre-order, with their own data. -/
theorem Forest.map_data_arena (parent next : Nat) (forest : Forest) :
    (forest.arena parent next).map Node.data
      = (forest.preorder.filter (·.named)).map EngineNode.data := by
  induction forest generalizing parent next with
  | nil => rfl
  | cons node below after ihBelow ihAfter =>
      by_cases hnamed : node.named
      · simp only [Forest.arena, Forest.preorder, hnamed, if_true, List.map_cons, List.map_append,
          List.filter_cons, List.filter_append, ihBelow, ihAfter]
        rfl
      · simp only [Forest.arena, Forest.preorder, hnamed, Bool.false_eq_true, if_false,
          List.map_append, List.filter_cons, List.filter_append, ihBelow, ihAfter]

/-- The arena is the root and the named nodes in pre-order, with their own data. -/
theorem ParseTree.map_data_arena (tree : ParseTree) :
    tree.arena.map Node.data
      = (tree.root :: tree.below.preorder.filter (·.named)).map EngineNode.data := by
  rw [ParseTree.arena, List.map_cons, List.map_cons, Forest.map_data_arena]
  rfl

end CodeBlocks
