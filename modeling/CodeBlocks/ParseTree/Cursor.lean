import CodeBlocks.ParseTree.Basic

/-! # Cursor — moving through a parse tree

    A cursor is at one node and remembers what it went past: the trees
    below the node, its later siblings, and the same for every ancestor.
    It moves to the first child, to the next sibling and to the parent.
    `advance?` is the next node in pre-order, found by these moves alone;
    it counts the depth as it goes.

    `pending` counts the nodes still ahead; every advance lowers it by
    one, so a walk ends. -/

namespace CodeBlocks

/-- A node the cursor has gone below, with its surroundings. -/
structure Crumb where
  node : EngineNode
  below : Forest
  after : Forest

/-- A position in a parse tree. -/
structure Cursor where
  node : EngineNode
  below : Forest
  after : Forest
  /-- The ancestors, nearest first. -/
  path : List Crumb

/-- A cursor at the root. -/
def ParseTree.walk (tree : ParseTree) : Cursor := ⟨tree.root, tree.below, .nil, []⟩

namespace Cursor

/-- Down to the first child. -/
def firstChild? (c : Cursor) : Option Cursor :=
  match c.below with
  | .nil => none
  | .cons node below after => some ⟨node, below, after, ⟨c.node, c.below, c.after⟩ :: c.path⟩

/-- On to the next sibling. -/
def nextSibling? (c : Cursor) : Option Cursor :=
  match c.after with
  | .nil => none
  | .cons node below after => some ⟨node, below, after, c.path⟩

/-- Up to the parent. -/
def parent? (c : Cursor) : Option Cursor :=
  match c.path with
  | [] => none
  | crumb :: path => some ⟨crumb.node, crumb.below, crumb.after, path⟩

/-- The parent's path is shorter. -/
theorem path_length_parent {c up : Cursor} (h : c.parent? = some up) :
    up.path.length < c.path.length := by
  unfold parent? at h
  split at h
  · exact nomatch h
  · next crumb path hp =>
      obtain rfl := Option.some.inj h
      simp [hp]

/-- The next sibling of the nearest ancestor-or-self that has one.  The depth
    goes down by one with every step up. -/
def climb? (c : Cursor) (depth : Int) : Option (Cursor × Int) :=
  match c.nextSibling? with
  | some next => some (next, depth)
  | none =>
      match h : c.parent? with
      | some up => climb? up (depth - 1)
      | none => none
termination_by c.path.length
decreasing_by exact path_length_parent h

/-- The next node in pre-order and its depth. -/
def advance? (c : Cursor) (depth : Int) : Option (Cursor × Int) :=
  match c.firstChild? with
  | some child => some (child, depth + 1)
  | none => c.climb? depth

/-- The number of later siblings of ancestors, with all that is below them. -/
def pendingAbove : List Crumb → Nat
  | [] => 0
  | crumb :: path => crumb.after.size + pendingAbove path

/-- The number of nodes after the cursor that are not below it. -/
def pendingAfter (c : Cursor) : Nat := c.after.size + pendingAbove c.path

/-- The number of nodes still ahead. -/
def pending (c : Cursor) : Nat := c.below.size + c.pendingAfter

/-- Climbing passes the node it arrives at, and no other. -/
theorem pending_climb {c next : Cursor} {depth depth' : Int}
    (h : c.climb? depth = some (next, depth')) : next.pending + 1 = c.pendingAfter := by
  fun_induction climb? c depth with
  | case1 c depth sibling hs =>
      obtain ⟨rfl, -⟩ := Prod.mk.inj (Option.some.inj h)
      unfold nextSibling? at hs
      split at hs
      · exact nomatch hs
      · next node below after ha =>
          obtain rfl := Option.some.inj hs
          simp only [pending, pendingAfter, ha, Forest.size]
          omega
  | case2 c depth hs up hp ih =>
      have hone := ih h
      have hafter : c.after.size = 0 := by
        unfold nextSibling? at hs
        split at hs
        · next ha => simp [ha, Forest.size]
        · exact nomatch hs
      unfold parent? at hp
      split at hp
      · exact nomatch hp
      · next crumb path hpath =>
          obtain rfl := Option.some.inj hp
          simp only [pendingAfter] at hone ⊢
          simp only [hpath, pendingAbove]
          omega
  | case3 => exact nomatch h

/-- Every advance leaves one node less ahead. -/
theorem pending_advance {c next : Cursor} {depth depth' : Int}
    (h : c.advance? depth = some (next, depth')) : next.pending + 1 = c.pending := by
  unfold advance? at h
  split at h
  · next child hc =>
      obtain ⟨rfl, -⟩ := Prod.mk.inj (Option.some.inj h)
      unfold firstChild? at hc
      split at hc
      · exact nomatch hc
      · next node below after hb =>
          obtain rfl := Option.some.inj hc
          simp only [pending, pendingAfter, pendingAbove, hb, Forest.size]
          omega
  · next hc =>
      have hbelow : c.below.size = 0 := by
        unfold firstChild? at hc
        split at hc
        · next hb => simp [hb, Forest.size]
        · exact nomatch hc
      have hone := pending_climb h
      unfold pending at hone ⊢
      omega

end Cursor

end CodeBlocks
