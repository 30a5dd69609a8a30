import CodeBlocks.Proofs.Point
import CodeBlocks.Proofs.SyntaxTree.Descent
import CodeBlocks.Proofs.SyntaxTree.Subtrees
import Mathlib.Order.Bounds.Basic

/-! # Deepest nodes — a walk that never turns back misses nothing

    The walk down takes the first child that spans the position and does
    not come back to try another.  `Reaches` says what it does in every
    flattened tree: it ends, the nodes on its way span the position, and
    no child of its end does.

    `IsDeepest` says what it finds where children fit into their parents
    from its start on: of the start and the descendants that span the
    position the last one in pre-order, with the others above it.  Nothing
    is asked of the rest of the tree.

    Offsets and points differ only in what a span is taken to start and
    end at, so both lookups are one lemma about the walk. -/

namespace CodeBlocks

namespace SyntaxTree

open Relation

/-- The walk down from `x` ends at `r`: it goes on to the first spanning child as long as there
    is one, and what it passes after `x` spans the position. -/
structure Reaches (tree : SyntaxTree) (spans : Node → Bool) (x r : Nat) : Prop where
  steps : ReflTransGen (tree.FirstDown spans) x r
  below : ReflTransGen tree.Up r x
  path : ∀ j, ReflTransGen tree.Up r j → tree.Above x j → spans (tree.node j) = true
  children : ∀ c ∈ (tree.node r).children, spans (tree.node c) = false

/-- Of `x` and its descendants that span the position, `r` is the last one in pre-order and all
    others below `x` are above it. -/
structure IsDeepest (tree : SyntaxTree) (spans : Node → Bool) (x r : Nat) : Prop where
  greatest : IsGreatest {j | j = x ∨ j ∈ tree.descendants x ∧ spans (tree.node j) = true} r
  above : ∀ j ∈ tree.descendants x, spans (tree.node j) = true → j = r ∨ tree.Above j r

theorem spansPoint_iff {node : Node} {point : Point} :
    node.spansPoint point = true ↔ node.span.start ≤ point ∧ point < node.span.stop :=
  decide_eq_true_iff

variable {tree : SyntaxTree} {spans : Node → Bool}

namespace Linked

variable (h : tree.Linked)

include h

/-- The nodes between the start of a walk and its end span the position. -/
theorem spans_of_between {x r j : Nat} (hdown : ReflTransGen (tree.Down spans) x r)
    (hsteps : ReflTransGen tree.Up r j) (habove : tree.Above x j) :
    spans (tree.node j) = true := by
  -- by the last step of the walk: parents are unique, so the way back up retraces it
  induction hdown with
  | refl =>
      have hlt := h.lt_of_above habove
      have hle := h.le_of_steps hsteps
      omega
  | @tail p c _ hstep ih =>
      rcases hsteps.cases_head with rfl | ⟨q, hup, hrest⟩
      · exact hstep.2
      · obtain rfl := tree.up_rightUnique hup (h.child p c hstep.1).2.2
        exact ih hrest

/-- **The walk ends over spanning nodes where no child spans the position.** -/
theorem reaches_descend (spans : Node → Bool) (x : Nat) :
    tree.Reaches spans x (tree.descend spans x) := by
  obtain ⟨hfirst, hend⟩ := h.descend_ends spans x
  obtain ⟨hdown, -⟩ := h.descend_steps spans x
  refine ⟨hfirst, h.steps_of_down hdown, fun j => h.spans_of_between hdown, ?_⟩
  intro c hc
  exact Bool.eq_false_iff.mpr fun hspans => hend c ⟨hc, hspans⟩

end Linked

namespace Nested

variable (h : tree.Nested) (hl : tree.Linked)

include h hl

/-- **Where ranges are laminar, the end of the walk is the deepest node.** -/
theorem isDeepest_descend {x : Nat} (hlaminar : tree.Laminar spans x) :
    tree.IsDeepest spans x (tree.descend spans x) := by
  have hreaches := hl.reaches_descend spans x
  have hupward : ∀ j ∈ tree.descendants x, spans (tree.node j) = true →
      ReflTransGen tree.Up (tree.descend spans x) j := by
    intro j hj hspans
    have habove : tree.Above x j := (h.mem_descendants_iff hl).mp hj
    exact hl.steps_of_spans hlaminar habove.to_reflTransGen (Nat.ne_of_gt (hl.lt_of_above habove))
      hspans
  refine ⟨⟨?_, ?_⟩, ?_⟩
  · rcases reflTransGen_iff_eq_or_transGen.mp hreaches.below with heq | habove
    · exact .inl heq.symm
    · exact .inr ⟨(h.mem_descendants_iff hl).mpr habove, hreaches.path _ .refl habove⟩
  · rintro j (rfl | ⟨hj, hspans⟩)
    · exact hl.le_of_steps hreaches.below
    · exact hl.le_of_steps (hupward j hj hspans)
  · intro j hj hspans
    exact reflTransGen_iff_eq_or_transGen.mp (hupward j hj hspans)

/-- Ranges are laminar below `x` where children fit from `x` on. -/
theorem laminar_of_mem {α : Type} [Preorder α] {first last : Span → α} {position : α} {x : Nat}
    (hspans : ∀ node, spans node = true ↔ first node.span ≤ position ∧ position < last node.span)
    (hfit : ∀ p ∈ x :: tree.descendants x, tree.ChildrenFit first last p) :
    tree.Laminar spans x := by
  refine laminar_of_childrenFit hspans ?_
  intro p hp
  exact hfit p ((h.mem_cons_descendants_iff hl).mpr hp)

end Nested

end SyntaxTree

/-- **The walk down finds the deepest node.**  In every flattened tree, from every node `x` and for
    every offset and every point,

    * the walk ends; each node after `x` on the way to its end spans the position, and no child of
      the end does;
    * if the children of `x` and of each of its descendants fit into their parent, by bytes or by
      points, the end has the greatest number of `x` and the descendants of `x` that span the
      position, and each of these descendants is the end or above it. -/
theorem descent_finds_deepest (source : String) (parsed : ParseTree) (x : Nat) :
    let tree := SyntaxTree.ofParse source parsed
    (∀ offset, tree.Reaches (Node.spansOffset offset) x (tree.deepestAtOffset x offset)) ∧
    ((∀ p ∈ x :: tree.descendants x, tree.ChildrenFit Span.startByte Span.endByte p) →
      ∀ offset, tree.IsDeepest (Node.spansOffset offset) x (tree.deepestAtOffset x offset)) ∧
    (∀ point, tree.Reaches (Node.spansPoint point) x (tree.deepestAtPoint x point)) ∧
    ((∀ p ∈ x :: tree.descendants x, tree.ChildrenFit Span.start Span.stop p) →
      ∀ point, tree.IsDeepest (Node.spansPoint point) x (tree.deepestAtPoint x point)) := by
  intro tree
  have hl : tree.Linked := SyntaxTree.linked_ofParse source parsed
  have hn : tree.Nested := SyntaxTree.nested_ofParse source parsed
  refine ⟨fun offset => hl.reaches_descend _ x, ?_, fun point => hl.reaches_descend _ x, ?_⟩
  · intro hfit offset
    exact hn.isDeepest_descend hl (hn.laminar_of_mem hl (fun _ => SyntaxTree.spansOffset_iff) hfit)
  · intro hfit point
    exact hn.isDeepest_descend hl (hn.laminar_of_mem hl (fun _ => SyntaxTree.spansPoint_iff) hfit)

/-- A call over two lines, and an error that starts at its closing bracket. -/
def overlapping : ParseTree :=
  let node := fun (kind : String) (named : Bool) (first last row column : Nat) =>
    (⟨kind, none, named, false,
      ⟨first, last, ⟨row, column⟩, ⟨row, column + (last - first)⟩⟩⟩ : EngineNode)
  let folded := fun (kind : String) (first column : Nat) =>
    (⟨kind, none, true, false, ⟨first, 8, ⟨0, column⟩, ⟨1, 2⟩⟩⟩ : EngineNode)
  ⟨⟨"program", none, true, true, ⟨0, 10, ⟨0, 0⟩, ⟨1, 4⟩⟩⟩,
    .cons (folded "call_expression" 0 0)
      (.cons (node "identifier" true 0 1 0 0) .nil
        (.cons (folded "arguments" 1 1)
          (.cons (node "(" false 1 2 0 1) .nil
            (.cons (node "identifier" true 2 4 0 2) .nil
              (.cons (node "," false 4 5 0 4) .nil
                (.cons (node "identifier" true 6 7 1 0) .nil
                  (.cons (node ")" false 7 8 1 1) .nil .nil))))) .nil))
      (.cons (node "ERROR" true 7 10 1 1)
        (.cons (node "identifier" true 9 10 1 3) .nil .nil) .nil)⟩

/-- The call fits together though its neighbour overlaps it: between the two bytes of its first
    argument this argument is found, at the start of the second line the other one, and on the line
    feed between them the list of both. -/
theorem descent_finds_deepest_overlapping :
    let tree := SyntaxTree.ofParse "f(é,\nb)+c" overlapping
    ¬ tree.ChildrenFit Span.startByte Span.endByte 0 ∧
      (∀ p ∈ 1 :: tree.descendants 1, tree.ChildrenFit Span.startByte Span.endByte p) ∧
      tree.deepestAtOffset 1 3 = 4 ∧ tree.Above 3 4 ∧ tree.deepestAtOffset 1 5 = 3 ∧
      (∀ p ∈ 1 :: tree.descendants 1, tree.ChildrenFit Span.start Span.stop p) ∧
      tree.deepestAtPoint 1 ⟨1, 0⟩ = 5 ∧ tree.Above 3 5 := by
  intro tree
  obtain ⟨-, hoffsets, -, hpoints⟩ := descent_finds_deepest "f(é,\nb)+c" overlapping 1
  have hbytes : ∀ p ∈ 1 :: tree.descendants 1, tree.ChildrenFit Span.startByte Span.endByte p := by
    decide +kernel
  have hrows : ∀ p ∈ 1 :: tree.descendants 1, tree.ChildrenFit Span.start Span.stop p := by
    decide +kernel
  have hinside : tree.deepestAtOffset 1 3 = 4 := by decide +kernel
  have hsecond : tree.deepestAtPoint 1 ⟨1, 0⟩ = 5 := by decide +kernel
  have hfirst := (hoffsets hbytes 3).above 3 (by decide +kernel) (by decide +kernel)
  have hlast := (hpoints hrows ⟨1, 0⟩).above 3 (by decide +kernel) (by decide +kernel)
  rw [hinside] at hfirst
  rw [hsecond] at hlast
  exact ⟨by decide +kernel, hbytes, hinside, hfirst.resolve_left (by decide),
    by decide +kernel, hrows, hsecond, hlast.resolve_left (by decide)⟩

end CodeBlocks
