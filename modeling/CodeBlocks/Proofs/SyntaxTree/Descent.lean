import CodeBlocks.SyntaxTree.Search
import CodeBlocks.Proofs.SyntaxTree.Links
import Mathlib.Data.List.Pairwise
import Mathlib.Data.Nat.Basic

/-! # Descent — the greedy walk ends at the deepest spanning node

    `descend` goes to the first child that spans a position.  Its end is
    reached over spanning nodes only, and none of its children spans the
    position.

    Where ranges are laminar, what a child spans its parent spans too, and
    no two siblings span the same position.  Then the walk had no choice:
    every spanning node is its end or an ancestor of it.

    Ranges are laminar at every position, in bytes or in points, where
    the children of each node fit into it side by side.  In a consistent
    tree they do so everywhere, in bytes. -/

namespace CodeBlocks.SyntaxTree

open Relation

/-- One step down, to a child that spans the position. -/
def Down (tree : SyntaxTree) (spans : Node → Bool) (i c : Nat) : Prop :=
  c ∈ (tree.node i).children ∧ spans (tree.node c) = true

/-- One step of the walk, to the first child that spans the position. -/
def FirstDown (tree : SyntaxTree) (spans : Node → Bool) (i c : Nat) : Prop :=
  (tree.node i).children.find? (fun child => spans (tree.node child)) = some c

theorem FirstDown.down {tree : SyntaxTree} {spans : Node → Bool} {i c : Nat}
    (hfirst : tree.FirstDown spans i c) : tree.Down spans i c := by
  have hspans := List.find?_some hfirst
  exact ⟨List.mem_of_find?_eq_some hfirst, hspans⟩

/-- Below `x` a parent spans what its children span, and no two children of a node span
    the position. -/
structure Laminar (tree : SyntaxTree) (spans : Node → Bool) (x : Nat) : Prop where
  parent : ∀ p, ReflTransGen tree.Up p x → ∀ c, tree.Down spans p c → spans (tree.node p) = true
  unique : ∀ p, ReflTransGen tree.Up p x → ∀ c d, tree.Down spans p c → tree.Down spans p d → c = d

/-- The end of a walk is its start or spans the position. -/
theorem eq_or_spans_of_down {tree : SyntaxTree} {spans : Node → Bool} {x r : Nat}
    (hsteps : ReflTransGen (tree.Down spans) x r) :
    r = x ∨ spans (tree.node r) = true := by
  rcases hsteps.cases_tail with heq | ⟨p, -, hdown⟩
  · exact .inl heq
  · exact .inr hdown.2

namespace Linked

variable {tree : SyntaxTree} (h : tree.Linked) {spans : Node → Bool}

include h

/-- With enough steps the walk goes down until no child spans the position. -/
theorem descendWithin_ends {fuel i : Nat} (hfuel : tree.size ≤ fuel + i) :
    ReflTransGen (tree.FirstDown spans) i (tree.descendWithin spans fuel i) ∧
    ∀ c, ¬ tree.Down spans (tree.descendWithin spans fuel i) c := by
  induction fuel generalizing i with
  | zero =>
      -- out of steps the number is past the last node, which has no children
      refine ⟨.refl, ?_⟩
      rintro c ⟨hc, -⟩
      have hi := lt_size_of_mem_children hc
      rw [descendWithin] at hi
      omega
  | succ fuel ih =>
      rw [descendWithin]
      split
      · next c hfind =>
          -- a child has a greater number, so the steps that are left are enough
          obtain ⟨hlt, -⟩ := h.child i c (List.mem_of_find?_eq_some hfind)
          obtain ⟨hsteps, hend⟩ := ih (show tree.size ≤ fuel + c by omega)
          exact ⟨.head hfind hsteps, hend⟩
      · next hfind =>
          refine ⟨.refl, ?_⟩
          rintro c ⟨hc, hspans⟩
          exact List.find?_eq_none.mp hfind c hc hspans

/-- **The walk takes the first spanning child as long as there is one.** -/
theorem descend_ends (spans : Node → Bool) (x : Nat) :
    ReflTransGen (tree.FirstDown spans) x (tree.descend spans x) ∧
    ∀ c, ¬ tree.Down spans (tree.descend spans x) c :=
  h.descendWithin_ends (Nat.le_add_right ..)

/-- **The walk goes over spanning nodes to one without a spanning child.** -/
theorem descend_steps (spans : Node → Bool) (x : Nat) :
    ReflTransGen (tree.Down spans) x (tree.descend spans x) ∧
    ∀ c, ¬ tree.Down spans (tree.descend spans x) c := by
  obtain ⟨hsteps, hend⟩ := h.descend_ends spans x
  exact ⟨ReflTransGen.mono (fun _ _ hfirst => FirstDown.down hfirst) _ _ hsteps, hend⟩

theorem steps_of_down {x r : Nat} (hsteps : ReflTransGen (tree.Down spans) x r) :
    ReflTransGen tree.Up r x := by
  induction hsteps with
  | refl => exact .refl
  | tail _ hdown ih => exact .head (h.child _ _ hdown.1).2.2 ih

/-- Where ranges are laminar, the ancestors of a spanning node span the position. -/
theorem spans_of_steps {x r c : Nat} (hlaminar : tree.Laminar spans x)
    (hr : spans (tree.node r) = true) (hsteps : ReflTransGen tree.Up r c)
    (hc : ReflTransGen tree.Up c x) : spans (tree.node c) = true := by
  induction hsteps with
  | refl => exact hr
  | tail _ hup ih =>
      exact hlaminar.parent _ hc _ ⟨(h.mem_children_of_up hup).2, ih (.head hup hc)⟩

/-- **Where ranges are laminar, every spanning node below `x` is the end of the walk from
    `x` or an ancestor of it.** -/
theorem steps_of_spans {x j : Nat} (hlaminar : tree.Laminar spans x)
    (hj : ReflTransGen tree.Up j x) (hne : j ≠ x) (hspans : spans (tree.node j) = true) :
    ReflTransGen tree.Up (tree.descend spans x) j := by
  obtain ⟨hdown, hend⟩ := h.descend_steps spans x
  -- from `x` toward `j`: a node that the walk passes is left over the one child that spans
  induction hj using ReflTransGen.head_induction_on with
  | refl => exact absurd rfl hne
  | @head j p hup hp ih =>
      obtain ⟨-, hmem⟩ := h.mem_children_of_up hup
      have hpassed : ReflTransGen tree.Up (tree.descend spans x) p := by
        by_cases hpx : p = x
        · subst hpx
          exact h.steps_of_down hdown
        · exact ih hpx (hlaminar.parent p hp j ⟨hmem, hspans⟩)
      rcases hpassed.cases_tail with heq | ⟨c, hc, hcp⟩
      · subst heq
        exact absurd ⟨hmem, hspans⟩ (hend j)
      · obtain ⟨hlt, hcmem⟩ := h.mem_children_of_up hcp
        -- the walk went below `p`, so it did not end where it started
        have hr : spans (tree.node (tree.descend spans x)) = true := by
          refine (eq_or_spans_of_down hdown).resolve_left fun heq => ?_
          have hcr := h.le_of_steps hc
          have hxp := h.le_of_steps hp
          omega
        have hcspans := h.spans_of_steps hlaminar hr hc (.head hcp hp)
        exact hlaminar.unique p hp c j ⟨hcmem, hcspans⟩ ⟨hmem, hspans⟩ ▸ hc

end Linked

/-! ## Children that fit -/

/-- The children of a node fit into it: from `first` to `last` they lie within it, and an earlier
    sibling ends where a later one starts or before. -/
structure ChildrenFit {α : Type} [Preorder α] (tree : SyntaxTree) (first last : Span → α)
    (p : Nat) : Prop where
  within : ∀ c ∈ (tree.node p).children,
    first (tree.node p).span ≤ first (tree.node c).span ∧
      last (tree.node c).span ≤ last (tree.node p).span
  siblings : (tree.node p).children.Pairwise fun a b =>
    last (tree.node a).span ≤ first (tree.node b).span

instance {α : Type} [Preorder α] [DecidableLE α] (tree : SyntaxTree) (first last : Span → α)
    (p : Nat) : Decidable (tree.ChildrenFit first last p) :=
  decidable_of_iff (_ ∧ _) ⟨fun h => ⟨h.1, h.2⟩, fun h => ⟨h.1, h.2⟩⟩

/-- **Where children fit, ranges are laminar at every position.** -/
theorem laminar_of_childrenFit {α : Type} [Preorder α] {tree : SyntaxTree} {first last : Span → α}
    {position : α} {spans : Node → Bool} {x : Nat}
    (hspans : ∀ node, spans node = true ↔ first node.span ≤ position ∧ position < last node.span)
    (hfit : ∀ p, ReflTransGen tree.Up p x → tree.ChildrenFit first last p) :
    tree.Laminar spans x := by
  constructor
  · rintro p hp c ⟨hc, hcspans⟩
    rw [hspans] at hcspans ⊢
    obtain ⟨hstart, hstop⟩ := (hfit p hp).within c hc
    exact ⟨le_trans hstart hcspans.1, lt_of_lt_of_le hcspans.2 hstop⟩
  · rintro p hp c d ⟨hc, hcspans⟩ ⟨hd, hdspans⟩
    have hone : (tree.node p).children.Pairwise fun a b =>
        spans (tree.node a) = true → spans (tree.node b) = true → a = b := by
      refine (hfit p hp).siblings.imp ?_
      intro a b hab ha hb
      rw [hspans] at ha hb
      exact absurd (lt_of_lt_of_le ha.2 (le_trans hab hb.1)) (lt_irrefl position)
    have hflip := hone.imp fun hab hb ha => (hab ha hb).symm
    exact hone.forall_of_forall_of_flip (fun _ _ _ _ => rfl) hflip hc hd hcspans hdspans

/-! ## Consistent trees -/

/-- A tree whose byte ranges fit together: ends do not precede starts, children lie within
    their parent, and a sibling starts where the one before it ended or later. -/
structure Consistent (tree : SyntaxTree) : Prop where
  ordered : ∀ i < tree.size, (tree.node i).span.startByte ≤ (tree.node i).span.endByte
  within : ∀ i < tree.size, ∀ c ∈ (tree.node i).children,
    (tree.node i).span.startByte ≤ (tree.node c).span.startByte ∧
      (tree.node c).span.endByte ≤ (tree.node i).span.endByte
  siblings : ∀ i < tree.size, (tree.node i).children.IsChain fun a b =>
    (tree.node a).span.endByte ≤ (tree.node b).span.startByte

instance (tree : SyntaxTree) : Decidable tree.Consistent :=
  decidable_of_iff (_ ∧ _ ∧ _) ⟨fun h => ⟨h.1, h.2.1, h.2.2⟩, fun h => ⟨h.1, h.2, h.3⟩⟩

theorem spansOffset_iff {node : Node} {offset : Nat} :
    node.spansOffset offset = true ↔ node.span.startByte ≤ offset ∧ offset < node.span.endByte :=
  decide_eq_true_iff

namespace Consistent

variable {tree : SyntaxTree} (h : tree.Consistent)

include h

theorem startByte_le_endByte (i : Nat) :
    (tree.node i).span.startByte ≤ (tree.node i).span.endByte := by
  by_cases hi : i < tree.size
  · exact h.ordered i hi
  · rw [node_eq_blank (Nat.le_of_not_lt hi)]
    exact Nat.le_refl 0

/-- Of any two siblings the earlier one ends before the later one starts. -/
theorem pairwise_siblings (i : Nat) : (tree.node i).children.Pairwise fun a b =>
    (tree.node a).span.endByte ≤ (tree.node b).span.startByte := by
  let before := fun a b => (tree.node a).span.endByte ≤ (tree.node b).span.startByte
  have htrans : Trans before before before := by
    constructor
    intro a b c hab hbc
    exact Nat.le_trans hab (Nat.le_trans (h.startByte_le_endByte b) hbc)
  by_cases hi : i < tree.size
  · exact List.isChain_iff_pairwise.mp (h.siblings i hi)
  · rw [node_eq_blank (Nat.le_of_not_lt hi)]
    exact .nil

theorem childrenFit (p : Nat) : tree.ChildrenFit Span.startByte Span.endByte p := by
  refine ⟨?_, h.pairwise_siblings p⟩
  intro c hc
  exact h.within p (lt_size_of_mem_children hc) c hc

/-- **Consistent ranges are laminar at every offset.** -/
theorem laminar (offset x : Nat) : tree.Laminar (Node.spansOffset offset) x :=
  laminar_of_childrenFit (fun _ => spansOffset_iff) fun p _ => h.childrenFit p

end Consistent

end CodeBlocks.SyntaxTree
