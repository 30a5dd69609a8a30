import CodeBlocks.Proofs.SyntaxTree.Subtrees
import Mathlib.Data.List.Nodup
import Mathlib.Data.Set.Lattice
import Mathlib.Order.CompletePartialOrder
import Mathlib.Order.Interval.Set.Basic

/-! # Navigation — three encodings of one tree

    A flattened tree can be walked in three ways: up by parents, down by
    children, and across a subtree by its interval of numbers.  `Linked`
    and `Nested` tie them to each other.  Here are the two facts that are
    left: siblings are listed in rising numbers, so no child is listed
    twice, and two subtrees are nested or disjoint. -/

namespace CodeBlocks

namespace Forest

theorem lt_of_mem_numbered {parent next i : Nat} {node : Node} {forest : Forest}
    (h : (node, i) ∈ forest.numbered parent next) : i < next + forest.kept := by
  obtain ⟨hlt, hle⟩ := subtreeEnd_bounds h
  omega

theorem bounds_of_mem_tops {next c : Nat} {forest : Forest} (h : c ∈ forest.tops next) :
    next ≤ c ∧ c < next + forest.kept := by
  obtain ⟨child, hmem, -⟩ : ∃ child, (child, c) ∈ forest.numbered 0 next ∧ _ :=
    exists_numbered_of_mem_tops h
  exact ⟨le_of_mem_numbered hmem, lt_of_mem_numbered hmem⟩

/-- The topmost nodes are listed in rising numbers. -/
theorem pairwise_tops (next : Nat) (forest : Forest) :
    (forest.tops next).Pairwise (· < ·) := by
  induction forest generalizing next with
  | nil => exact .nil
  | cons node below after ihBelow ihAfter =>
      rw [tops]
      split
      · refine List.pairwise_cons.mpr ⟨?_, ihAfter _⟩
        intro c hc
        have hbounds := bounds_of_mem_tops hc
        omega
      · refine List.pairwise_append.mpr ⟨ihBelow _, ihAfter _, ?_⟩
        intro b hb c hc
        have hbelow := bounds_of_mem_tops hb
        have hafter := bounds_of_mem_tops hc
        omega

/-- So are the children of every kept node: they are topmost in what is below it. -/
theorem pairwise_children {parent next i : Nat} {node : Node} {forest : Forest}
    (h : (node, i) ∈ forest.numbered parent next) : node.children.Pairwise (· < ·) := by
  induction forest generalizing parent next with
  | nil => cases h
  | cons top below after ihBelow ihAfter =>
      by_cases hnamed : top.named = true
      · rw [numbered_cons_of_named hnamed] at h
        rcases List.mem_cons.mp h with heq | hrest
        · cases heq
          exact pairwise_tops (i + 1) below
        · rcases List.mem_append.mp hrest with hbelow | hafter
          · exact ihBelow hbelow
          · exact ihAfter hafter
      · rw [numbered_cons_of_not_named hnamed] at h
        rcases List.mem_append.mp h with hbelow | hafter
        · exact ihBelow hbelow
        · exact ihAfter hafter

end Forest

namespace SyntaxTree

theorem pairwise_children_ofParse (source : String) (parsed : ParseTree) (i : Nat) :
    ((ofParse source parsed).node i).children.Pairwise (· < ·) := by
  by_cases hi : i < (ofParse source parsed).size
  · rcases Nat.eq_zero_or_pos i with rfl | hpos
    · obtain ⟨-, -, htops⟩ := node_ofParse_zero source parsed
      rw [htops]
      exact Forest.pairwise_tops 1 parsed.below
    · exact Forest.pairwise_children ((mem_numbered_iff source parsed hpos).mpr ⟨hi, rfl⟩)
  · rw [node_eq_blank (Nat.le_of_not_lt hi)]
    exact .nil

namespace Linked

variable {tree : SyntaxTree} (h : tree.Linked)

include h

theorem parent_eq_none_iff {i : Nat} (hi : i < tree.size) :
    (tree.node i).parent = none ↔ i = 0 := by
  constructor
  · intro hnone
    refine Nat.eq_zero_of_not_pos fun hpos => ?_
    obtain ⟨p, -, hp, -⟩ := h.parent i hpos hi
    cases hnone.symm.trans hp
  · rintro rfl
    exact h.root

theorem mem_children_iff {i c : Nat} : c ∈ (tree.node i).children ↔ tree.Up c i := by
  constructor
  · intro hc
    exact (h.child i c hc).2.2
  · intro hup
    exact (h.mem_children_of_up hup).2

/-- A node below the root is listed once, by its parent, and by no other node. -/
theorem exists_count_children (hordered : ∀ i, (tree.node i).children.Pairwise (· < ·)) {c : Nat}
    (hpos : 0 < c) (hc : c < tree.size) :
    ∃ p, ∀ i, (tree.node i).children.count c = if i = p then 1 else 0 := by
  obtain ⟨p, -, hup, hmem⟩ := h.parent c hpos hc
  refine ⟨p, ?_⟩
  intro i
  by_cases hi : i = p
  · subst hi
    rw [if_pos rfl]
    exact List.count_eq_one_of_mem ((hordered i).imp fun hlt => Nat.ne_of_lt hlt) hmem
  · rw [if_neg hi]
    refine List.count_eq_zero.mpr fun hlisted => hi ?_
    exact tree.up_rightUnique (h.mem_children_iff.mp hlisted) hup

end Linked

/-- The numbers of a node and of what is below it. -/
def subtree (tree : SyntaxTree) (i : Nat) : Set Nat := Set.Ico i (tree.node i).subtreeEnd

namespace Nested

variable {tree : SyntaxTree} (h : tree.Nested) (hl : tree.Linked)

include h

theorem subtreeEnd_le_size (i : Nat) : (tree.node i).subtreeEnd ≤ tree.size := by
  by_cases hi : i < tree.size
  · exact (h.bounds i hi).2
  · rw [node_eq_blank (Nat.le_of_not_lt hi)]
    exact Nat.zero_le _

include hl

/-- A subtree that starts later starts after an earlier one, or ends within it. -/
theorem subtreeEnd_le {i j : Nat} (hlt : i < j) :
    (tree.node i).subtreeEnd ≤ j ∨ (tree.node j).subtreeEnd ≤ (tree.node i).subtreeEnd := by
  refine or_iff_not_imp_left.mpr fun hin => Nat.le_of_not_lt fun hout => ?_
  -- the first number after the subtree of `i` would be below `j`, and so below `i`
  have hij : tree.Above i j := (h.mem_descendants_iff hl).mp (mem_descendants.mpr (by omega))
  have hjk : tree.Above j (tree.node i).subtreeEnd :=
    (h.mem_descendants_iff hl).mp (mem_descendants.mpr (by omega))
  have hik : tree.Above i (tree.node i).subtreeEnd := hjk.trans hij
  exact Nat.lt_irrefl _ (h.lt_subtreeEnd_of_above hl hik).2

theorem subtree_of_lt {i j : Nat} (hlt : i < j) :
    tree.subtree j ⊆ tree.subtree i ∨ Disjoint (tree.subtree i) (tree.subtree j) := by
  rcases h.subtreeEnd_le hl hlt with hafter | hwithin
  · refine .inr (Set.disjoint_left.mpr ?_)
    intro k hi hj
    exact Nat.not_lt_of_le (hafter.trans hj.1) hi.2
  · exact .inl (Set.Ico_subset_Ico (Nat.le_of_lt hlt) hwithin)

/-- **Two subtrees are nested or disjoint.** -/
theorem subtree_laminar (i j : Nat) :
    tree.subtree i ⊆ tree.subtree j ∨ tree.subtree j ⊆ tree.subtree i ∨
      Disjoint (tree.subtree i) (tree.subtree j) := by
  rcases Nat.lt_trichotomy i j with hlt | rfl | hlt
  · exact .inr (h.subtree_of_lt hl hlt)
  · exact .inl subset_rfl
  · rcases h.subtree_of_lt hl hlt with hsubset | hdisjoint
    · exact .inl hsubset
    · exact .inr (.inr hdisjoint.symm)

end Nested

end SyntaxTree

/-- **Parents, children and intervals agree.**  In every flattened tree

    * the root is the only node without a parent, and every parent has a smaller number;
    * the children of a node are listed in rising numbers and are the nodes whose parent it is, so
      every node below the root is listed once, by one node;
    * the descendants of a node, an interval of numbers, are the nodes from which one or more
      steps to the parent lead to it, so two subtrees are nested or disjoint.

    No number is greater than the number of nodes of the parse. -/
theorem links_and_intervals_agree (source : String) (parsed : ParseTree) :
    let tree := SyntaxTree.ofParse source parsed
    (∀ i < tree.size, (tree.node i).parent = none ↔ i = 0) ∧
    (∀ i p, tree.Up i p → p < i ∧ i < tree.size) ∧
    (∀ i, (tree.node i).children.Pairwise (· < ·)) ∧
    (∀ i c, c ∈ (tree.node i).children ↔ tree.Up c i) ∧
    (∀ c, 0 < c → c < tree.size →
      ∃ p, ∀ i, (tree.node i).children.count c = if i = p then 1 else 0) ∧
    (∀ i j, j ∈ tree.descendants i ↔ i < j ∧ j < (tree.node i).subtreeEnd) ∧
    (∀ i j, j ∈ tree.descendants i ↔ Relation.TransGen tree.Up j i) ∧
    (∀ i j, tree.subtree i ⊆ tree.subtree j ∨ tree.subtree j ⊆ tree.subtree i ∨
      Disjoint (tree.subtree i) (tree.subtree j)) ∧
    (∀ i, (tree.node i).subtreeEnd ≤ tree.size) ∧ tree.size ≤ parsed.below.size + 1 := by
  intro tree
  have hl : tree.Linked := SyntaxTree.linked_ofParse source parsed
  have hn : tree.Nested := SyntaxTree.nested_ofParse source parsed
  have hordered := SyntaxTree.pairwise_children_ofParse source parsed
  refine ⟨fun i hi => hl.parent_eq_none_iff hi, ?_, hordered, fun i c => hl.mem_children_iff, ?_,
    fun i j => SyntaxTree.mem_descendants, fun i j => hn.mem_descendants_iff hl,
    hn.subtree_laminar hl, hn.subtreeEnd_le_size, ?_⟩
  · intro i p hup
    exact ⟨(hl.mem_children_of_up hup).1, SyntaxTree.lt_size_of_up hup⟩
  · intro c hpos hc
    exact hl.exists_count_children hordered hpos hc
  · have hsize : tree.size = 1 + parsed.below.kept := SyntaxTree.size_ofParse source parsed
    have hkept := parsed.below.kept_le_size
    omega

/-- A list in brackets: the brackets and the list itself have no names. -/
def bracketed : ParseTree :=
  let span : Span := ⟨0, 7, ⟨0, 0⟩, ⟨0, 7⟩⟩
  let leaf := fun kind after => Forest.cons ⟨kind, none, true, false, span⟩ .nil after
  ⟨⟨"module", none, false, false, span⟩,
    .cons ⟨"call", none, true, false, span⟩
      (leaf "name" (.cons ⟨"list", none, false, false, span⟩
        (.cons ⟨"[", none, false, false, span⟩ .nil (leaf "first" (leaf "second" .nil))) .nil))
      (leaf "comment" .nil)⟩

/-- The members of the nameless list are children of the call around it. -/
theorem links_and_intervals_agree_bracketed :
    let tree := SyntaxTree.ofParse "f [a, b]" bracketed
    tree.size = 6 ∧ (tree.node 1).children = [2, 3, 4] ∧ tree.Up 4 1 ∧
      Relation.TransGen tree.Up 4 0 ∧ ¬ Relation.TransGen tree.Up 5 1 := by
  intro tree
  obtain ⟨-, -, -, hchildren, -, -, hdescendants, -⟩ :=
    links_and_intervals_agree "f [a, b]" bracketed
  refine ⟨by decide +kernel, by decide +kernel, ?_, ?_, ?_⟩
  · exact (hchildren 1 4).mp (by decide +kernel)
  · exact (hdescendants 0 4).mp (by decide +kernel)
  · intro habove
    exact absurd ((hdescendants 1 5).mpr habove) (by decide +kernel)

end CodeBlocks
