import CodeBlocks.Proofs.SyntaxTree.Links

/-! # Subtrees — the numbers after a node up to the end of its subtree

    Nodes are numbered in pre-order, so what is below a node has the
    numbers right after it, up to its `subtreeEnd`.  `Nested` ties these
    intervals to the parent links: a later node lies in the interval of
    `i` exactly if its parent is `i` or lies there too.  By induction
    along the parents, the descendants of `i` are the nodes that have `i`
    above them. -/

namespace CodeBlocks

namespace Forest

/-- A kept node's subtree ends after the node and within the forest. -/
theorem subtreeEnd_bounds {parent next i : Nat} {node : Node} {forest : Forest}
    (h : (node, i) ∈ forest.numbered parent next) :
    i < node.subtreeEnd ∧ node.subtreeEnd ≤ next + forest.kept := by
  induction forest generalizing parent next with
  | nil => cases h
  | cons top below after ihBelow ihAfter =>
      by_cases hnamed : top.named = true
      · rw [numbered_cons_of_named hnamed] at h
        rw [kept, if_pos hnamed]
        rcases List.mem_cons.mp h with heq | hrest
        · cases heq
          show i < i + 1 + below.kept ∧ i + 1 + below.kept ≤ i + (1 + below.kept + after.kept)
          omega
        · rcases List.mem_append.mp hrest with hbelow | hafter
          · have hbounds := ihBelow hbelow
            omega
          · have hbounds := ihAfter hafter
            omega
      · rw [numbered_cons_of_not_named hnamed] at h
        rw [kept, if_neg hnamed]
        rcases List.mem_append.mp h with hbelow | hafter
        · have hbounds := ihBelow hbelow
          omega
        · have hbounds := ihAfter hafter
          omega

/-- A kept node's parent is the one the forest was given, or is kept before it. -/
theorem parent_eq_or_le {parent next j p : Nat} {node : Node} {forest : Forest}
    (h : (node, j) ∈ forest.numbered parent next) (hp : node.parent = some p) :
    p = parent ∨ (next ≤ p ∧ p < j) := by
  rcases parent_of_mem_numbered h with ⟨hparent, -⟩ | ⟨above, q, hq, hparent, hlt, -⟩
  · exact .inl (Option.some.inj (hp.symm.trans hparent))
  · obtain rfl : p = q := Option.some.inj (hp.symm.trans hparent)
    exact .inr ⟨le_of_mem_numbered hq, hlt⟩

/-- A later forest lies outside an earlier subtree, and so do the parents in it. -/
theorem outside_of_le {parent next i stop j p : Nat} {later : Node} {forest : Forest}
    (hparent : parent < i) (hstop : stop ≤ next)
    (hj : (later, j) ∈ forest.numbered parent next) (hp : later.parent = some p) :
    j < stop ↔ i ≤ p ∧ p < stop := by
  have hle := le_of_mem_numbered hj
  have hcases := parent_eq_or_le hj hp
  omega

/-- Whether a later node lies in a subtree is settled within each of two forests side by
    side. -/
theorem lt_subtreeEnd_iff_append {above parent next i j p : Nat} {node later : Node}
    {below after : Forest} (hparent : parent < next)
    (hbelow : (node, i) ∈ below.numbered above next → (later, j) ∈ below.numbered above next →
      (j < node.subtreeEnd ↔ i ≤ p ∧ p < node.subtreeEnd))
    (hafter : (node, i) ∈ after.numbered parent (next + below.kept) →
      (later, j) ∈ after.numbered parent (next + below.kept) →
      (j < node.subtreeEnd ↔ i ≤ p ∧ p < node.subtreeEnd))
    (hi : (node, i) ∈ below.numbered above next ++ after.numbered parent (next + below.kept))
    (hj : (later, j) ∈ below.numbered above next ++ after.numbered parent (next + below.kept))
    (hlt : i < j) (hp : later.parent = some p) :
    j < node.subtreeEnd ↔ i ≤ p ∧ p < node.subtreeEnd := by
  rcases List.mem_append.mp hi with hi | hi <;> rcases List.mem_append.mp hj with hj | hj
  · exact hbelow hi hj
  · have hle := le_of_mem_numbered hi
    exact outside_of_le (Nat.lt_of_lt_of_le hparent hle) (subtreeEnd_bounds hi).2 hj hp
  · have hle := le_of_mem_numbered hi
    have hbounds := subtreeEnd_bounds hj
    omega
  · exact hafter hi hj

/-- **A later node lies in a subtree exactly if its parent does.** -/
theorem lt_subtreeEnd_iff {parent next i j p : Nat} {node later : Node} {forest : Forest}
    (hparent : parent < next) (hi : (node, i) ∈ forest.numbered parent next)
    (hj : (later, j) ∈ forest.numbered parent next) (hlt : i < j) (hp : later.parent = some p) :
    j < node.subtreeEnd ↔ i ≤ p ∧ p < node.subtreeEnd := by
  induction forest generalizing parent next with
  | nil => cases hi
  | cons top below after ihBelow ihAfter =>
      by_cases hnamed : top.named = true
      · rw [numbered_cons_of_named hnamed] at hi hj
        rcases List.mem_cons.mp hj with heq | hj
        · -- the top node has the least number, so it is not the later one
          have hle : next ≤ i := by
            rcases List.mem_cons.mp hi with heq | hi
            · exact Nat.le_of_eq (Prod.mk.inj heq).2.symm
            · rcases List.mem_append.mp hi with hi | hi
              · exact Nat.le_of_succ_le (le_of_mem_numbered hi)
              · have hnext := le_of_mem_numbered hi
                omega
          have hnext := (Prod.mk.inj heq).2
          omega
        · rcases List.mem_cons.mp hi with heq | hi
          · cases heq
            show j < i + 1 + below.kept ↔ i ≤ p ∧ p < i + 1 + below.kept
            rcases List.mem_append.mp hj with hj | hj
            · have hbounds := subtreeEnd_bounds hj
              have hcases := parent_eq_or_le hj hp
              omega
            · exact outside_of_le hparent (Nat.le_refl _) hj hp
          · exact lt_subtreeEnd_iff_append (Nat.lt_succ_of_lt hparent)
              (ihBelow (Nat.lt_succ_self next)) (ihAfter (by omega)) hi hj hlt hp
      · rw [numbered_cons_of_not_named hnamed] at hi hj
        exact lt_subtreeEnd_iff_append hparent (ihBelow hparent) (ihAfter (by omega)) hi hj hlt hp

end Forest

namespace SyntaxTree

/-- A tree whose subtrees are intervals of numbers: each is nonempty and in use, and a later
    node lies in one exactly if its parent does. -/
structure Nested (tree : SyntaxTree) : Prop where
  bounds : ∀ i < tree.size,
    i < (tree.node i).subtreeEnd ∧ (tree.node i).subtreeEnd ≤ tree.size
  parent : ∀ i j p, i < j → tree.Up j p →
    (j < (tree.node i).subtreeEnd ↔ i ≤ p ∧ p < (tree.node i).subtreeEnd)

section OfParse

variable (source : String) (parsed : ParseTree)

/-- The numbers in use are that of the root and those below it. -/
theorem size_ofParse : (ofParse source parsed).size = 1 + parsed.below.kept := by
  show parsed.nodes.size = 1 + parsed.below.kept
  rw [← Array.length_toList, parsed.toList_nodes, ParseTree.arena, List.length_cons,
    Forest.length_arena, Nat.add_comm]

/-- The subtree of the root is the whole tree. -/
theorem subtreeEnd_ofParse_zero :
    ((ofParse source parsed).node 0).subtreeEnd = (ofParse source parsed).size := by
  obtain ⟨-, hroot⟩ := node_eq_iff.mp (zipIdx_nodes_ofParse source parsed ▸ List.mem_cons_self)
  rw [hroot, size_ofParse]

/-- **A flattened tree is nested.** -/
theorem nested_ofParse : (ofParse source parsed).Nested := by
  have hl := linked_ofParse source parsed
  have hzero := subtreeEnd_ofParse_zero source parsed
  constructor
  · intro i hi
    rcases Nat.eq_zero_or_pos i with rfl | hpos
    · rw [hzero]
      exact ⟨hl.size_pos, Nat.le_refl _⟩
    · rw [size_ofParse]
      exact Forest.subtreeEnd_bounds ((mem_numbered_iff source parsed hpos).mpr ⟨hi, rfl⟩)
  · intro i j p hlt hup
    have hj := lt_size_of_up hup
    rcases Nat.eq_zero_or_pos i with rfl | hpos
    · have hp := (hl.mem_children_of_up hup).1
      rw [hzero]
      omega
    · exact Forest.lt_subtreeEnd_iff Nat.zero_lt_one
        ((mem_numbered_iff source parsed hpos).mpr ⟨Nat.lt_trans hlt hj, rfl⟩)
        ((mem_numbered_iff source parsed (Nat.lt_trans hpos hlt)).mpr ⟨hj, rfl⟩) hlt hup

end OfParse

theorem mem_descendants {tree : SyntaxTree} {i j : Nat} :
    j ∈ tree.descendants i ↔ i < j ∧ j < (tree.node i).subtreeEnd := by
  rw [descendants, List.mem_range'_1]
  omega

namespace Nested

variable {tree : SyntaxTree} (h : tree.Nested) (hl : tree.Linked)

include h hl

/-- What has `i` above it lies in the interval of `i`. -/
theorem lt_subtreeEnd_of_above {i j : Nat} (habove : tree.Above i j) :
    i < j ∧ j < (tree.node i).subtreeEnd := by
  induction habove using Relation.TransGen.head_induction_on with
  | @single j hup =>
      obtain ⟨hlt, hmem⟩ := hl.mem_children_of_up hup
      have hi := (h.bounds i (lt_size_of_mem_children hmem)).1
      exact ⟨hlt, (h.parent i j i hlt hup).mpr ⟨Nat.le_refl i, hi⟩⟩
  | @head j p hup _ ih =>
      have hlt := Nat.lt_trans ih.1 (hl.mem_children_of_up hup).1
      exact ⟨hlt, (h.parent i j p hlt hup).mpr ⟨Nat.le_of_lt ih.1, ih.2⟩⟩

/-- What lies in the interval of `i` has `i` above it. -/
theorem above_of_lt_subtreeEnd {i j : Nat} (hi : i < tree.size) (hlt : i < j)
    (hj : j < (tree.node i).subtreeEnd) : tree.Above i j := by
  -- the parent of `j` is `i`, or it lies in the interval and is smaller than `j`
  induction j using Nat.strongRecOn with
  | ind j ih =>
      have hsize := Nat.lt_of_lt_of_le hj (h.bounds i hi).2
      obtain ⟨p, hpj, hup, -⟩ := hl.parent j (Nat.zero_lt_of_lt hlt) hsize
      obtain ⟨hip, hp⟩ := (h.parent i j p hlt hup).mp hj
      rcases Nat.eq_or_lt_of_le hip with rfl | hip
      · exact .single hup
      · exact .head hup (ih p hpj hip hp)

/-- **The descendants of a node are the nodes that have it above them.** -/
theorem mem_descendants_iff {i j : Nat} : j ∈ tree.descendants i ↔ tree.Above i j := by
  rw [mem_descendants]
  constructor
  · rintro ⟨hlt, hj⟩
    have hi : i < tree.size := by
      refine Nat.lt_of_not_le fun hout => ?_
      rw [node_eq_blank hout] at hj
      exact Nat.not_lt_zero j hj
    exact h.above_of_lt_subtreeEnd hl hi hlt hj
  · exact h.lt_subtreeEnd_of_above hl

/-- A node with its descendants is what steps to parents lead from to it. -/
theorem mem_cons_descendants_iff {i j : Nat} :
    j ∈ i :: tree.descendants i ↔ Relation.ReflTransGen tree.Up j i := by
  rw [List.mem_cons, h.mem_descendants_iff hl, Relation.reflTransGen_iff_eq_or_transGen, eq_comm]
  rfl

end Nested

end SyntaxTree

end CodeBlocks
