import CodeBlocks.Proofs.SyntaxTree.Flattening

/-! # Links of a flattened tree — parents and children agree

    A flattened tree holds each link twice: the child knows its parent, and
    the parent lists the child.  `Linked` says that the two agree, and that
    parents come first.  It is read off the arena by induction over the
    forest, one lemma for each direction of a link.

    The ancestors of a node are what one or more steps to the parent reach;
    `lineage` lists them, nearest first, in falling numbers. -/

namespace CodeBlocks

namespace Forest

/-! ## The arena with its numbers -/

/-- The named nodes below `parent` with their numbers, from `next` on. -/
def numbered (parent next : Nat) (forest : Forest) : List (Node × Nat) :=
  (forest.arena parent next).zipIdx next

theorem numbered_cons_of_named {node : EngineNode} (hnamed : node.named = true)
    (below after : Forest) (parent next : Nat) :
    (cons node below after).numbered parent next
      = (⟨node.kind, node.field, node.span, node.hasError, some parent, below.tops (next + 1),
          next + 1 + below.kept⟩, next)
        :: (below.numbered next (next + 1)
          ++ after.numbered parent (next + 1 + below.kept)) := by
  simp [numbered, arena, hnamed, List.zipIdx_append]

theorem numbered_cons_of_not_named {node : EngineNode} (hnamed : ¬ node.named = true)
    (below after : Forest) (parent next : Nat) :
    (cons node below after).numbered parent next
      = below.numbered parent next ++ after.numbered parent (next + below.kept) := by
  simp [numbered, arena, hnamed, List.zipIdx_append]

theorem le_of_mem_numbered {parent next i : Nat} {node : Node} {forest : Forest}
    (h : (node, i) ∈ forest.numbered parent next) : next ≤ i :=
  List.le_snd_of_mem_zipIdx h

/-- The topmost nodes are kept with the parent they were given. -/
theorem exists_numbered_of_mem_tops {parent next c : Nat} {forest : Forest}
    (h : c ∈ forest.tops next) :
    ∃ child, (child, c) ∈ forest.numbered parent next ∧ child.parent = some parent := by
  induction forest generalizing next with
  | nil => cases h
  | cons node below after ihBelow ihAfter =>
      by_cases hnamed : node.named = true
      · rw [numbered_cons_of_named hnamed]
        rw [tops, if_pos hnamed] at h
        rcases List.mem_cons.mp h with rfl | hafter
        · exact ⟨_, List.mem_cons_self, rfl⟩
        · obtain ⟨child, hmem, hparent⟩ := ihAfter hafter
          exact ⟨child, List.mem_cons_of_mem _ (List.mem_append_right _ hmem), hparent⟩
      · rw [numbered_cons_of_not_named hnamed]
        rw [tops, if_neg hnamed] at h
        rcases List.mem_append.mp h with hbelow | hafter
        · obtain ⟨child, hmem, hparent⟩ := ihBelow hbelow
          exact ⟨child, List.mem_append_left _ hmem, hparent⟩
        · obtain ⟨child, hmem, hparent⟩ := ihAfter hafter
          exact ⟨child, List.mem_append_right _ hmem, hparent⟩

/-- Each child listed by a kept node is kept after it and names it as its parent. -/
theorem exists_numbered_of_mem_children {parent next p c : Nat} {node : Node} {forest : Forest}
    (h : (node, p) ∈ forest.numbered parent next) (hc : c ∈ node.children) :
    ∃ child, (child, c) ∈ forest.numbered parent next ∧ child.parent = some p ∧ p < c := by
  induction forest generalizing parent next with
  | nil => cases h
  | cons top below after ihBelow ihAfter =>
      by_cases hnamed : top.named = true
      · rw [numbered_cons_of_named hnamed] at h ⊢
        rcases List.mem_cons.mp h with heq | hrest
        · cases heq
          obtain ⟨child, hmem, hparent⟩ := exists_numbered_of_mem_tops hc
          exact ⟨child, List.mem_cons_of_mem _ (List.mem_append_left _ hmem), hparent,
            le_of_mem_numbered hmem⟩
        · rcases List.mem_append.mp hrest with hbelow | hafter
          · obtain ⟨child, hmem, hlink⟩ := ihBelow hbelow
            exact ⟨child, List.mem_cons_of_mem _ (List.mem_append_left _ hmem), hlink⟩
          · obtain ⟨child, hmem, hlink⟩ := ihAfter hafter
            exact ⟨child, List.mem_cons_of_mem _ (List.mem_append_right _ hmem), hlink⟩
      · rw [numbered_cons_of_not_named hnamed] at h ⊢
        rcases List.mem_append.mp h with hbelow | hafter
        · obtain ⟨child, hmem, hlink⟩ := ihBelow hbelow
          exact ⟨child, List.mem_append_left _ hmem, hlink⟩
        · obtain ⟨child, hmem, hlink⟩ := ihAfter hafter
          exact ⟨child, List.mem_append_right _ hmem, hlink⟩

/-- Each kept node is a topmost one, or is listed by the kept node it names as its
    parent. -/
theorem parent_of_mem_numbered {parent next c : Nat} {child : Node} {forest : Forest}
    (h : (child, c) ∈ forest.numbered parent next) :
    (child.parent = some parent ∧ c ∈ forest.tops next) ∨
    ∃ node p, (node, p) ∈ forest.numbered parent next ∧ child.parent = some p ∧ p < c ∧
      c ∈ node.children := by
  induction forest generalizing parent next with
  | nil => cases h
  | cons top below after ihBelow ihAfter =>
      by_cases hnamed : top.named = true
      · rw [numbered_cons_of_named hnamed] at h ⊢
        rw [tops, if_pos hnamed]
        -- the node itself is topmost; what is topmost below it, it lists
        rcases List.mem_cons.mp h with heq | hrest
        · cases heq
          exact .inl ⟨rfl, List.mem_cons_self⟩
        · rcases List.mem_append.mp hrest with hbelow | hafter
          · rcases ihBelow hbelow with ⟨hparent, htop⟩ | ⟨node, p, hmem, hlink⟩
            · exact .inr ⟨_, next, List.mem_cons_self, hparent, le_of_mem_numbered hbelow, htop⟩
            · exact .inr ⟨node, p, List.mem_cons_of_mem _ (List.mem_append_left _ hmem), hlink⟩
          · rcases ihAfter hafter with ⟨hparent, htop⟩ | ⟨node, p, hmem, hlink⟩
            · exact .inl ⟨hparent, List.mem_cons_of_mem _ htop⟩
            · exact .inr ⟨node, p, List.mem_cons_of_mem _ (List.mem_append_right _ hmem), hlink⟩
      · rw [numbered_cons_of_not_named hnamed] at h ⊢
        rw [tops, if_neg hnamed]
        rcases List.mem_append.mp h with hbelow | hafter
        · rcases ihBelow hbelow with ⟨hparent, htop⟩ | ⟨node, p, hmem, hlink⟩
          · exact .inl ⟨hparent, List.mem_append_left _ htop⟩
          · exact .inr ⟨node, p, List.mem_append_left _ hmem, hlink⟩
        · rcases ihAfter hafter with ⟨hparent, htop⟩ | ⟨node, p, hmem, hlink⟩
          · exact .inl ⟨hparent, List.mem_append_right _ htop⟩
          · exact .inr ⟨node, p, List.mem_append_right _ hmem, hlink⟩

end Forest

namespace SyntaxTree

/-! ## Linked trees -/

/-- A tree whose parents come before their children and agree with them on their links. -/
structure Linked (tree : SyntaxTree) : Prop where
  size_pos : 0 < tree.size
  root : (tree.node 0).parent = none
  parent : ∀ i, 0 < i → i < tree.size →
    ∃ p < i, (tree.node i).parent = some p ∧ i ∈ (tree.node p).children
  child : ∀ i, ∀ c ∈ (tree.node i).children,
    i < c ∧ c < tree.size ∧ (tree.node c).parent = some i

/-- The node of a number that is in use. -/
theorem node_eq_iff {tree : SyntaxTree} {i : Nat} {node : Node} :
    (node, i) ∈ tree.nodes.toList.zipIdx ↔ i < tree.size ∧ tree.node i = node := by
  rw [List.mk_mem_zipIdx_iff_getElem?, Array.getElem?_toList, Array.getElem?_eq_some_iff,
    SyntaxTree.node, Array.getD_eq_getD_getElem?]
  constructor
  · rintro ⟨hi, heq⟩
    exact ⟨hi, by rw [Array.getElem?_eq_getElem hi]; exact heq⟩
  · rintro ⟨hi, heq⟩
    rw [Array.getElem?_eq_getElem hi] at heq
    exact ⟨hi, heq⟩

theorem node_eq_blank {tree : SyntaxTree} {i : Nat} (h : tree.size ≤ i) :
    tree.node i = Node.blank := by
  rw [SyntaxTree.node, Array.getD_eq_getD_getElem?, Array.getElem?_eq_none h]
  rfl

theorem lt_size_of_mem_children {tree : SyntaxTree} {i c : Nat}
    (h : c ∈ (tree.node i).children) : i < tree.size := by
  refine Nat.lt_of_not_le fun hout => ?_
  rw [node_eq_blank hout] at h
  cases h

section OfParse

variable (source : String) (parsed : ParseTree)

/-- The nodes of a flattened tree with their numbers: the root and what is below it. -/
theorem zipIdx_nodes_ofParse :
    (ofParse source parsed).nodes.toList.zipIdx
      = (⟨parsed.root.kind, parsed.root.field, parsed.root.span, parsed.root.hasError, none,
          parsed.below.tops 1, 1 + parsed.below.kept⟩, 0) :: parsed.below.numbered 0 1 := by
  show parsed.nodes.toList.zipIdx = _
  rw [parsed.toList_nodes]
  rfl

/-- The root is in use; it has no parent and lists the topmost nodes. -/
theorem node_ofParse_zero :
    0 < (ofParse source parsed).size ∧ ((ofParse source parsed).node 0).parent = none ∧
      ((ofParse source parsed).node 0).children = parsed.below.tops 1 := by
  obtain ⟨hpos, hroot⟩ :=
    node_eq_iff.mp (zipIdx_nodes_ofParse source parsed ▸ List.mem_cons_self)
  rw [hroot]
  exact ⟨hpos, rfl, rfl⟩

/-- Every other number in use is that of a node below the root. -/
theorem mem_numbered_iff {i : Nat} {node : Node} (hi : 0 < i) :
    (node, i) ∈ parsed.below.numbered 0 1
      ↔ i < (ofParse source parsed).size ∧ (ofParse source parsed).node i = node := by
  rw [← node_eq_iff, zipIdx_nodes_ofParse, List.mem_cons]
  constructor
  · intro h
    exact .inr h
  · rintro (heq | h)
    · have hzero : i = 0 := (Prod.mk.inj heq).2
      omega
    · exact h

/-- **A flattened tree is linked.** -/
theorem linked_ofParse : (ofParse source parsed).Linked := by
  obtain ⟨hpos, hroot, htops⟩ := node_ofParse_zero source parsed
  refine ⟨hpos, hroot, fun i hi hsize => ?_, fun i c hc => ?_⟩
  · have hentry := (mem_numbered_iff source parsed hi).mpr ⟨hsize, rfl⟩
    rcases Forest.parent_of_mem_numbered hentry with ⟨hparent, htop⟩ | ⟨node, p, hp, hlink⟩
    · exact ⟨0, hi, hparent, htops ▸ htop⟩
    · obtain ⟨hparent, hlt, hchild⟩ := hlink
      obtain ⟨-, rfl⟩ := (mem_numbered_iff source parsed (Forest.le_of_mem_numbered hp)).mp hp
      exact ⟨p, hlt, hparent, hchild⟩
  · -- the root lists the topmost nodes, every other node what the forest says
    have hlisted : ∃ child, (child, c) ∈ parsed.below.numbered 0 1 ∧
        child.parent = some i ∧ i < c := by
      rcases Nat.eq_zero_or_pos i with rfl | hi
      · rw [htops] at hc
        obtain ⟨child, hmem, hparent⟩ := Forest.exists_numbered_of_mem_tops hc
        exact ⟨child, hmem, hparent, Forest.le_of_mem_numbered hmem⟩
      · exact Forest.exists_numbered_of_mem_children
          ((mem_numbered_iff source parsed hi).mpr ⟨lt_size_of_mem_children hc, rfl⟩) hc
    obtain ⟨child, hmem, hparent, hlt⟩ := hlisted
    obtain ⟨hsize, rfl⟩ := (mem_numbered_iff source parsed (Nat.zero_lt_of_lt hlt)).mp hmem
    exact ⟨hlt, hsize, hparent⟩

end OfParse

/-! ## Ancestors -/

/-- One step from a node to its parent. -/
def Up (tree : SyntaxTree) (i p : Nat) : Prop := (tree.node i).parent = some p

/-- `i` is a proper ancestor of `j`. -/
def Above (tree : SyntaxTree) (i j : Nat) : Prop := Relation.TransGen tree.Up j i

theorem up_rightUnique (tree : SyntaxTree) : Relator.RightUnique tree.Up := by
  intro i p q hp hq
  exact Option.some.inj (hp.symm.trans hq)

/-- A node with a parent is in use. -/
theorem lt_size_of_up {tree : SyntaxTree} {i p : Nat} (hup : tree.Up i p) : i < tree.size := by
  refine Nat.lt_of_not_le fun hout => ?_
  rw [Up, node_eq_blank hout] at hup
  cases hup

namespace Linked

variable {tree : SyntaxTree} (h : tree.Linked)

include h

/-- A parent comes before its child and lists it. -/
theorem mem_children_of_up {i p : Nat} (hup : tree.Up i p) :
    p < i ∧ i ∈ (tree.node p).children := by
  have hpos : 0 < i := by
    refine Nat.pos_of_ne_zero ?_
    rintro rfl
    cases h.root.symm.trans hup
  have hsize : i < tree.size := lt_size_of_up hup
  obtain ⟨q, hlt, hq, hmem⟩ := h.parent i hpos hsize
  obtain rfl := tree.up_rightUnique hq hup
  exact ⟨hlt, hmem⟩

/-- Steps to parents never raise the number. -/
theorem le_of_steps {i j : Nat} (hsteps : Relation.ReflTransGen tree.Up i j) : j ≤ i := by
  induction hsteps with
  | refl => exact Nat.le_refl i
  | tail _ hup ih => exact Nat.le_of_lt (Nat.lt_of_lt_of_le (h.mem_children_of_up hup).1 ih)

/-- An ancestor has a smaller number. -/
theorem lt_of_above {i j : Nat} (habove : tree.Above i j) : i < j := by
  obtain ⟨c, hsteps, hup⟩ := Relation.TransGen.tail'_iff.mp habove
  exact Nat.lt_of_lt_of_le (h.mem_children_of_up hup).1 (h.le_of_steps hsteps)

/-- Steps to parents from a node in use end at the root. -/
theorem steps_zero {i : Nat} (hi : i < tree.size) : Relation.ReflTransGen tree.Up i 0 := by
  induction i using Nat.strongRecOn with
  | ind i ih =>
      rcases Nat.eq_zero_or_pos i with rfl | hpos
      · exact .refl
      · obtain ⟨p, hlt, hup, -⟩ := h.parent i hpos hi
        exact .head hup (ih p hlt (Nat.lt_trans hlt hi))

theorem mem_lineageWithin {fuel i j : Nat} (hi : i < fuel) :
    j ∈ tree.lineageWithin fuel i ↔ Relation.ReflTransGen tree.Up i j := by
  induction fuel generalizing i with
  | zero => exact absurd hi (Nat.not_lt_zero i)
  | succ fuel ih =>
      rw [Relation.ReflTransGen.cases_head_iff, lineageWithin]
      cases hparent : (tree.node i).parent with
      | none => simp [Up, hparent, eq_comm]
      | some p =>
          have hlt := (h.mem_children_of_up hparent).1
          have hp : p < fuel := Nat.lt_of_lt_of_le hlt (Nat.le_of_lt_succ hi)
          simp [Up, hparent, ih hp, eq_comm]

theorem pairwise_lineageWithin {fuel i : Nat} (hi : i < fuel) :
    (tree.lineageWithin fuel i).Pairwise (· > ·) := by
  induction fuel generalizing i with
  | zero => exact absurd hi (Nat.not_lt_zero i)
  | succ fuel ih =>
      rw [lineageWithin]
      cases hparent : (tree.node i).parent with
      | none => exact List.pairwise_singleton _ _
      | some p =>
          have hlt := (h.mem_children_of_up hparent).1
          have hp : p < fuel := Nat.lt_of_lt_of_le hlt (Nat.le_of_lt_succ hi)
          refine List.pairwise_cons.mpr ⟨fun j hj => ?_, ih hp⟩
          exact Nat.lt_of_le_of_lt (h.le_of_steps ((h.mem_lineageWithin hp).mp hj)) hlt

/-- A lineage lists the node and its ancestors. -/
theorem mem_lineage {i j : Nat} :
    j ∈ tree.lineage i ↔ Relation.ReflTransGen tree.Up i j :=
  h.mem_lineageWithin (Nat.lt_succ_self i)

theorem pairwise_lineage (i : Nat) : (tree.lineage i).Pairwise (· > ·) :=
  h.pairwise_lineageWithin (Nat.lt_succ_self i)

/-- Of two ancestors of a node, the smaller number is the one above. -/
theorem above_of_steps {i j k : Nat} (hi : Relation.ReflTransGen tree.Up k i)
    (hj : Relation.ReflTransGen tree.Up k j) (hlt : i < j) : tree.Above i j := by
  have hsteps : Relation.ReflTransGen tree.Up j i := by
    -- parents are unique, so one of the two is reached from the other
    rcases hi.total_of_right_unique tree.up_rightUnique hj with hij | hji
    · exact absurd (h.le_of_steps hij) (Nat.not_le.mpr hlt)
    · exact hji
  rcases Relation.reflTransGen_iff_eq_or_transGen.mp hsteps with rfl | habove
  · exact absurd hlt (Nat.lt_irrefl i)
  · exact habove

end Linked

end SyntaxTree

end CodeBlocks
