import CodeBlocks.Locate
import CodeBlocks.Proofs.SyntaxTree.Descent
import Mathlib.Order.Bounds.Basic

/-! # Lookup by offset — the smallest enclosing block

    A lookup goes down to the deepest node that spans the offset and from
    there up to the first node accepted.  On a consistent tree this is a
    search over all nodes: of the accepted nodes around the offset it
    finds the last one in pre-order, and the others are its ancestors.

    The two halves of a lookup count ends differently: going down, the end
    of a node is not part of it; going up, it is.  Only the root can tell
    them apart, since every other node on the way up was gone down to. -/

namespace CodeBlocks

namespace SyntaxTree

open Relation

/-- The nodes below the root of an accepted kind that span an offset. -/
def around (tree : SyntaxTree) (accepts : String → Bool) (offset : Nat) : Set Nat :=
  {i | 0 < i ∧ i < tree.size ∧ accepts (tree.node i).kind = true ∧
    (tree.node i).span.startByte ≤ offset ∧ offset < (tree.node i).span.endByte}

instance (tree : SyntaxTree) (accepts : String → Bool) (offset i : Nat) :
    Decidable (i ∈ tree.around accepts offset) :=
  inferInstanceAs (Decidable (_ ∧ _))

/-- What a lookup is to find: the last of the nodes around the offset, all others being
    above it; and without any, the root if it is accepted and contains the offset. -/
structure IsSmallest (tree : SyntaxTree) (accepts : String → Bool) (offset : Nat)
    (found : Option Nat) : Prop where
  below : (tree.around accepts offset).Nonempty →
    ∃ j, found = some j ∧ IsGreatest (tree.around accepts offset) j ∧
      ∀ i ∈ tree.around accepts offset, i ≠ j → tree.Above i j
  root : tree.around accepts offset = ∅ →
    found = if accepts (tree.node 0).kind = true ∧ (tree.node 0).span.startByte ≤ offset ∧
        offset ≤ (tree.node 0).span.endByte then some 0 else none

/-- Whether the way up stops at a node. -/
def stopsAt (tree : SyntaxTree) (accepts : String → Bool) (offset i : Nat) : Bool :=
  (tree.node i).containsOffset offset && accepts (tree.node i).kind

theorem isGreatest_of_find? {l : List Nat} (h : l.Pairwise (· > ·)) {p : Nat → Bool} {j : Nat}
    (hfind : l.find? p = some j) : IsGreatest {i | i ∈ l ∧ p i = true} j := by
  obtain ⟨hj, before, after, rfl, hbefore⟩ := List.find?_eq_some_iff_append.mp hfind
  refine ⟨⟨by simp, hj⟩, ?_⟩
  rintro i ⟨hi, hp⟩
  rcases List.mem_append.mp hi with hi | hi
  · have hnot := hbefore i hi
    rw [hp] at hnot
    cases hnot
  · rcases List.mem_cons.mp hi with rfl | hi
    · exact Nat.le_refl i
    · exact Nat.le_of_lt (List.rel_of_pairwise_cons (List.pairwise_append.mp h).2.1 hi)

variable {tree : SyntaxTree} (h : tree.Linked) (hc : tree.Consistent)

include h hc

/-- The nodes around an offset are on the way up from the deepest node at it. -/
theorem mem_lineage_of_mem_around {accepts : String → Bool} {offset i : Nat}
    (hi : i ∈ tree.around accepts offset) :
    i ∈ tree.lineage (tree.deepestAtOffset 0 offset) := by
  obtain ⟨hpos, hsize, -, hspans⟩ := hi
  rw [h.mem_lineage]
  exact h.steps_of_spans (hc.laminar offset 0) (h.steps_zero hsize) (Nat.ne_of_gt hpos)
    (spansOffset_iff.mpr hspans)

/-- Below the root the way up from the deepest node spans the offset. -/
theorem spans_of_mem_lineage {offset i : Nat}
    (hi : i ∈ tree.lineage (tree.deepestAtOffset 0 offset)) (hpos : 0 < i) :
    i < tree.size ∧ (tree.node i).spansOffset offset = true := by
  rw [h.mem_lineage] at hi
  have hle := h.le_of_steps hi
  obtain ⟨hdown, -⟩ := h.descend_steps (Node.spansOffset offset) 0
  have hspans : (tree.node (tree.deepestAtOffset 0 offset)).spansOffset offset = true :=
    (eq_or_spans_of_down hdown).resolve_left (Nat.ne_of_gt (Nat.lt_of_lt_of_le hpos hle))
  have hsize : tree.deepestAtOffset 0 offset < tree.size := by
    refine Nat.lt_of_not_le fun hout => ?_
    rw [node_eq_blank hout, spansOffset_iff] at hspans
    exact Nat.not_lt_zero _ hspans.2
  have hlt := Nat.lt_of_le_of_lt hle hsize
  exact ⟨hlt, h.spans_of_steps (hc.laminar offset 0) hspans hi (h.steps_zero hlt)⟩

/-- On the way up it stops at a node below the root exactly if this is around the
    offset. -/
theorem stopsAt_iff_mem_around {accepts : String → Bool} {offset i : Nat}
    (hi : i ∈ tree.lineage (tree.deepestAtOffset 0 offset)) (hpos : 0 < i) :
    tree.stopsAt accepts offset i = true ↔ i ∈ tree.around accepts offset := by
  obtain ⟨hsize, hspans⟩ := spans_of_mem_lineage h hc hi hpos
  rw [spansOffset_iff] at hspans
  have hcontains : (tree.node i).containsOffset offset = true :=
    decide_eq_true ⟨hspans.1, Nat.le_of_lt hspans.2⟩
  rw [stopsAt, hcontains, Bool.true_and]
  constructor
  · intro haccepts
    exact ⟨hpos, hsize, haccepts, hspans⟩
  · intro haround
    exact haround.2.2.1

omit h hc in
theorem stopsAt_zero_iff {accepts : String → Bool} {offset : Nat} :
    tree.stopsAt accepts offset 0 = true ↔ accepts (tree.node 0).kind = true ∧
      (tree.node 0).span.startByte ≤ offset ∧ offset ≤ (tree.node 0).span.endByte := by
  rw [stopsAt, Node.containsOffset, Bool.and_eq_true, decide_eq_true_iff, and_comm]

/-- **Going down and then up finds the smallest accepted node around an offset.** -/
theorem isSmallest_enclosing? (accepts : String → Bool) (offset : Nat) :
    tree.IsSmallest accepts offset
      (tree.enclosing? accepts (tree.deepestAtOffset 0 offset) offset) := by
  obtain ⟨hdown, -⟩ := h.descend_steps (Node.spansOffset offset) 0
  have hzero : 0 ∈ tree.lineage (tree.deepestAtOffset 0 offset) :=
    h.mem_lineage.mpr (h.steps_of_down hdown)
  have haround : ∀ i ∈ tree.around accepts offset,
      i ∈ tree.lineage (tree.deepestAtOffset 0 offset) ∧ tree.stopsAt accepts offset i = true := by
    intro i hi
    have hmem := mem_lineage_of_mem_around h hc hi
    exact ⟨hmem, (stopsAt_iff_mem_around h hc hmem hi.1).mpr hi⟩
  show tree.IsSmallest accepts offset
    ((tree.lineage (tree.deepestAtOffset 0 offset)).find? (tree.stopsAt accepts offset))
  -- it stops nowhere, at the root, or below the root
  cases hfind : (tree.lineage (tree.deepestAtOffset 0 offset)).find?
      (tree.stopsAt accepts offset) with
  | none =>
      have hnone := List.find?_eq_none.mp hfind
      constructor
      · rintro ⟨s, hs⟩
        obtain ⟨hmem, hstops⟩ := haround s hs
        exact absurd hstops (hnone s hmem)
      · intro _
        rw [if_neg (fun hroot => hnone 0 hzero (stopsAt_zero_iff.mpr hroot))]
  | some j =>
      obtain ⟨⟨hmem, hstops⟩, hgreatest⟩ := isGreatest_of_find? (h.pairwise_lineage _) hfind
      rcases Nat.eq_zero_or_pos j with rfl | hpos
      · constructor
        · rintro ⟨s, hs⟩
          exact absurd (hgreatest (haround s hs)) (Nat.not_le.mpr hs.1)
        · intro _
          rw [if_pos (stopsAt_zero_iff.mp hstops)]
      · have hj := (stopsAt_iff_mem_around h hc hmem hpos).mp hstops
        constructor
        · intro _
          refine ⟨j, rfl, ⟨hj, fun i hi => hgreatest (haround i hi)⟩, ?_⟩
          intro i hi hne
          have hlt : i < j := Nat.lt_of_le_of_ne (hgreatest (haround i hi)) hne
          exact h.above_of_steps (h.mem_lineage.mp (haround i hi).1) (h.mem_lineage.mp hmem) hlt
        · intro hempty
          rw [hempty] at hj
          exact absurd hj (Set.notMem_empty j)

end SyntaxTree

/-- **An offset is looked up to the smallest enclosing block, and to the smallest enclosing
    function**, in every consistent flattened tree and with every taxonomy. -/
theorem offset_lookup_finds_smallest (source : String) (parsed : ParseTree)
    (hc : (SyntaxTree.ofParse source parsed).Consistent) (t : Taxonomy) (offset : Nat) :
    let tree := SyntaxTree.ofParse source parsed
    tree.IsSmallest t.isBlock offset
      (t.enclosingBlock? tree (tree.deepestAtOffset 0 offset) offset) ∧
    tree.IsSmallest t.isFunction offset
      (t.enclosingFunction? tree (tree.deepestAtOffset 0 offset) offset) := by
  have h := SyntaxTree.linked_ofParse source parsed
  exact ⟨SyntaxTree.isSmallest_enclosing? h hc t.isBlock offset,
    SyntaxTree.isSmallest_enclosing? h hc t.isFunction offset⟩

/-- Two functions on two lines, with a branch in the body of the first. -/
def twoFunctions : ParseTree :=
  let node := fun (kind : String) (named : Bool) (first last row column : Nat) =>
    (⟨kind, none, named, false,
      ⟨first, last, ⟨row, column⟩, ⟨row, column + (last - first)⟩⟩⟩ : EngineNode)
  ⟨⟨"module", none, true, false, ⟨0, 24, ⟨0, 0⟩, ⟨1, 9⟩⟩⟩,
    .cons (node "function_definition" true 0 14 0 0)
      (.cons (node "def" false 0 3 0 0) .nil
        (.cons (node "block" true 8 14 0 8)
          (.cons (node "if_statement" true 8 14 0 8) .nil .nil) .nil))
      (.cons (node "function_definition" true 15 24 1 0) .nil .nil)⟩

/-- In the branch the branch is found, with the first function above it; on the line feed after
    it nothing is found, though both of them end there. -/
theorem offset_lookup_twoFunctions :
    let tree := SyntaxTree.ofParse "def f():if x:y\ndef g():z" twoFunctions
    tree.Consistent ∧
      Taxonomy.python.enclosingBlock? tree (tree.deepestAtOffset 0 9) 9 = some 3 ∧
      tree.Above 1 3 ∧
      Taxonomy.python.enclosingFunction? tree (tree.deepestAtOffset 0 14) 14 = none := by
  intro tree
  have hc : tree.Consistent := by decide +kernel
  have hsize : tree.size = 5 := by decide +kernel
  obtain ⟨hblock, -⟩ := offset_lookup_finds_smallest _ twoFunctions hc Taxonomy.python 9
  obtain ⟨-, hfunction⟩ := offset_lookup_finds_smallest _ twoFunctions hc Taxonomy.python 14
  obtain ⟨j, hfound, hj, habove⟩ := hblock.below ⟨3, by decide +kernel⟩
  have hlast : ∀ i < 5, i ∈ tree.around Taxonomy.python.isBlock 9 → i ≤ 3 := by decide +kernel
  obtain rfl : j = 3 :=
    Nat.le_antisymm (hlast j (hsize ▸ hj.1.2.1) hj.1) (hj.2 (by decide +kernel))
  have hnone : ∀ i < 5, i ∉ tree.around Taxonomy.python.isFunction 14 := by decide +kernel
  have hempty := Set.eq_empty_of_forall_notMem
    fun i (hi : i ∈ tree.around Taxonomy.python.isFunction 14) => hnone i (hsize ▸ hi.2.1) hi
  refine ⟨hc, hfound, habove 1 (by decide +kernel) (by decide), ?_⟩
  rw [hfunction.root hempty]
  exact if_neg (by decide +kernel)

end CodeBlocks
