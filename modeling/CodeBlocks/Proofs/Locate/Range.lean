import CodeBlocks.Proofs.Locate.Listing
import CodeBlocks.Proofs.Locate.Placement
import CodeBlocks.Proofs.SyntaxTree.Coordinates
import Mathlib.Order.Lattice.Nat

/-! # Lookup by range — the first listed block that overlaps

    A lookup by range is a listing that may stop early and leave out
    subtrees.  Where the points of the nodes are in order it loses nothing,
    so it answers with the entry of the first listed node that overlaps
    the range.

    Looking up the range of a listed block never misses.  A block lies in
    the range it is reported over, also when this is the range of the
    declaration that binds it, so the block itself overlaps the range, and
    the answer is its entry or one before it. -/

namespace CodeBlocks

/-- What a search finds stands at the least place where it accepts. -/
theorem find?_eq_getElem?_of_isLeast {α : Type} {l : List α} {p : α → Bool} {k : Nat}
    (h : IsLeast {k | ∃ a, l[k]? = some a ∧ p a = true} k) : l.find? p = l[k]? := by
  obtain ⟨⟨a, ha, hp⟩, hleast⟩ := h
  obtain ⟨hk, heq⟩ := List.getElem?_eq_some_iff.mp ha
  rw [ha, List.find?_eq_some_iff_getElem]
  refine ⟨hp, k, hk, heq, ?_⟩
  intro j hj
  rw [Bool.not_eq_true']
  refine Bool.eq_false_iff.mpr fun haccepts => ?_
  have hle := hleast ⟨_, List.getElem?_eq_getElem (Nat.lt_trans hj hk), haccepts⟩
  omega

namespace SyntaxTree

open Relation

/-- A tree whose points are in order: starts never go back in pre-order, ends do not precede
    starts, children lie within their parent, and rows and columns can be counted from one. -/
structure PointOrdered (tree : SyntaxTree) : Prop where
  starts : (List.range tree.size).IsChain fun a b =>
    (tree.node a).span.start ≤ (tree.node b).span.start
  ordered : ∀ i < tree.size, (tree.node i).span.start ≤ (tree.node i).span.stop
  within : ∀ i < tree.size, ∀ c ∈ (tree.node i).children,
    (tree.node i).span.start ≤ (tree.node c).span.start ∧
      (tree.node c).span.stop ≤ (tree.node i).span.stop
  countable : ∀ i < tree.size,
    (tree.node i).span.start.Countable ∧ (tree.node i).span.stop.Countable

instance (tree : SyntaxTree) : Decidable tree.PointOrdered :=
  decidable_of_iff (_ ∧ _ ∧ _ ∧ _)
    ⟨fun h => ⟨h.1, h.2.1, h.2.2.1, h.2.2.2⟩, fun h => ⟨h.1, h.2, h.3, h.4⟩⟩

namespace PointOrdered

variable {tree : SyntaxTree} (h : tree.PointOrdered) (hl : tree.Linked)

include h hl

/-- Every node lies within the nodes above it. -/
theorem within_of_steps {i a : Nat} (hsteps : ReflTransGen tree.Up i a) :
    (tree.node a).span.start ≤ (tree.node i).span.start ∧
      (tree.node i).span.stop ≤ (tree.node a).span.stop :=
  hl.within_of_steps (·.span.start) (·.span.stop) h.within hsteps

/-- Pruning is safe below the root. -/
theorem orderedBelow_zero (hend : (tree.node 0).subtreeEnd = tree.size) : tree.OrderedBelow 0 := by
  constructor
  · have htail : tree.descendants 0 = (List.range tree.size).tail := by
      rw [descendants, hend, List.range_eq_range', List.tail_range']
    rw [htail]
    exact h.starts.tail
  · intro a _ d habove
    exact (h.within_of_steps hl habove.to_reflTransGen).2

/-- A node overlaps the range of every node above it, and its own. -/
theorem overlaps_ofSpan {i a : Nat} (hi : i < tree.size) (hsteps : ReflTransGen tree.Up i a) :
    (tree.node i).span.start ≤ (TextRange.ofSpan (tree.node a).span).endPoint ∧
      (TextRange.ofSpan (tree.node a).span).startPoint ≤ (tree.node i).span.stop := by
  have ha : a < tree.size := Nat.lt_of_le_of_lt (hl.le_of_steps hsteps) hi
  obtain ⟨hstart, hstop⟩ := h.within_of_steps hl hsteps
  obtain ⟨hcountStart, hcountStop⟩ := h.countable a ha
  have hordered := h.ordered i hi
  constructor
  · calc (tree.node i).span.start
        ≤ (tree.node i).span.stop := hordered
      _ ≤ (tree.node a).span.stop := hstop
      _ ≤ (TextRange.ofSpan (tree.node a).span).endPoint :=
          TextRange.stop_le_endPoint_ofSpan hcountStop
  · rw [TextRange.startPoint_ofSpan hcountStart]
    exact le_trans hstart hordered

end PointOrdered

end SyntaxTree

namespace Taxonomy

/-- The nodes that a listing reports, in its order. -/
def listed (t : Taxonomy) (tree : SyntaxTree) : List Nat :=
  (tree.descendants 0).filter fun d => t.isBlock (tree.node d).kind

/-- The places in a listing of the nodes that share a point with a range, ends included. -/
def overlapping (t : Taxonomy) (tree : SyntaxTree) (range : TextRange) : Set Nat :=
  {k | ∃ d, (t.listed tree)[k]? = some d ∧
    (tree.node d).span.start ≤ range.endPoint ∧ range.startPoint ≤ (tree.node d).span.stop}

section Lookup

variable (t : Taxonomy) (source : String) (parsed : ParseTree)

theorem listBlocks_eq_map :
    t.listBlocks (SyntaxTree.ofParse source parsed)
      = (t.listed (SyntaxTree.ofParse source parsed)).map
          (t.classify (SyntaxTree.ofParse source parsed)) := by
  rw [listBlocks, SyntaxTree.ofKind_none]
  rfl

/-- A lookup by range searches the listed nodes. -/
theorem blockIn?_eq_find? (h : (SyntaxTree.ofParse source parsed).PointOrdered)
    (range : TextRange) :
    let tree := SyntaxTree.ofParse source parsed
    t.blockIn? tree range
      = ((t.listed tree).find? fun d =>
          Window.overlaps ⟨range.startPoint, range.endPoint⟩ (tree.node d).span).map
        (t.classify tree) := by
  intro tree
  have hn : tree.Nested := SyntaxTree.nested_ofParse source parsed
  have hl : tree.Linked := SyntaxTree.linked_ofParse source parsed
  have hordered : tree.OrderedBelow 0 :=
    h.orderedBelow_zero hl (SyntaxTree.subtreeEnd_ofParse_zero source parsed)
  have hfilter := hn.eq_filter
    (hn.prunable_of_ordered hl hordered (some ⟨range.startPoint, range.endPoint⟩))
    (hn.scans_ofKind 0 t.blocks (some ⟨range.startPoint, range.endPoint⟩)) (Nat.le_refl _)
  rw [blockIn?, hfilter, ← List.head?_filter, listed, List.filter_filter]
  refine congrArg (fun found => Option.map (t.classify tree) (List.head? found)) ?_
  refine List.filter_congr fun d _ => ?_
  exact Bool.and_comm ..

/-- The answer is the entry at the least place that overlaps. -/
theorem blockIn?_eq_getElem? (h : (SyntaxTree.ofParse source parsed).PointOrdered)
    {range : TextRange} {k : Nat}
    (hleast : IsLeast (t.overlapping (SyntaxTree.ofParse source parsed) range) k) :
    ∃ e, (t.listBlocks (SyntaxTree.ofParse source parsed))[k]? = some e ∧
      t.blockIn? (SyntaxTree.ofParse source parsed) range = some e := by
  obtain ⟨d, hd, -⟩ := hleast.1
  have hfound := find?_eq_getElem?_of_isLeast
    (p := fun d => Window.overlaps ⟨range.startPoint, range.endPoint⟩
      ((SyntaxTree.ofParse source parsed).node d).span)
    (by simpa [overlapping, Window.overlaps] using hleast)
  refine ⟨t.classify (SyntaxTree.ofParse source parsed) d, ?_, ?_⟩
  · rw [listBlocks_eq_map, List.getElem?_map, hd]
    rfl
  · rw [blockIn?_eq_find? t source parsed h, hfound, hd]
    rfl

theorem blockIn?_eq_none (h : (SyntaxTree.ofParse source parsed).PointOrdered)
    {range : TextRange}
    (hempty : t.overlapping (SyntaxTree.ofParse source parsed) range = ∅) :
    t.blockIn? (SyntaxTree.ofParse source parsed) range = none := by
  rw [blockIn?_eq_find? t source parsed h, Option.map_eq_none_iff, List.find?_eq_none]
  intro d hd hoverlaps
  obtain ⟨k, hk⟩ := List.getElem?_of_mem hd
  exact Set.eq_empty_iff_forall_notMem.mp hempty k ⟨d, hk, of_decide_eq_true hoverlaps⟩

/-- A listed block overlaps the range it is reported over. -/
theorem mem_overlapping_range (h : (SyntaxTree.ofParse source parsed).PointOrdered) {k : Nat}
    {e : Block} (he : (t.listBlocks (SyntaxTree.ofParse source parsed))[k]? = some e) :
    k ∈ t.overlapping (SyntaxTree.ofParse source parsed) e.range := by
  rw [listBlocks_eq_map, List.getElem?_map] at he
  obtain ⟨d, hd, rfl⟩ := Option.map_eq_some_iff.mp he
  obtain ⟨placed, hsteps, hrange⟩ :=
    t.exists_placed_classify (SyntaxTree.ofParse source parsed) d
  have hdescendant := (List.mem_filter.mp (List.mem_of_getElem? hd)).1
  have hsize : d < (SyntaxTree.ofParse source parsed).size := by
    rw [← SyntaxTree.subtreeEnd_ofParse_zero]
    exact (SyntaxTree.mem_descendants.mp hdescendant).2
  refine ⟨d, hd, ?_⟩
  rw [hrange]
  exact h.overlaps_ofSpan (SyntaxTree.linked_ofParse source parsed) hsize hsteps

end Lookup

end Taxonomy

/-- **Lookup by range agrees with the listing.**  In every flattened tree whose points are in
    order and with every taxonomy, the answer for a range is the entry of the first listed node
    that overlaps it, and there is none if no listed node does.  For the range of a listed entry
    there is an answer, and it is that entry or one before it. -/
theorem range_lookup_is_first_overlapping (source : String) (parsed : ParseTree)
    (h : (SyntaxTree.ofParse source parsed).PointOrdered) (t : Taxonomy) :
    let tree := SyntaxTree.ofParse source parsed
    t.listBlocks tree = (t.listed tree).map (t.classify tree) ∧
    (∀ range k, IsLeast (t.overlapping tree range) k →
      ∃ e, (t.listBlocks tree)[k]? = some e ∧ t.blockIn? tree range = some e) ∧
    (∀ range, t.overlapping tree range = ∅ → t.blockIn? tree range = none) ∧
    (∀ (k : Nat) (e : Block), (t.listBlocks tree)[k]? = some e →
      ∃ j ≤ k, ∃ b, (t.listBlocks tree)[j]? = some b ∧ t.blockIn? tree e.range = some b) := by
  intro tree
  refine ⟨t.listBlocks_eq_map source parsed, ?_, ?_, ?_⟩
  · intro range k hleast
    exact t.blockIn?_eq_getElem? source parsed h hleast
  · intro range hempty
    exact t.blockIn?_eq_none source parsed h hempty
  · intro k e he
    have hmem := t.mem_overlapping_range source parsed h he
    have hleast : IsLeast (t.overlapping tree e.range) (sInf (t.overlapping tree e.range)) :=
      ⟨Nat.sInf_mem ⟨k, hmem⟩, fun _ hj => Nat.sInf_le hj⟩
    exact ⟨_, hleast.2 hmem, t.blockIn?_eq_getElem? source parsed h hleast⟩

/-- The bound literal is reported over its declaration, which is listed before it and is found for
    that range; in the empty line nothing is found. -/
theorem range_lookup_boundLiteral :
    let tree := SyntaxTree.ofParse "const é = () => 1\n\nif (é) f()\n" boundLiteral
    tree.PointOrdered ∧
      (Taxonomy.javascript.listBlocks tree)[1]?
        = some (.function ⟨"é", [], ⟨1, 1, 1, 19⟩, "arrow_function"⟩) ∧
      Taxonomy.javascript.blockIn? tree ⟨1, 1, 1, 19⟩
        = some (.other ⟨⟨1, 1, 1, 19⟩, "lexical_declaration"⟩) ∧
      Taxonomy.javascript.blockIn? tree ⟨2, 1, 2, 1⟩ = none := by
  intro tree
  have hordered : tree.PointOrdered := by decide +kernel
  obtain ⟨hlisting, hfirst, hnone, -⟩ :=
    range_lookup_is_first_overlapping _ boundLiteral hordered Taxonomy.javascript
  have hdeclaration : IsLeast (Taxonomy.javascript.overlapping tree ⟨1, 1, 1, 19⟩) 0 :=
    ⟨⟨1, by decide +kernel⟩, fun k _ => Nat.zero_le k⟩
  have hapart : ∀ d ∈ Taxonomy.javascript.listed tree, ¬ ((tree.node d).span.start ≤ ⟨1, 0⟩ ∧
      ⟨1, 0⟩ ≤ (tree.node d).span.stop) := by decide +kernel
  have hempty : Taxonomy.javascript.overlapping tree ⟨2, 1, 2, 1⟩ = ∅ := by
    refine Set.eq_empty_of_forall_notMem ?_
    rintro k ⟨d, hd, hoverlaps⟩
    exact hapart d (List.mem_of_getElem? hd) hoverlaps
  obtain ⟨e, he, hfound⟩ := hfirst _ 0 hdeclaration
  have hentry : (Taxonomy.javascript.listBlocks tree)[0]?
      = some (.other ⟨⟨1, 1, 1, 19⟩, "lexical_declaration"⟩) := by
    rw [hlisting]
    decide +kernel
  refine ⟨hordered, ?_, hfound.trans (he.symm.trans hentry), hnone _ hempty⟩
  rw [hlisting]
  decide +kernel

end CodeBlocks
