import CodeBlocks.Locate
import CodeBlocks.Proofs.Point
import CodeBlocks.Proofs.SyntaxTree.Links

/-! # Placement — from a block back to the node it is reported over

    A block carries a range, and a range counts from one.  Two things are
    needed to say where a reported block lies.  The range belongs to the
    node that was found or, when a declaration binds it, to a node above
    it.  And counting from one and back gives the points of the node
    again, if its rows and columns can be counted. -/

namespace CodeBlocks

/-- A point whose row and column can be counted from one. -/
def Point.Countable (point : Point) : Prop :=
  point.row < Word.greatest ∧ point.column < Word.greatest

instance (point : Point) : Decidable point.Countable := inferInstanceAs (Decidable (_ ∧ _))

namespace TextRange

variable {span : Span}

theorem startPoint_ofSpan (h : span.start.Countable) : (ofSpan span).startPoint = span.start := by
  rw [startPoint, ofSpan, Word.next_eq_add_one h.1, Word.next_eq_add_one h.2]
  rfl

/-- The end is found again, or is taken for the end of its line. -/
theorem stop_le_endPoint_ofSpan (h : span.stop.Countable) :
    span.stop ≤ (ofSpan span).endPoint := by
  rw [endPoint, ofSpan, Word.next_eq_add_one h.1, Word.next_eq_add_one h.2, Point.le_def]
  refine .inr ⟨rfl, ?_⟩
  split
  · exact Nat.le_of_lt h.2
  · exact Nat.le_refl _

theorem startPoint_wholeLines (h : span.start.row < Word.greatest) :
    (wholeLines span).startPoint = ⟨span.start.row, 0⟩ := by
  rw [startPoint, wholeLines, Word.next_eq_add_one h]
  rfl

theorem endPoint_wholeLines (h : span.stop.row < Word.greatest) :
    (wholeLines span).endPoint = ⟨span.stop.row, Word.greatest⟩ := by
  rw [endPoint, wholeLines, Word.next_eq_add_one h]
  rfl

end TextRange

open Relation

/-- Where children lie within their parent, every node lies within the nodes above it. -/
theorem SyntaxTree.Linked.within_of_steps {α : Type} [Preorder α] {tree : SyntaxTree}
    (h : tree.Linked) (first last : Node → α)
    (hwithin : ∀ i < tree.size, ∀ c ∈ (tree.node i).children,
      first (tree.node i) ≤ first (tree.node c) ∧ last (tree.node c) ≤ last (tree.node i))
    {i a : Nat} (hsteps : ReflTransGen tree.Up i a) :
    first (tree.node a) ≤ first (tree.node i) ∧ last (tree.node i) ≤ last (tree.node a) := by
  induction hsteps with
  | refl => exact ⟨le_refl _, le_refl _⟩
  | tail _ hup ih =>
      obtain ⟨-, hmem⟩ := h.mem_children_of_up hup
      obtain ⟨hfirst, hlast⟩ := hwithin _ (lt_size_of_mem_children hmem) _ hmem
      exact ⟨le_trans hfirst ih.1, le_trans ih.2 hlast⟩

/-- A binding is a declarator above the literal and a declaration above the declarator. -/
theorem SyntaxTree.up_of_binding? {tree : SyntaxTree} {rule : DeclaratorRule}
    {i declarator declaration : Nat}
    (h : tree.binding? rule i = some (declarator, declaration)) :
    tree.Up i declarator ∧ tree.Up declarator declaration := by
  obtain ⟨p, hp, h⟩ := Option.bind_eq_some_iff.mp h
  obtain ⟨-, -, h⟩ := Option.bind_eq_some_iff.mp h
  obtain ⟨q, hq, h⟩ := Option.bind_eq_some_iff.mp h
  obtain ⟨-, -, heq⟩ := Option.bind_eq_some_iff.mp h
  cases heq
  exact ⟨hp, hq⟩

namespace Taxonomy

variable {t : Taxonomy} {tree : SyntaxTree} {i : Nat}

/-- A function is placed by its own node or by the declaration that binds it. -/
theorem exists_placed_of_functionInfo? {info : FunctionInfo}
    (h : t.functionInfo? tree i = some info) :
    ∃ placed, ReflTransGen tree.Up i placed ∧
      info.range = TextRange.ofSpan (tree.node placed).span := by
  simp only [functionInfo?] at h
  split at h
  · cases h
  · split at h
    · simp only [bind, Option.bind_eq_some_iff] at h
      obtain ⟨rule, -, ⟨declarator, declaration⟩, hbinding, heq⟩ := h
      cases heq
      obtain ⟨hup, habove⟩ := SyntaxTree.up_of_binding? hbinding
      exact ⟨declaration, .head hup (.single habove), rfl⟩
    · cases h
      exact ⟨i, .refl, rfl⟩

/-- Every listed block is placed by its node or by one above it. -/
theorem exists_placed_classify (t : Taxonomy) (tree : SyntaxTree) (i : Nat) :
    ∃ placed, ReflTransGen tree.Up i placed ∧
      (t.classify tree i).range = TextRange.ofSpan (tree.node placed).span := by
  rw [classify]
  split
  · next info hinfo => exact exists_placed_of_functionInfo? hinfo
  · split
    · next info hinfo =>
        simp only [classInfo?] at hinfo
        split at hinfo
        · cases hinfo
          exact ⟨i, .refl, rfl⟩
        · cases hinfo
    · exact ⟨i, .refl, rfl⟩

end Taxonomy

end CodeBlocks
