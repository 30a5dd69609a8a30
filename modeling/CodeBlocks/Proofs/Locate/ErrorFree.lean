import CodeBlocks.Locate
import CodeBlocks.Proofs.SyntaxTree.Descent
import CodeBlocks.Proofs.SyntaxTree.Subtrees

/-! # Error-free blocks — the largest clean node around a point

    From the deepest node at a point the way goes up as long as the next
    parent has no error and is not the root.  It looks one parent ahead
    only.  Errors rise, a parent is errored whenever a child is, so one
    errored parent rules out everything above it, and a node without an
    error has none in its whole subtree.  Where the way ends is then the
    largest clean node: it contains every other one around the point. -/

namespace CodeBlocks.SyntaxTree

open Relation

/-- A parent is errored whenever one of its children is. -/
def ErrorsRise (tree : SyntaxTree) : Prop :=
  ∀ i < tree.size, ∀ c ∈ (tree.node i).children,
    (tree.node c).hasError = true → (tree.node i).hasError = true

instance (tree : SyntaxTree) : Decidable tree.ErrorsRise :=
  inferInstanceAs (Decidable (∀ i < tree.size, _))

/-- No node of a subtree is errored. -/
def Clean (tree : SyntaxTree) (i : Nat) : Prop :=
  ∀ d ∈ i :: tree.descendants i, (tree.node d).hasError = false

instance (tree : SyntaxTree) (i : Nat) : Decidable (tree.Clean i) :=
  inferInstanceAs (Decidable (∀ d ∈ _, _))

/-- Of `s` and the nodes above it, the root left out, `b` is clean and contains all others that
    are. -/
structure IsLargestClean (tree : SyntaxTree) (s b : Nat) : Prop where
  around : ReflTransGen tree.Up s b
  ne_root : b ≠ 0
  clean : tree.Clean b
  largest : ∀ a, ReflTransGen tree.Up s a → a ≠ 0 → tree.Clean a → a ∈ b :: tree.descendants b

/-- One step of the way up, to a parent that has no error and is not the root. -/
def Ascends (tree : SyntaxTree) (i p : Nat) : Prop :=
  tree.Up i p ∧ (tree.node p).hasError = false ∧ (tree.node p).parent ≠ none

variable {tree : SyntaxTree} (h : tree.Linked)

/-- A lineage starts with its node. -/
theorem lineageWithin_eq_cons {fuel i : Nat} (hi : i < fuel) :
    tree.lineageWithin fuel i = i :: (tree.lineageWithin fuel i).tail := by
  cases fuel with
  | zero => exact absurd hi (Nat.not_lt_zero i)
  | succ fuel =>
      rw [lineageWithin]
      split
      · rfl
      · rfl

theorem ascends_iff {i p : Nat} (hup : tree.Up i p) :
    tree.Ascends i p
      ↔ ¬ ((tree.node p).hasError || (tree.node p).parent.isNone) = true := by
  rw [Bool.or_eq_true, not_or, Bool.not_eq_true, Option.isNone_iff_eq_none]
  constructor
  · intro hascends
    exact hascends.2
  · intro hnext
    exact ⟨hup, hnext⟩

include h

theorem outermostClean_steps_within {fuel i : Nat} (hi : i < fuel) :
    ReflTransGen tree.Ascends i (tree.outermostClean i (tree.lineageWithin fuel i).tail) ∧
      ∀ p, ¬ tree.Ascends (tree.outermostClean i (tree.lineageWithin fuel i).tail) p := by
  induction fuel generalizing i with
  | zero => exact absurd hi (Nat.not_lt_zero i)
  | succ fuel ih =>
      rw [lineageWithin]
      cases hparent : (tree.node i).parent with
      | none =>
          refine ⟨.refl, ?_⟩
          rintro p ⟨hup, -⟩
          cases hparent.symm.trans hup
      | some p =>
          have hlt := (h.mem_children_of_up hparent).1
          have hp : p < fuel := Nat.lt_of_lt_of_le hlt (Nat.le_of_lt_succ hi)
          rw [List.tail_cons, lineageWithin_eq_cons hp, outermostClean]
          split
          · next hstop =>
              refine ⟨.refl, ?_⟩
              intro q hascends
              obtain rfl := tree.up_rightUnique hparent hascends.1
              exact (ascends_iff hparent).mp hascends hstop
          · next hnext =>
              obtain ⟨hsteps, hend⟩ := ih hp
              exact ⟨.head ((ascends_iff hparent).mpr hnext) hsteps, hend⟩

/-- **The way up goes over clean parents below the root, until there is none.** -/
theorem outermostClean_steps (i : Nat) :
    ReflTransGen tree.Ascends i (tree.outermostClean i (tree.lineage i).tail) ∧
      ∀ p, ¬ tree.Ascends (tree.outermostClean i (tree.lineage i).tail) p :=
  outermostClean_steps_within h (Nat.lt_succ_self i)

variable (hrise : tree.ErrorsRise)

include hrise

/-- Everything above an errored node is errored. -/
theorem hasError_of_steps {d a : Nat} (hsteps : ReflTransGen tree.Up d a)
    (hd : (tree.node d).hasError = true) : (tree.node a).hasError = true := by
  induction hsteps with
  | refl => exact hd
  | tail _ hup ih =>
      obtain ⟨-, hmem⟩ := h.mem_children_of_up hup
      exact hrise _ (lt_size_of_mem_children hmem) _ hmem ih

/-- A node without an error has none below it. -/
theorem clean_of_hasError_eq_false (hn : tree.Nested) {i : Nat}
    (hi : (tree.node i).hasError = false) : tree.Clean i := by
  intro d hd
  refine Bool.eq_false_iff.mpr fun herror => ?_
  have hraised := hasError_of_steps h hrise ((hn.mem_cons_descendants_iff h).mp hd) herror
  rw [hi] at hraised
  cases hraised

/-- Above the end of the way up there is no other node without an error, except the root. -/
theorem eq_of_not_ascends {b a : Nat} (hend : ∀ p, ¬ tree.Ascends b p)
    (hsteps : ReflTransGen tree.Up b a) (hne : a ≠ 0) (ha : (tree.node a).hasError = false) :
    a = b := by
  rcases hsteps.cases_head with heq | ⟨p, hup, hpa⟩
  · exact heq.symm
  · exfalso
    refine hend p ⟨hup, ?_, ?_⟩
    · refine Bool.eq_false_iff.mpr fun herror => ?_
      have hraised := hasError_of_steps h hrise hpa herror
      rw [ha] at hraised
      cases hraised
    · -- without a parent `p` is the root, and so is `a`
      intro hnone
      have hp := h.steps_zero (lt_size_of_mem_children (h.mem_children_of_up hup).2)
      rcases hp.cases_head with rfl | ⟨q, hq, -⟩
      · exact hne (Nat.le_zero.mp (h.le_of_steps hpa))
      · cases hnone.symm.trans hq

/-- **The end of the way up is the largest clean node around its start.** -/
theorem isLargestClean_of_ascends (hn : tree.Nested) {s b : Nat}
    (hs : (tree.node s).hasError = false) (hne : s ≠ 0)
    (hsteps : ReflTransGen tree.Ascends s b) (hend : ∀ p, ¬ tree.Ascends b p) :
    tree.IsLargestClean s b := by
  have haround : ReflTransGen tree.Up s b :=
    ReflTransGen.mono (fun _ _ (hascends : tree.Ascends _ _) => hascends.1) s b hsteps
  have hkept : (tree.node b).hasError = false ∧ b ≠ 0 := by
    rcases hsteps.cases_tail with rfl | ⟨i, -, -, hclean, hparent⟩
    · exact ⟨hs, hne⟩
    · refine ⟨hclean, ?_⟩
      rintro rfl
      exact hparent h.root
  refine ⟨haround, hkept.2, clean_of_hasError_eq_false h hrise hn hkept.1, ?_⟩
  intro a ha hroot hclean
  -- parents are unique, so `a` lies above the end of the way or below it
  rcases haround.total_of_right_unique tree.up_rightUnique ha with hba | hab
  · have heq := eq_of_not_ascends h hrise hend hba hroot (hclean a List.mem_cons_self)
    exact List.mem_cons.mpr (.inl heq)
  · exact (hn.mem_cons_descendants_iff h).mpr hab

end CodeBlocks.SyntaxTree

namespace CodeBlocks

/-- **The error-free block is the largest clean node around the start of the range.**  In every
    flattened tree in which errors rise, with `s` the deepest node at the start of the range: if
    `s` is below the root and not errored, the block is the largest clean one of `s` and the nodes
    above it; an errored `s` below the root is reported over the range asked for; and the root is
    reported as it is. -/
theorem error_free_block_is_largest (source : String) (parsed : ParseTree)
    (hrise : (SyntaxTree.ofParse source parsed).ErrorsRise) (range : TextRange) :
    let tree := SyntaxTree.ofParse source parsed
    let s := tree.deepestAtPoint 0 range.startPoint
    let whole := fun i => Block.other ⟨TextRange.ofSpan (tree.node i).span, (tree.node i).kind⟩
    (s ≠ 0 → (tree.node s).hasError = false →
      ∃ b, tree.errorFreeBlock range = whole b ∧ tree.IsLargestClean s b) ∧
    (s ≠ 0 → (tree.node s).hasError = true →
      tree.errorFreeBlock range = .other ⟨range, (tree.node s).kind⟩) ∧
    (s = 0 → tree.errorFreeBlock range = whole 0) := by
  intro tree s whole
  have h : tree.Linked := SyntaxTree.linked_ofParse source parsed
  have hn : tree.Nested := SyntaxTree.nested_ofParse source parsed
  have hblock : tree.errorFreeBlock range
      = if (tree.node s).parent.isNone then whole s
        else if (tree.node s).hasError then .other ⟨range, (tree.node s).kind⟩
        else whole (tree.outermostClean s (tree.lineage s).tail) := rfl
  have hbelow : s ≠ 0 → ¬ (tree.node s).parent.isNone = true := by
    intro hne hnone
    have hsteps := h.steps_of_down (h.descend_steps (Node.spansPoint range.startPoint) 0).1
    rcases hsteps.cases_head with heq | ⟨p, hup, -⟩
    · exact hne heq
    · cases (Option.isNone_iff_eq_none.mp hnone).symm.trans hup
  refine ⟨?_, ?_, ?_⟩
  · intro hne hclean
    obtain ⟨hsteps, hend⟩ := SyntaxTree.outermostClean_steps h s
    refine ⟨_, ?_, SyntaxTree.isLargestClean_of_ascends h hrise hn hclean hne hsteps hend⟩
    rw [hblock, if_neg (hbelow hne), if_neg (Bool.eq_false_iff.mp hclean)]
  · intro hne herror
    rw [hblock, if_neg (hbelow hne), if_pos herror]
  · intro hroot
    have hnone : (tree.node s).parent.isNone = true := by
      rw [hroot, h.root]
      rfl
    rw [hblock, if_pos hnone, hroot]

/-- A call on the first line and an error on the second. -/
def brokenSecondLine : ParseTree :=
  let node := fun (kind : String) (errored : Bool) (first last row column : Nat) =>
    (⟨kind, none, true, errored,
      ⟨first, last, ⟨row, column⟩, ⟨row, column + (last - first)⟩⟩⟩ : EngineNode)
  ⟨⟨"program", none, true, true, ⟨0, 7, ⟨0, 0⟩, ⟨1, 1⟩⟩⟩,
    .cons (node "expression_statement" false 0 5 0 0)
      (.cons (node "call_expression" false 0 5 0 0)
        (.cons (node "identifier" false 0 2 0 0) .nil
          (.cons (node "arguments" false 2 5 0 2)
            (.cons (node "number" false 3 4 0 3) .nil .nil) .nil)) .nil)
      (.cons (node "ERROR" true 6 7 1 0) .nil .nil)⟩

/-- From the argument of the call the way goes up to the statement; the error is reported over
    the range asked for, and at the end of the first line there is only the root. -/
theorem error_free_block_brokenSecondLine :
    let tree := SyntaxTree.ofParse "ok(1)\n(" brokenSecondLine
    tree.ErrorsRise ∧
      (tree.errorFreeBlock ⟨1, 4, 1, 4⟩ = .other ⟨⟨1, 1, 1, 6⟩, "expression_statement"⟩ ∧
        tree.IsLargestClean 5 1) ∧
      tree.errorFreeBlock ⟨2, 1, 9, 9⟩ = .other ⟨⟨2, 1, 9, 9⟩, "ERROR"⟩ ∧
      tree.errorFreeBlock ⟨1, 6, 1, 6⟩ = .other ⟨⟨1, 1, 2, 2⟩, "program"⟩ := by
  intro tree
  have hrise : tree.ErrorsRise := by decide +kernel
  have hargument : tree.deepestAtPoint 0 (TextRange.startPoint ⟨1, 4, 1, 4⟩) = 5 := by
    decide +kernel
  have herror : tree.deepestAtPoint 0 (TextRange.startPoint ⟨2, 1, 9, 9⟩) = 6 := by
    decide +kernel
  have hroot : tree.deepestAtPoint 0 (TextRange.startPoint ⟨1, 6, 1, 6⟩) = 0 := by
    decide +kernel
  obtain ⟨hlargest, -, -⟩ := error_free_block_is_largest _ brokenSecondLine hrise ⟨1, 4, 1, 4⟩
  obtain ⟨-, hasked, -⟩ := error_free_block_is_largest _ brokenSecondLine hrise ⟨2, 1, 9, 9⟩
  obtain ⟨-, -, hwhole⟩ := error_free_block_is_largest _ brokenSecondLine hrise ⟨1, 6, 1, 6⟩
  rw [hargument] at hlargest
  rw [herror] at hasked
  obtain ⟨b, hfound, hb⟩ := hlargest (by decide) (by decide +kernel)
  obtain rfl : b = 1 := by
    -- the statement is clean and around the argument, so `b` contains it
    have hstatement := (SyntaxTree.linked_ofParse _ brokenSecondLine).mem_lineage.mp
      (show 1 ∈ tree.lineage 5 by decide +kernel)
    have hcontains := hb.largest 1 hstatement (by decide) (by decide +kernel)
    have hne := hb.ne_root
    rcases List.mem_cons.mp hcontains with heq | hbelow
    · exact heq.symm
    · have hlt := (SyntaxTree.mem_descendants.mp hbelow).1
      omega
  refine ⟨hrise, ⟨hfound.trans ?_, hb⟩, (hasked (by decide) (by decide +kernel)).trans ?_,
    (hwhole hroot).trans ?_⟩
  · decide +kernel
  · decide +kernel
  · decide +kernel

end CodeBlocks
