import CodeBlocks.Proofs.Trim.Boundary

/-! # The two trims — mirror images of each other

    The end and the start of a text are trimmed by two functions, each with
    index arithmetic of its own: one gives up the last child and scans
    backward down to the floor, the other gives up the first and scans
    forward up to the floor at the end.  Read from the other end, they are
    the same function.  Where the flags of the children are reversed, the
    boundary of the one is the boundary of the other, counted from the
    other end (`opposite`).

    The scan itself does not look at the numbers of the children
    (`firstCleanAfterError_renumber`), so all that has to be shown is that
    the two scans go over the same flags, and that margin and floor change
    places with their counterparts. -/

namespace CodeBlocks

namespace Trim

/-- The number of a child, counted from the other end. -/
def opposite (count i : Nat) : Nat := count - 1 - i

/-- Scanned children under other numbers stop the scan at the same child. -/
theorem firstCleanAfterError_renumber (f : Nat → Nat) (seen : Bool)
    (scanned : List (Bool × Nat)) :
    firstCleanAfterError seen (scanned.map fun entry => (entry.1, f entry.2))
      = (firstCleanAfterError seen scanned).map f := by
  induction scanned generalizing seen with
  | nil => rfl
  | cons entry rest ih =>
      obtain ⟨errored, i⟩ := entry
      cases errored with
      | true => exact ih true
      | false =>
          cases seen with
          | true => rfl
          | false => exact ih false

theorem zipIdx_reverse (errors : List Bool) :
    errors.reverse.zipIdx
      = (errors.zipIdx.map fun entry => (entry.1, opposite errors.length entry.2)).reverse := by
  refine List.ext_getElem (by simp) ?_
  intro i hi hi'
  have hlt : i < errors.length := by simpa using hi
  simp only [List.getElem_zipIdx, List.getElem_reverse, List.getElem_map, List.length_map,
    List.length_zipIdx, opposite, Nat.zero_add, Prod.mk.injEq, true_and]
  omega

/-- A scan forward over the reversed flags is one backward over the flags themselves. -/
theorem take_zipIdx_reverse {errors : List Bool} {floor : Nat} (h : floor ≤ errors.length) :
    errors.reverse.zipIdx.take (errors.length - floor)
      = (errors.zipIdx.drop floor).reverse.map
          fun entry => (entry.1, opposite errors.length entry.2) := by
  rw [zipIdx_reverse, List.take_reverse, List.length_map, List.length_zipIdx,
    Nat.sub_sub_self h, ← List.map_drop, List.map_reverse]

/-- **The start of a text is trimmed as its end is**, seen from the other end. -/
theorem startBoundary?_reverse (rootError : Bool) (errors : List Bool) (minimum : Nat) :
    startBoundary? rootError errors.reverse minimum
      = (endBoundary? rootError errors minimum).map (opposite errors.length) := by
  have hfloor : 1 ≤ floorOf minimum := Nat.le_max_right ..
  rw [startBoundary?, endBoundary?, List.length_reverse]
  generalize floorOf minimum = floor at hfloor ⊢
  by_cases hmargin : marginOnly rootError errors.length floor = true
  · rw [if_pos hmargin, if_pos hmargin]
    by_cases hfew : errors.length < 2
    · rw [if_pos hfew, if_pos hfew]
      rfl
    · -- the margin is the first but one, and the last but one
      rw [if_neg hfew, if_neg hfew]
      show some 1 = some (errors.length - 1 - (errors.length - 2))
      congr 1
      omega
  · rw [if_neg hmargin, if_neg hmargin]
    rw [marginOnly_iff, not_or, Nat.not_le] at hmargin
    -- without a stop the first child of the floor at the end faces the last one of the floor
    have hlast : errors.length - floor = opposite errors.length (floor - 1) := by
      show _ = errors.length - 1 - (floor - 1)
      omega
    rw [take_zipIdx_reverse (Nat.le_of_lt hmargin.2), firstCleanAfterError_renumber, hlast,
      Option.getD_map]
    rfl

end Trim

namespace SyntaxTree

/-- **The two trims are mirror images.**  For all flags of the root and its children, either no
    edge is cut, neither the end under these flags nor the start under the reversed ones, or both
    are cut, at children with the same place from opposite ends.  So it is with the texts of any
    two trees of which one has the flags of the other reversed. -/
theorem trims_are_mirror_images (rootError : Bool) (errors : List Bool) (minimum : Nat) :
    (Trim.endBoundary? rootError errors minimum = none ∧
        Trim.startBoundary? rootError errors.reverse minimum = none ∨
      ∃ b < errors.length, Trim.endBoundary? rootError errors minimum = some b ∧
        Trim.startBoundary? rootError errors.reverse minimum = some (errors.length - 1 - b)) ∧
    ∀ tree mirrored : SyntaxTree, tree.hasError = rootError → tree.childErrors = errors →
      mirrored.hasError = rootError → mirrored.childErrors = errors.reverse →
      (Trim.endBoundary? rootError errors minimum = none ∧
        tree.trimEnd minimum = tree.source ∧ mirrored.trimStart minimum = mirrored.source) ∨
      ∃ b < errors.length, Trim.endBoundary? rootError errors minimum = some b ∧
        tree.trimEnd minimum
          = String.ofList (Trim.keepThrough tree.source.toList (tree.topNode b).span.stop) ∧
        mirrored.trimStart minimum
          = String.ofList (Trim.keepFrom mirrored.source.toList
              (mirrored.topNode (errors.length - 1 - b)).span.start) := by
  have hmirror := Trim.startBoundary?_reverse rootError errors minimum
  cases hstop : Trim.endBoundary? rootError errors minimum with
  | none =>
      have hstart : Trim.startBoundary? rootError errors.reverse minimum = none := by
        rw [hmirror, hstop]
        rfl
      refine ⟨.inl ⟨rfl, hstart⟩, ?_⟩
      rintro tree mirrored rfl rfl hroot hflags
      refine .inl ⟨rfl, ?_, ?_⟩
      · rw [trimEnd, hstop]
      · rw [trimStart, hroot, hflags, hstart]
  | some b =>
      have hlt : b < errors.length := Trim.lt_length_of_endBoundary? hstop
      have hstart : Trim.startBoundary? rootError errors.reverse minimum
          = some (errors.length - 1 - b) := by
        rw [hmirror, hstop]
        rfl
      refine ⟨.inr ⟨b, hlt, rfl, hstart⟩, ?_⟩
      rintro tree mirrored rfl rfl hroot hflags
      refine .inr ⟨b, hlt, rfl, ?_, ?_⟩
      · rw [trimEnd, hstop]
      · rw [trimStart, hroot, hflags, hstart]

/-- Lines of one character, under an errored root. -/
def flaggedLines (source : String) (errors : List Bool) : SyntaxTree :=
  let line := fun (entry : Bool × Nat) =>
    (⟨"line", none, ⟨2 * entry.2, 2 * entry.2 + 1, ⟨entry.2, 0⟩, ⟨entry.2, 1⟩⟩, entry.1, some 0, [],
      entry.2 + 2⟩ : Node)
  let count := errors.length
  ⟨source,
    (⟨"text", none, ⟨0, 2 * count - 1, ⟨0, 0⟩, ⟨count - 1, 1⟩⟩, true, none, List.range' 1 count,
      count + 1⟩ :: errors.zipIdx.map line).toArray⟩

/-- The lines `a` to `e`, of which the third and the last are errored, and the same from `e` to `a`:
    the last line is given up by the one trim, and the first by the other. -/
theorem trims_mirror_flaggedLines :
    let errors := [false, false, true, false, true]
    let tree := flaggedLines "a\nb\nc\nd\ne" errors
    let mirrored := flaggedLines "e\nd\nc\nb\na" errors.reverse
    tree.childErrors = errors ∧ mirrored.childErrors = errors.reverse ∧
      tree.trimEnd 1 = "a\nb\nc\nd" ∧ mirrored.trimStart 1 = "d\nc\nb\na" := by
  intro errors tree mirrored
  have hflags : tree.childErrors = errors := by decide
  have hmirrored : mirrored.childErrors = errors.reverse := by decide
  obtain ⟨-, hcuts⟩ := trims_are_mirror_images true errors 1
  rcases hcuts tree mirrored rfl hflags rfl hmirrored with ⟨hnone, -⟩ | ⟨b, -, hb, hend, hstart⟩
  · exact absurd hnone (by decide)
  · obtain rfl : b = 3 := Option.some.inj (hb.symm.trans (by decide))
    exact ⟨hflags, hmirrored, hend.trans (by decide +kernel), hstart.trans (by decide +kernel)⟩

end SyntaxTree

end CodeBlocks
