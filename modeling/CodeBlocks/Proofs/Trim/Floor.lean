import CodeBlocks.Proofs.Text.Halves
import CodeBlocks.Proofs.Trim.Mirror

/-! # Trimming with a higher floor — nothing more is given up

    The floor is the number of children that a trim never gives up.  With a
    higher floor the boundary of the end does not move inward
    (`endBoundary?_mono`), though the way it is found changes: past the
    number of children the scan gives way to the margin of one child, and
    with a floor that was scanned before the fallback takes the place of
    the stop.  The boundary of the start is its mirror image.

    A cut at a later point keeps more of the text (`upTo_prefix_upTo`).
    Where the children end in order, the text that is kept grows with the
    floor; and so it does at the other edge where they start in order.
    That the engine's rows are far from the greatest number of a word
    (`RowsFit`) is used at the end alone, where the lines up to a row are
    counted. -/

namespace CodeBlocks

/-! ## Boundaries in order -/

namespace Trim

/-- A scan that finds nothing in front goes on behind it. -/
theorem firstCleanAfterError_append (seen : Bool) (front rest : List (Bool × Nat)) :
    firstCleanAfterError seen (front ++ rest)
      = (firstCleanAfterError seen front).or
          (firstCleanAfterError (seen || front.any Prod.fst) rest) := by
  induction front generalizing seen with
  | nil => simp [firstCleanAfterError]
  | cons entry front ih =>
      obtain ⟨errored, i⟩ := entry
      cases errored with
      | true =>
          simp only [List.cons_append, firstCleanAfterError, if_true, ih]
          simp
      | false =>
          cases seen with
          | true => rfl
          | false =>
              simp only [List.cons_append, firstCleanAfterError, Bool.false_eq_true, if_false, ih]
              simp

variable {rootError : Bool} {errors : List Bool} {minimum minimum' floor b b' : Nat}

/-- The scan from the end does not stop at the last child: it has seen no error there. -/
theorem succ_lt_of_scan {i : Nat}
    (h : firstCleanAfterError false (errors.zipIdx.drop floor).reverse = some i) :
    i + 1 < errors.length := by
  have horder := List.pairwise_reverse.mpr
    ((pairwise_zipIdx errors).sublist (List.drop_sublist floor _))
  obtain ⟨⟨-, hseen | ⟨j, herrored, hij⟩⟩, -⟩ := (firstCleanAfterError_eq
    (fun i j (hij : i > j) => Nat.lt_asymm hij) false horder).1 i h
  · cases hseen
  · have hj := (mem_zipIdx_drop.mp (List.mem_reverse.mp herrored)).2
    have hlt : j < errors.length := (List.getElem?_eq_some_iff.mp hj).1
    omega

theorem endBoundary?_eq_none_iff :
    endBoundary? rootError errors minimum = none ↔ errors.length < 2 := by
  have hfloor : 1 ≤ floorOf minimum := Nat.le_max_right ..
  rw [endBoundary?]
  by_cases hmargin : marginOnly rootError errors.length (floorOf minimum) = true
  · rw [if_pos hmargin]
    split
    · next hfew => exact iff_of_true rfl hfew
    · next hmany => exact iff_of_false (Option.some_ne_none _) hmany
  · rw [if_neg hmargin]
    rw [marginOnly_iff, not_or, Nat.not_le] at hmargin
    exact iff_of_false (Option.some_ne_none _) (by omega)

/-- **With a higher floor the boundary of the end does not move inward.** -/
theorem endBoundary?_mono (h : minimum ≤ minimum')
    (hb : endBoundary? rootError errors minimum = some b)
    (hb' : endBoundary? rootError errors minimum' = some b') : b ≤ b' := by
  have hfloor : 1 ≤ floorOf minimum := Nat.le_max_right ..
  have hle : floorOf minimum ≤ floorOf minimum' := by
    show max minimum 1 ≤ max minimum' 1
    omega
  rw [endBoundary?] at hb hb'
  generalize floorOf minimum = floor at *
  generalize floorOf minimum' = floor' at *
  by_cases hmargin' : marginOnly rootError errors.length floor' = true
  · -- the margin is as far out as a scan can stop
    rw [if_pos hmargin'] at hb'
    split at hb'
    · cases hb'
    · next hmany =>
        obtain rfl := Option.some.inj hb'
        by_cases hmargin : marginOnly rootError errors.length floor = true
        · rw [if_pos hmargin, if_neg hmany] at hb
          exact Nat.le_of_eq (Option.some.inj hb).symm
        · rw [if_neg hmargin] at hb
          rw [marginOnly_iff, not_or, Nat.not_le] at hmargin
          obtain rfl := Option.some.inj hb
          cases hstop : firstCleanAfterError false (errors.zipIdx.drop floor).reverse with
          | none =>
              show floor - 1 ≤ errors.length - 2
              omega
          | some i =>
              have hlt := succ_lt_of_scan hstop
              show i ≤ errors.length - 2
              omega
  · -- the scan down to the lower floor goes on where the other one ends
    have hmargin : ¬ marginOnly rootError errors.length floor = true := by
      rw [marginOnly_iff] at hmargin' ⊢
      exact fun hgiven => hmargin' (hgiven.imp_right fun hcount => hcount.trans hle)
    have hscan : (errors.zipIdx.drop floor).reverse
        = (errors.zipIdx.drop floor').reverse
          ++ ((errors.zipIdx.take floor').drop floor).reverse := by
      rw [← List.reverse_append, List.drop_take, show errors.zipIdx.drop floor'
        = (errors.zipIdx.drop floor).drop (floor' - floor) by
          rw [List.drop_drop, Nat.add_sub_cancel' hle], List.take_append_drop]
    rw [if_neg hmargin', Option.some.injEq] at hb'
    rw [if_neg hmargin, Option.some.injEq, hscan, firstCleanAfterError_append] at hb
    subst hb hb'
    cases firstCleanAfterError false (errors.zipIdx.drop floor').reverse with
    | some i => exact Nat.le_refl i
    | none =>
        rw [Option.none_or]
        cases hstop : firstCleanAfterError _ ((errors.zipIdx.take floor').drop floor).reverse with
        | none => exact Nat.sub_le_sub_right hle 1
        | some i =>
            have hmem := List.mem_reverse.mp (mem_of_firstCleanAfterError hstop)
            have hlt : i < floor' := (mem_zipIdx_take.mp (List.mem_of_mem_drop hmem)).1
            exact Nat.le_sub_one_of_lt hlt

/-- There is a boundary of the end with both floors or with neither, and the higher floor does not
    move it inward. -/
theorem endBoundaries_in_order (h : minimum ≤ minimum') (rootError : Bool) (errors : List Bool) :
    endBoundary? rootError errors minimum = none ∧
        endBoundary? rootError errors minimum' = none ∨
      ∃ b b', endBoundary? rootError errors minimum = some b ∧
        endBoundary? rootError errors minimum' = some b' ∧ b ≤ b' ∧ b' < errors.length := by
  by_cases hfew : errors.length < 2
  · exact .inl ⟨endBoundary?_eq_none_iff.mpr hfew, endBoundary?_eq_none_iff.mpr hfew⟩
  · obtain ⟨b, hb⟩ := Option.ne_none_iff_exists'.mp (mt endBoundary?_eq_none_iff.mp hfew)
    obtain ⟨b', hb'⟩ := Option.ne_none_iff_exists'.mp (mt endBoundary?_eq_none_iff.mp hfew)
    exact .inr ⟨b, b', hb, hb', endBoundary?_mono h hb hb', lt_length_of_endBoundary? hb'⟩

/-- The boundary of the start is the mirror image of one of the end. -/
theorem startBoundary?_eq (rootError : Bool) (errors : List Bool) (minimum : Nat) :
    startBoundary? rootError errors minimum
      = (endBoundary? rootError errors.reverse minimum).map (opposite errors.length) := by
  have hmirror := startBoundary?_reverse rootError errors.reverse minimum
  rwa [List.reverse_reverse, List.length_reverse] at hmirror

/-- The same of the boundary of the start. -/
theorem startBoundaries_in_order (h : minimum ≤ minimum') (rootError : Bool)
    (errors : List Bool) :
    startBoundary? rootError errors minimum = none ∧
        startBoundary? rootError errors minimum' = none ∨
      ∃ b b', startBoundary? rootError errors minimum = some b ∧
        startBoundary? rootError errors minimum' = some b' ∧ b' ≤ b ∧ b < errors.length := by
  rw [startBoundary?_eq, startBoundary?_eq]
  rcases endBoundaries_in_order h rootError errors.reverse with
    ⟨hc, hc'⟩ | ⟨c, c', hc, hc', hle, hlt⟩
  · rw [hc, hc']
    exact .inl ⟨rfl, rfl⟩
  · rw [hc, hc']
    refine .inr ⟨_, _, rfl, rfl, Nat.sub_le_sub_left hle _, ?_⟩
    rw [List.length_reverse] at hlt
    show errors.length - 1 - c < errors.length
    omega

end Trim

/-! ## Texts in order -/

namespace SyntaxTree

/-- The children of the root end in their order. -/
def EndsInOrder (tree : SyntaxTree) : Prop :=
  ∀ j < tree.topCount, ∀ i ≤ j, (tree.topNode i).span.stop ≤ (tree.topNode j).span.stop

/-- The children of the root start in their order. -/
def StartsInOrder (tree : SyntaxTree) : Prop :=
  ∀ j < tree.topCount, ∀ i ≤ j, (tree.topNode i).span.start ≤ (tree.topNode j).span.start

/-- The children of the root end in rows that have a next one.  The engine delivers rows of
    32 bits, so that every tree it builds has this. -/
def RowsFit (tree : SyntaxTree) : Prop :=
  ∀ i < tree.topCount, (tree.topNode i).span.stop.row < Word.greatest

instance (tree : SyntaxTree) : Decidable tree.EndsInOrder :=
  inferInstanceAs (Decidable (∀ j < tree.topCount, ∀ i ≤ j, _))

instance (tree : SyntaxTree) : Decidable tree.StartsInOrder :=
  inferInstanceAs (Decidable (∀ j < tree.topCount, ∀ i ≤ j, _))

instance (tree : SyntaxTree) : Decidable tree.RowsFit :=
  inferInstanceAs (Decidable (∀ i < tree.topCount, _))

/-- **A higher floor never keeps less.**  Where the children of the root end in their order, the
    text without its malformed end grows with the floor at its end; and where they start in their
    order, the text without its malformed start grows with the floor at its start. -/
theorem trims_grow_with_floor (tree : SyntaxTree) {minimum minimum' : Nat}
    (h : minimum ≤ minimum') :
    (tree.EndsInOrder → tree.RowsFit →
      (tree.trimEnd minimum).toList <+: (tree.trimEnd minimum').toList) ∧
    (tree.StartsInOrder →
      (tree.trimStart minimum).toList <:+ (tree.trimStart minimum').toList) := by
  constructor
  · intro horder hrows
    rw [trimEnd, trimEnd]
    rcases Trim.endBoundaries_in_order h tree.hasError tree.childErrors with
      ⟨hb, hb'⟩ | ⟨b, b', hb, hb', hle, hlt'⟩
    · simp only [hb, hb', List.prefix_refl]
    · rw [tree.length_childErrors] at hlt'
      have hlt : b < tree.topCount := Nat.lt_of_le_of_lt hle hlt'
      rw [hb, hb']
      dsimp only
      rw [String.toList_ofList, String.toList_ofList,
        Text.keepThrough_eq_upTo _ (hrows b hlt), Text.keepThrough_eq_upTo _ (hrows b' hlt')]
      exact Text.upTo_prefix_upTo _ (horder b' hlt' b hle)
  · intro horder
    rw [trimStart, trimStart]
    rcases Trim.startBoundaries_in_order h tree.hasError tree.childErrors with
      ⟨hb, hb'⟩ | ⟨b, b', hb, hb', hle, hlt⟩
    · simp only [hb, hb', List.suffix_refl]
    · rw [tree.length_childErrors] at hlt
      rw [hb, hb']
      dsimp only
      rw [String.toList_ofList, String.toList_ofList, Text.keepFrom_eq_onFrom,
        Text.keepFrom_eq_onFrom]
      exact Text.onFrom_suffix_onFrom _ (horder b hlt b' hle)

/-- Floors of three and of all five lines of `brokenLines`: the first is scanned down to, and the
    second leaves only the margin. -/
theorem trims_grow_brokenLines :
    (brokenLines.EndsInOrder ∧ brokenLines.RowsFit ∧ brokenLines.StartsInOrder) ∧
      brokenLines.trimEnd 3 = "é\nx(\nы" ∧ brokenLines.trimEnd 5 = "é\nx(\nы\n(" ∧
      "é\nx(\nы".toList <+: "é\nx(\nы\n(".toList ∧
      brokenLines.trimStart 3 = "ы\n(\nz" ∧ brokenLines.trimStart 5 = "x(\nы\n(\nz" ∧
      "ы\n(\nz".toList <:+ "x(\nы\n(\nz".toList := by
  have hends : brokenLines.EndsInOrder := by decide +kernel
  have hstarts : brokenLines.StartsInOrder := by decide +kernel
  have hrows : brokenLines.RowsFit := by decide +kernel
  have hend : brokenLines.trimEnd 3 = "é\nx(\nы" := by decide +kernel
  have hend' : brokenLines.trimEnd 5 = "é\nx(\nы\n(" := by decide +kernel
  have hstart : brokenLines.trimStart 3 = "ы\n(\nz" := by decide +kernel
  have hstart' : brokenLines.trimStart 5 = "x(\nы\n(\nz" := by decide +kernel
  obtain ⟨hgrows, hgrows'⟩ := trims_grow_with_floor brokenLines (show 3 ≤ 5 by decide)
  have hprefix := hgrows hends hrows
  have hsuffix := hgrows' hstarts
  rw [hend, hend'] at hprefix
  rw [hstart, hstart'] at hsuffix
  exact ⟨⟨hends, hrows, hstarts⟩, hend, hend', hprefix, hstart, hstart', hsuffix⟩

end SyntaxTree

end CodeBlocks
