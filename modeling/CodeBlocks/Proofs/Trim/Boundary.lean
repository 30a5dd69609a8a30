import CodeBlocks.Proofs.Text.Cut
import Mathlib.Order.Bounds.Basic

/-! # The boundary of a trim — where the scan stops and what is cut

    The scan over the children of the root goes inward from an edge and
    stops at the first clean child behind an errored one.  Said without a
    scan, this is the candidate nearest to the edge: the greatest one for
    the end of the text, the least one for its start.

    The scan and the cut together: the trimmed text is the source up to the
    end of the boundary, or from its start on, byte for byte. -/

namespace CodeBlocks

namespace Trim

/-! ## The scan -/

/-- A child the scan may stop at: clean, with an errored child before it in the order of
    the scan. -/
def Stops (earlier : Nat → Nat → Prop) (seen : Bool) (scanned : List (Bool × Nat)) (i : Nat) :
    Prop :=
  (false, i) ∈ scanned ∧ (seen = true ∨ ∃ j, (true, j) ∈ scanned ∧ earlier j i)

variable {earlier : Nat → Nat → Prop} {seen : Bool} {rest : List (Bool × Nat)}

/-- An errored child in front lets the scan stop at any clean one after it. -/
theorem stops_cons_errored {k : Nat} (hk : ∀ entry ∈ rest, earlier k entry.2) (i : Nat) :
    Stops earlier seen ((true, k) :: rest) i ↔ Stops earlier true rest i := by
  constructor
  · rintro ⟨hclean, -⟩
    refine ⟨?_, .inl rfl⟩
    simpa using hclean
  · rintro ⟨hclean, -⟩
    exact ⟨List.mem_cons_of_mem _ hclean, .inr ⟨k, List.mem_cons_self, hk _ hclean⟩⟩

/-- A clean child in front is passed while no errored one was seen. -/
theorem stops_cons_clean (hasymm : ∀ i j, earlier i j → ¬ earlier j i) {k : Nat}
    (hk : ∀ entry ∈ rest, earlier k entry.2) (i : Nat) :
    Stops earlier false ((false, k) :: rest) i ↔ Stops earlier false rest i := by
  constructor
  · rintro ⟨hclean, hseen | ⟨j, herrored, hji⟩⟩
    · cases hseen
    · have herrored : (true, j) ∈ rest := by simpa using herrored
      rcases List.mem_cons.mp hclean with heq | hclean
      · cases heq
        exact (hasymm k j (hk _ herrored) hji).elim
      · exact ⟨hclean, .inr ⟨j, herrored, hji⟩⟩
  · rintro ⟨hclean, hseen | ⟨j, herrored, hji⟩⟩
    · cases hseen
    · exact ⟨List.mem_cons_of_mem _ hclean, .inr ⟨j, List.mem_cons_of_mem _ herrored, hji⟩⟩

/-- The scan stops at the earliest child it may stop at, and only if there is one. -/
theorem firstCleanAfterError_eq (hasymm : ∀ i j, earlier i j → ¬ earlier j i)
    (seen : Bool) {scanned : List (Bool × Nat)}
    (h : scanned.Pairwise fun a b => earlier a.2 b.2) :
    (∀ i, firstCleanAfterError seen scanned = some i →
      Stops earlier seen scanned i ∧ ∀ k, Stops earlier seen scanned k → k = i ∨ earlier i k) ∧
    (firstCleanAfterError seen scanned = none → ∀ i, ¬ Stops earlier seen scanned i) := by
  induction scanned generalizing seen with
  | nil =>
      constructor
      · intro i hi
        cases hi
      · rintro - i ⟨hi, -⟩
        cases hi
  | cons entry rest ih =>
      obtain ⟨errored, k⟩ := entry
      obtain ⟨hk, hrest⟩ := List.pairwise_cons.mp h
      -- but for a clean child after an errored one, the rest has the same stops
      cases errored with
      | true =>
          simp only [stops_cons_errored hk]
          exact ih _ hrest
      | false =>
          cases seen with
          | false =>
              simp only [stops_cons_clean hasymm hk]
              exact ih _ hrest
          | true =>
              constructor
              · intro i hi
                cases hi
                refine ⟨⟨List.mem_cons_self, .inl rfl⟩, ?_⟩
                rintro j ⟨hj, -⟩
                rcases List.mem_cons.mp hj with heq | hmem
                · cases heq
                  exact .inl rfl
                · exact .inr (hk _ hmem)
              · intro hnone
                cases hnone

theorem mem_of_firstCleanAfterError {seen : Bool} {scanned : List (Bool × Nat)} {i : Nat}
    (h : firstCleanAfterError seen scanned = some i) : (false, i) ∈ scanned := by
  induction scanned generalizing seen with
  | nil => cases h
  | cons entry rest ih =>
      obtain ⟨errored, k⟩ := entry
      cases errored with
      | true => exact List.mem_cons_of_mem _ (ih h)
      | false =>
          cases seen with
          | true =>
              obtain rfl : k = i := Option.some.inj h
              exact List.mem_cons_self
          | false => exact List.mem_cons_of_mem _ (ih h)

theorem pairwise_zipIdx (errors : List Bool) :
    errors.zipIdx.Pairwise fun a b => a.2 < b.2 := by
  have hrange := List.pairwise_lt_range' (s := 0) (n := errors.length)
  rw [← List.zipIdx_map_snd 0 errors] at hrange
  exact List.pairwise_map.mp hrange

theorem mem_zipIdx_drop {errors : List Bool} {floor i : Nat} {errored : Bool} :
    (errored, i) ∈ errors.zipIdx.drop floor ↔ floor ≤ i ∧ errors[i]? = some errored := by
  rw [List.mem_iff_getElem?]
  simp only [List.getElem?_drop, List.getElem?_zipIdx, Option.map_eq_some_iff, Prod.mk.injEq]
  constructor
  · rintro ⟨n, flag, hflag, rfl, hi⟩
    rw [Nat.zero_add] at hi
    exact ⟨by omega, hi ▸ hflag⟩
  · rintro ⟨hfloor, herror⟩
    refine ⟨i - floor, errored, ?_, rfl, by omega⟩
    rwa [Nat.add_sub_cancel' hfloor]

theorem mem_zipIdx_take {errors : List Bool} {stop i : Nat} {errored : Bool} :
    (errored, i) ∈ errors.zipIdx.take stop ↔ i < stop ∧ errors[i]? = some errored := by
  rw [List.mem_iff_getElem?]
  simp only [List.getElem?_take]
  constructor
  · rintro ⟨n, hn⟩
    split at hn
    · next hstop =>
        simp only [List.getElem?_zipIdx, Option.map_eq_some_iff, Prod.mk.injEq] at hn
        obtain ⟨flag, hflag, rfl, hi⟩ := hn
        rw [Nat.zero_add] at hi
        exact ⟨hi ▸ hstop, hi ▸ hflag⟩
    · cases hn
  · rintro ⟨hstop, herror⟩
    refine ⟨i, ?_⟩
    rw [if_pos hstop, List.getElem?_zipIdx, herror]
    simp

theorem marginOnly_iff {rootError : Bool} {count floor : Nat} :
    marginOnly rootError count floor = true ↔ rootError = false ∨ count ≤ floor := by
  simp [marginOnly]

/-- The boundary for the end is one of the children. -/
theorem lt_length_of_endBoundary? {rootError : Bool} {errors : List Bool} {minimum b : Nat}
    (h : endBoundary? rootError errors minimum = some b) : b < errors.length := by
  rw [endBoundary?] at h
  by_cases hmargin : marginOnly rootError errors.length (floorOf minimum) = true
  · rw [if_pos hmargin] at h
    split at h
    · cases h
    · obtain rfl : errors.length - 2 = b := Option.some.inj h
      omega
  · rw [if_neg hmargin] at h
    rw [marginOnly_iff, not_or, Nat.not_le] at hmargin
    obtain rfl := Option.some.inj h
    cases hstop : firstCleanAfterError false (errors.zipIdx.drop (floorOf minimum)).reverse with
    | none => exact Nat.lt_of_le_of_lt (Nat.sub_le ..) hmargin.2
    | some i =>
        have hmem := List.mem_reverse.mp (mem_of_firstCleanAfterError hstop)
        exact (List.getElem?_eq_some_iff.mp (mem_zipIdx_drop.mp hmem).2).1

end Trim

namespace SyntaxTree

/-! ## The boundary among the children of the root -/

/-- The number of children of the root. -/
def topCount (tree : SyntaxTree) : Nat := (tree.node 0).children.length

/-- The children the end may be cut at: clean, past the floor, with an errored child
    after them. -/
def endCandidates (tree : SyntaxTree) (floor : Nat) : Set Nat :=
  {i | floor ≤ i ∧ i < tree.topCount ∧ (tree.topNode i).hasError = false ∧
    ∃ j < tree.topCount, i < j ∧ (tree.topNode j).hasError = true}

/-- The children the start may be cut at: clean, before the floor at the end, with an
    errored child before them. -/
def startCandidates (tree : SyntaxTree) (floor : Nat) : Set Nat :=
  {i | i < tree.topCount - floor ∧ (tree.topNode i).hasError = false ∧
    ∃ j < i, (tree.topNode j).hasError = true}

/-- The child a text is cut at: a fixed one if the edge is given up without a scan, else
    the candidate nearest to the edge, or the last one of the floor. -/
structure IsBoundary (tree : SyntaxTree) (floor : Nat) (Nearest : Set Nat → Nat → Prop)
    (candidates : Set Nat) (margin last b : Nat) : Prop where
  lt_topCount : b < tree.topCount
  of_margin : tree.hasError = false ∨ tree.topCount ≤ floor → b = margin
  of_scan : tree.hasError = true → floor < tree.topCount →
    Nearest candidates b ∨ candidates = ∅ ∧ b = last

/-- The child whose end is the new end of the text. -/
def IsEndBoundary (tree : SyntaxTree) (floor b : Nat) : Prop :=
  tree.IsBoundary floor IsGreatest (tree.endCandidates floor) (tree.topCount - 2) (floor - 1) b

/-- The child whose start is the new start of the text. -/
def IsStartBoundary (tree : SyntaxTree) (floor b : Nat) : Prop :=
  tree.IsBoundary floor IsLeast (tree.startCandidates floor) 1 (tree.topCount - floor) b

theorem length_childErrors (tree : SyntaxTree) : tree.childErrors.length = tree.topCount :=
  List.length_map _

/-- The flag of a child is that of its node. -/
theorem childErrors_eq_some_iff {tree : SyntaxTree} {i : Nat} {errored : Bool} :
    tree.childErrors[i]? = some errored
      ↔ i < tree.topCount ∧ (tree.topNode i).hasError = errored := by
  rw [childErrors, List.getElem?_map, Option.map_eq_some_iff, topNode, List.getD_eq_getElem?_getD]
  constructor
  · rintro ⟨child, hchild, herror⟩
    refine ⟨(List.getElem?_eq_some_iff.mp hchild).1, ?_⟩
    rw [hchild]
    exact herror
  · rintro ⟨hi, herror⟩
    refine ⟨_, List.getElem?_eq_getElem hi, ?_⟩
    rw [List.getElem?_eq_getElem hi] at herror
    exact herror

theorem stops_end_iff {tree : SyntaxTree} {floor i : Nat} :
    Trim.Stops (· > ·) false (tree.childErrors.zipIdx.drop floor).reverse i
      ↔ i ∈ tree.endCandidates floor := by
  simp only [Trim.Stops, List.mem_reverse, Trim.mem_zipIdx_drop, childErrors_eq_some_iff]
  constructor
  · rintro ⟨⟨hfloor, hi, hclean⟩, hseen | ⟨j, ⟨-, hj, herrored⟩, hij⟩⟩
    · cases hseen
    · exact ⟨hfloor, hi, hclean, j, hj, hij, herrored⟩
  · rintro ⟨hfloor, hi, hclean, j, hj, hij, herrored⟩
    exact ⟨⟨hfloor, hi, hclean⟩, .inr ⟨j, ⟨by omega, hj, herrored⟩, hij⟩⟩

theorem stops_start_iff {tree : SyntaxTree} {floor i : Nat} :
    Trim.Stops (· < ·) false (tree.childErrors.zipIdx.take (tree.topCount - floor)) i
      ↔ i ∈ tree.startCandidates floor := by
  simp only [Trim.Stops, Trim.mem_zipIdx_take, childErrors_eq_some_iff]
  constructor
  · rintro ⟨⟨hi, -, hclean⟩, hseen | ⟨j, ⟨-, -, herrored⟩, hji⟩⟩
    · cases hseen
    · exact ⟨hi, hclean, j, hji, herrored⟩
  · rintro ⟨hi, hclean, j, hji, herrored⟩
    exact ⟨⟨hi, by omega, hclean⟩, .inr ⟨j, ⟨by omega, by omega, herrored⟩, hji⟩⟩

/-- The scan for the end stops at the greatest candidate, or at none if there is none. -/
theorem scan_end (tree : SyntaxTree) (floor : Nat) :
    let stop := Trim.firstCleanAfterError false (tree.childErrors.zipIdx.drop floor).reverse
    (∀ b, stop = some b → IsGreatest (tree.endCandidates floor) b) ∧
    (stop = none → tree.endCandidates floor = ∅) := by
  -- the scan goes backward, so an earlier child has the greater number
  have horder := List.pairwise_reverse.mpr
    ((Trim.pairwise_zipIdx tree.childErrors).sublist (List.drop_sublist floor _))
  obtain ⟨hsome, hnone⟩ := Trim.firstCleanAfterError_eq
    (fun i j (hij : i > j) => Nat.lt_asymm hij) false horder
  simp only [stops_end_iff] at hsome hnone
  refine ⟨fun b hb => ?_, fun hstop => Set.eq_empty_of_forall_notMem (hnone hstop)⟩
  obtain ⟨hmem, hnext⟩ := hsome b hb
  exact ⟨hmem, fun k hk => (hnext k hk).elim Nat.le_of_eq Nat.le_of_lt⟩

/-- The scan for the start stops at the least candidate, or at none if there is none. -/
theorem scan_start (tree : SyntaxTree) (floor : Nat) :
    let stop := Trim.firstCleanAfterError false
      (tree.childErrors.zipIdx.take (tree.topCount - floor))
    (∀ b, stop = some b → IsLeast (tree.startCandidates floor) b) ∧
    (stop = none → tree.startCandidates floor = ∅) := by
  have horder := (Trim.pairwise_zipIdx tree.childErrors).sublist
    (List.take_sublist (tree.topCount - floor) _)
  obtain ⟨hsome, hnone⟩ := Trim.firstCleanAfterError_eq
    (fun i j (hij : i < j) => Nat.lt_asymm hij) false horder
  simp only [stops_start_iff] at hsome hnone
  refine ⟨fun b hb => ?_, fun hstop => Set.eq_empty_of_forall_notMem (hnone hstop)⟩
  obtain ⟨hmem, hnext⟩ := hsome b hb
  exact ⟨hmem, fun k hk => (hnext k hk).elim (fun heq => Nat.le_of_eq heq.symm) Nat.le_of_lt⟩

/-- Giving up the edge or scanning, a boundary is found. -/
theorem IsBoundary.of_choice {tree : SyntaxTree} {floor margin last : Nat}
    {Nearest : Set Nat → Nat → Prop} {candidates : Set Nat} {stop : Option Nat}
    (hmargin : margin < tree.topCount) (hlast : floor < tree.topCount → last < tree.topCount)
    (hlt : ∀ b ∈ candidates, b < tree.topCount) (hmem : ∀ b, Nearest candidates b → b ∈ candidates)
    (hscan : (∀ b, stop = some b → Nearest candidates b) ∧ (stop = none → candidates = ∅)) :
    tree.IsBoundary floor Nearest candidates margin last
      (if Trim.marginOnly tree.hasError tree.topCount floor then margin else stop.getD last) := by
  split
  · next hgiven =>
      refine ⟨hmargin, fun _ => rfl, fun herror hcount => ?_⟩
      rcases Trim.marginOnly_iff.mp hgiven with hclean | hle
      · rw [herror] at hclean
        cases hclean
      · exact absurd hcount (Nat.not_lt.mpr hle)
  · next hgiven =>
      rw [Trim.marginOnly_iff, not_or, Nat.not_le] at hgiven
      have hnot : ¬ (tree.hasError = false ∨ tree.topCount ≤ floor) := by
        rintro (hclean | hle)
        · exact hgiven.1 hclean
        · exact absurd hgiven.2 (Nat.not_lt.mpr hle)
      cases stop with
      | none => exact ⟨hlast hgiven.2, fun h => absurd h hnot, fun _ _ => .inr ⟨hscan.2 rfl, rfl⟩⟩
      | some b =>
          have hnearest := hscan.1 b rfl
          exact ⟨hlt b (hmem b hnearest), fun h => absurd h hnot, fun _ _ => .inl hnearest⟩

/-- With at most one child nothing is trimmed. -/
theorem boundaries_eq_none {tree : SyntaxTree} (h : tree.topCount ≤ 1) (minimum : Nat) :
    Trim.endBoundary? tree.hasError tree.childErrors minimum = none ∧
    Trim.startBoundary? tree.hasError tree.childErrors minimum = none := by
  have hmargin : Trim.marginOnly tree.hasError tree.topCount (Trim.floorOf minimum) = true :=
    Trim.marginOnly_iff.mpr (.inr (Nat.le_trans h (Nat.le_max_right ..)))
  have hfew : tree.topCount < 2 := by omega
  constructor
  · rw [Trim.endBoundary?, length_childErrors, if_pos hmargin, if_pos hfew]
  · rw [Trim.startBoundary?, length_childErrors, if_pos hmargin, if_pos hfew]

/-- With more children there is a boundary for the end. -/
theorem exists_endBoundary {tree : SyntaxTree} (h : 1 < tree.topCount) (minimum : Nat) :
    ∃ b, Trim.endBoundary? tree.hasError tree.childErrors minimum = some b ∧
      tree.IsEndBoundary (Trim.floorOf minimum) b := by
  have hmany : ¬ tree.topCount < 2 := by omega
  refine ⟨_, ?_, IsBoundary.of_choice (by omega) (fun hcount => by omega) (fun b hb => hb.2.1)
    (fun b hb => hb.1) (tree.scan_end _)⟩
  rw [Trim.endBoundary?, length_childErrors, if_neg hmany]
  split <;> rfl

theorem exists_startBoundary {tree : SyntaxTree} (h : 1 < tree.topCount) (minimum : Nat) :
    ∃ b, Trim.startBoundary? tree.hasError tree.childErrors minimum = some b ∧
      tree.IsStartBoundary (Trim.floorOf minimum) b := by
  have hmany : ¬ tree.topCount < 2 := by omega
  have hfloor : 1 ≤ Trim.floorOf minimum := Nat.le_max_right ..
  refine ⟨_, ?_, IsBoundary.of_choice (by omega) (fun hcount => by omega)
    (fun b hb => Nat.lt_of_lt_of_le hb.1 (Nat.sub_le ..)) (fun b hb => hb.1) (tree.scan_start _)⟩
  rw [Trim.startBoundary?, length_childErrors, if_neg hmany]
  split <;> rfl

/-! ## The cut -/

/-- The children of the root lie where their points say, on character boundaries of a text
    whose bytes can be counted. -/
structure TopAligned (tree : SyntaxTree) : Prop where
  fits : Text.byteLength tree.source.toList < Word.greatest
  stop : ∀ i < tree.topCount,
    Text.IsPosition tree.source.toList (tree.topNode i).span.endByte (tree.topNode i).span.stop
  start : ∀ i < tree.topCount,
    Text.IsPosition tree.source.toList (tree.topNode i).span.startByte (tree.topNode i).span.start

instance (tree : SyntaxTree) : Decidable tree.TopAligned :=
  decidable_of_iff (_ ∧ _ ∧ _) ⟨fun h => ⟨h.1, h.2.1, h.2.2⟩, fun h => ⟨h.1, h.2, h.3⟩⟩

/-- **Trimming cuts exactly at the boundary**: with at most one child nothing is trimmed;
    with more, the end is cut after the bytes of its boundary and the start before the bytes
    of its own. -/
theorem trims_cut_at_boundary (tree : SyntaxTree) (h : tree.TopAligned) (minimum : Nat) :
    (tree.topCount ≤ 1 →
      tree.trimEnd minimum = tree.source ∧ tree.trimStart minimum = tree.source) ∧
    (1 < tree.topCount →
      (∃ b, tree.IsEndBoundary (max minimum 1) b ∧
        Text.slice? tree.source.toList 0 (tree.topNode b).span.endByte
          = some (tree.trimEnd minimum).toList) ∧
      (∃ b, tree.IsStartBoundary (max minimum 1) b ∧
        Text.slice? tree.source.toList (tree.topNode b).span.startByte
            (Text.byteLength tree.source.toList)
          = some (tree.trimStart minimum).toList)) := by
  constructor
  · intro hfew
    obtain ⟨hend, hstart⟩ := boundaries_eq_none hfew minimum
    rw [trimEnd, trimStart, hend, hstart]
    exact ⟨rfl, rfl⟩
  · intro hmany
    constructor
    · obtain ⟨b, hb, hboundary⟩ := exists_endBoundary hmany minimum
      refine ⟨b, hboundary, ?_⟩
      rw [trimEnd, hb, String.toList_ofList]
      exact Text.slice?_zero_eq_keepThrough (h.stop b hboundary.lt_topCount) h.fits
    · obtain ⟨b, hb, hboundary⟩ := exists_startBoundary hmany minimum
      refine ⟨b, hboundary, ?_⟩
      rw [trimStart, hb, String.toList_ofList]
      exact Text.slice?_length_eq_keepFrom (h.start b hboundary.lt_topCount)

/-- Five lines, the second and the fourth errored, with characters of one and two bytes. -/
def brokenLines : SyntaxTree :=
  let line := fun (errored : Bool) (first last row column : Nat) =>
    (⟨"line", none, ⟨first, last, ⟨row, 0⟩, ⟨row, column⟩⟩, errored, some 0, [], row + 2⟩ : Node)
  ⟨"é\nx(\nы\n(\nz",
    #[⟨"text", none, ⟨0, 12, ⟨0, 0⟩, ⟨4, 1⟩⟩, true, none, [1, 2, 3, 4, 5], 6⟩,
      line false 0 2 0 2, line true 3 5 1 2, line false 6 8 2 2, line true 9 10 3 1,
      line false 11 12 4 1]⟩

/-- The third line is the last one with an errored line after it. -/
theorem isGreatest_brokenLines : IsGreatest (brokenLines.endCandidates 1) 2 := by
  constructor
  · exact ⟨by decide, by decide, by decide, 3, by decide, by decide, by decide⟩
  · rintro i ⟨-, -, hclean, j, hj, hij, -⟩
    have hcount : brokenLines.topCount = 5 := rfl
    have hne : i ≠ 3 := by
      rintro rfl
      exact absurd hclean (by decide)
    omega

/-- The third line is the first one with an errored line before it. -/
theorem isLeast_brokenLines : IsLeast (brokenLines.startCandidates 1) 2 := by
  constructor
  · exact ⟨by decide, by decide, 1, by decide, by decide⟩
  · rintro i ⟨-, hclean, j, hji, -⟩
    have hne : i ≠ 1 := by
      rintro rfl
      exact absurd hclean (by decide)
    omega

/-- Both trims of `brokenLines` are cut at its third line. -/
theorem trims_cut_brokenLines :
    brokenLines.TopAligned ∧
      brokenLines.trimEnd 1 = "é\nx(\nы" ∧ brokenLines.trimStart 1 = "ы\n(\nz" := by
  have haligned : brokenLines.TopAligned := by decide +kernel
  obtain ⟨⟨b, hb, hend⟩, c, hc, hstart⟩ :=
    (trims_cut_at_boundary brokenLines haligned 1).2 (by decide)
  obtain rfl : b = 2 := by
    rcases hb.of_scan rfl (by decide) with hgreatest | ⟨hempty, -⟩
    · exact hgreatest.unique isGreatest_brokenLines
    · exact absurd isGreatest_brokenLines.1 (Set.eq_empty_iff_forall_notMem.mp hempty 2)
  obtain rfl : c = 2 := by
    rcases hc.of_scan rfl (by decide) with hleast | ⟨hempty, -⟩
    · exact hleast.unique isLeast_brokenLines
    · exact absurd isLeast_brokenLines.1 (Set.eq_empty_iff_forall_notMem.mp hempty 2)
  refine ⟨haligned, String.toList_inj.mp (Option.some.inj (hend.symm.trans ?_)),
    String.toList_inj.mp (Option.some.inj (hstart.symm.trans ?_))⟩
  · decide +kernel
  · decide +kernel

end SyntaxTree

end CodeBlocks
