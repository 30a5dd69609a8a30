import CodeBlocks.Proofs.Trim.Boundary
import Mathlib.Order.Interval.Set.OrdConnected

/-! # Trimming and the longest clean run — when the scan reaches it

    Ideally a trim keeps the longest run of children, from the floor
    outward, in which none is errored.  The scan comes from the other side:
    it goes inward from the edge, and gives up the first run of errored
    children it meets.  The two agree exactly if this run is the only one.
    Errors nearer to the floor stay in the text, and if nothing beyond the
    floor is errored the scan meets nothing and falls back to the floor.

    Both edges are the same argument, so it is made once in a linear order
    that grows outward: for the start of the text the order is reversed. -/

namespace CodeBlocks

namespace Trim

section Outward

variable {α : Type} [LinearOrder α]

/-- Clean places beyond `last`, the last one of the floor, with an errored one further out. -/
def inwardStops (last : α) (errors : Set α) : Set α :=
  {i | last < i ∧ i ∉ errors ∧ ∃ j ∈ errors, i < j}

/-- Where a scan inward from the edge ends: at the outermost stop, else at the floor. -/
def EndsScan (last : α) (errors : Set α) (b : α) : Prop :=
  IsGreatest (inwardStops last errors) b ∨ inwardStops last errors = ∅ ∧ b = last

/-- Places up to which, from the floor outward, nothing is errored. -/
def cleanReach (last : α) (inText : α → Prop) (errors : Set α) : Set α :=
  {b | last ≤ b ∧ inText b ∧ ∀ i, last < i → i ≤ b → i ∉ errors}

variable {last b : α} {errors : Set α} (hb : EndsScan last errors b)
variable (hbeyond : ∀ i ∈ errors, last < i)

include hb

theorem EndsScan.le : last ≤ b := by
  rcases hb with hgreatest | ⟨-, rfl⟩
  · exact hgreatest.1.1.le
  · exact le_rfl

/-- A clean place below an errored one is not beyond the end of the scan. -/
theorem EndsScan.stop_le {i j : α} (hi : last < i) (hclean : i ∉ errors) (hj : j ∈ errors)
    (hij : i < j) : i ≤ b := by
  have hstop : i ∈ inwardStops last errors := ⟨hi, hclean, j, hj, hij⟩
  rcases hb with hgreatest | ⟨hempty, -⟩
  · exact hgreatest.2 hstop
  · exact absurd hstop (Set.eq_empty_iff_forall_notMem.mp hempty i)

/-- Without errors the scan falls back to the floor. -/
theorem EndsScan.eq_last (hempty : errors = ∅) : b = last := by
  rcases hb with ⟨⟨-, -, j, hj, -⟩, -⟩ | ⟨-, rfl⟩
  · rw [hempty] at hj
    cases hj
  · rfl

include hbeyond

/-- The scan gives up the outermost run of errored places: it ends right before this run. -/
theorem EndsScan.precedes_run {e : α} (he : IsGreatest errors e) :
    b ∉ errors ∧ b < e ∧ Set.Ioc b e ⊆ errors := by
  have hends : b ∉ errors ∧ b < e := by
    rcases hb with ⟨⟨-, hclean, j, hj, hbj⟩, -⟩ | ⟨-, rfl⟩
    · exact ⟨hclean, hbj.trans_le (he.2 hj)⟩
    · exact ⟨fun herror => lt_irrefl b (hbeyond b herror), hbeyond e he.1⟩
  refine ⟨hends.1, hends.2, ?_⟩
  rintro i ⟨hbi, hie⟩
  by_contra hclean
  have hne : i ≠ e := fun heq => hclean (heq ▸ he.1)
  have hle := hb.stop_le (hb.le.trans_lt hbi) hclean he.1 (lt_of_le_of_ne hie hne)
  exact absurd hle (not_le.mpr hbi)

/-- **The scan ends where the longest clean run does exactly if the errored places are one
    unbroken run.** -/
theorem EndsScan.isGreatest_cleanReach_iff {inText : α → Prop}
    (hinward : ∀ i j, i ≤ j → inText j → inText i) (herrors : ∀ i ∈ errors, inText i)
    (hmore : ∃ i, last < i ∧ inText i) :
    IsGreatest (cleanReach last inText errors) b ↔ errors.Nonempty ∧ errors.OrdConnected := by
  constructor
  · rintro ⟨⟨-, -, hclean⟩, hgreatest⟩
    constructor
    · rw [Set.nonempty_iff_ne_empty]
      intro hempty
      obtain ⟨i, hi, hin⟩ := hmore
      have hreach : i ∈ cleanReach last inText errors :=
        ⟨hi.le, hin, fun j _ _ hj => by rw [hempty] at hj; cases hj⟩
      exact absurd (hgreatest hreach) (not_le.mpr (hb.eq_last hempty ▸ hi))
    · refine ⟨?_⟩
      rintro i hi k hk j ⟨hij, hjk⟩
      by_contra hnot
      -- a gap between two errored places is a stop, so the scan keeps the inner of them
      have hne : j ≠ k := fun heq => hnot (heq ▸ hk)
      have hjb := hb.stop_le ((hbeyond i hi).trans_le hij) hnot hk (lt_of_le_of_ne hjk hne)
      exact hclean i (hbeyond i hi) (hij.trans hjb) hi
  · rintro ⟨⟨e, he⟩, hrun⟩
    refine ⟨⟨hb.le, ?_, ?_⟩, ?_⟩
    · rcases hb with ⟨⟨-, -, j, hj, hbj⟩, -⟩ | ⟨-, rfl⟩
      · exact hinward b j hbj.le (herrors j hj)
      · exact hinward b e (hbeyond e he).le (herrors e he)
    · intro i hi hib herror
      rcases hb with ⟨⟨-, hclean, j, hj, hbj⟩, -⟩ | ⟨-, rfl⟩
      · exact hclean (hrun.out herror hj ⟨hib, hbj.le⟩)
      · exact absurd hib (not_le.mpr hi)
    · rintro b' ⟨hle, -, hclean⟩
      rcases hle.eq_or_lt with rfl | hlt
      · exact hb.le
      · -- errors are further out than any clean reach
        have hout : b' < e := by
          by_contra hnot
          exact hclean e (hbeyond e he) (not_lt.mp hnot) he
        exact hb.stop_le hlt (hclean b' hlt le_rfl) he hout

end Outward

end Trim

namespace SyntaxTree

/-! ## Both edges of a text -/

/-- The errored children past the floor. -/
def endErrors (tree : SyntaxTree) (floor : Nat) : Set Nat :=
  {i | floor ≤ i ∧ i < tree.topCount ∧ (tree.topNode i).hasError = true}

/-- The errored children before the floor at the end. -/
def startErrors (tree : SyntaxTree) (floor : Nat) : Set Nat :=
  {i | i < tree.topCount - floor ∧ (tree.topNode i).hasError = true}

/-- The children, from the last one of the floor on, up to which none past the floor is
    errored. -/
def cleanEnds (tree : SyntaxTree) (floor : Nat) : Set Nat :=
  {b | floor ≤ b + 1 ∧ b < tree.topCount ∧
    ∀ i, floor ≤ i → i ≤ b → (tree.topNode i).hasError = false}

/-- The children, up to the first one of the floor, from which on none before the floor is
    errored. -/
def cleanStarts (tree : SyntaxTree) (floor : Nat) : Set Nat :=
  {b | b ≤ tree.topCount - floor ∧
    ∀ i, b ≤ i → i < tree.topCount - floor → (tree.topNode i).hasError = false}

variable {tree : SyntaxTree} {floor : Nat}

section End

variable (hfloor : 1 ≤ floor)

include hfloor

theorem endCandidates_eq :
    tree.endCandidates floor = Trim.inwardStops (floor - 1) (tree.endErrors floor) := by
  ext i
  constructor
  · rintro ⟨hi, -, hclean, j, hj, hij, herror⟩
    refine ⟨by omega, ?_, j, ⟨by omega, hj, herror⟩, hij⟩
    rintro ⟨-, -, herrored⟩
    rw [hclean] at herrored
    cases herrored
  · rintro ⟨hi, hclean, j, ⟨-, hj, herror⟩, hij⟩
    have hi : floor ≤ i := by omega
    refine ⟨hi, by omega, ?_, j, hj, hij, herror⟩
    exact Bool.eq_false_iff.mpr fun herrored => hclean ⟨hi, by omega, herrored⟩

theorem cleanEnds_eq :
    tree.cleanEnds floor
      = Trim.cleanReach (floor - 1) (· < tree.topCount) (tree.endErrors floor) := by
  ext b
  constructor
  · rintro ⟨hle, hb, hclean⟩
    refine ⟨by omega, hb, ?_⟩
    rintro i hi hib ⟨-, -, herrored⟩
    rw [hclean i (by omega) hib] at herrored
    cases herrored
  · rintro ⟨hle, hb, hclean⟩
    refine ⟨by omega, hb, ?_⟩
    intro i hi hib
    exact Bool.eq_false_iff.mpr fun herrored =>
      hclean i (by omega) hib ⟨hi, Nat.lt_of_le_of_lt hib hb, herrored⟩

theorem IsEndBoundary.endsScan {b : Nat} (hb : tree.IsEndBoundary floor b)
    (herror : tree.hasError = true) (hcount : floor < tree.topCount) :
    Trim.EndsScan (floor - 1) (tree.endErrors floor) b := by
  rw [Trim.EndsScan, ← endCandidates_eq hfloor]
  exact hb.of_scan herror hcount

end End

section Start

open OrderDual

/-- Seen from the floor at the end, smaller numbers are further out. -/
theorem startCandidates_eq :
    Set.preimage ofDual (tree.startCandidates floor)
      = Trim.inwardStops (toDual (tree.topCount - floor))
          (Set.preimage ofDual (tree.startErrors floor)) := by
  ext i
  constructor
  · rintro ⟨hi, hclean, j, hji, herror⟩
    refine ⟨hi, ?_, toDual j, ⟨Nat.lt_trans hji hi, herror⟩, hji⟩
    rintro ⟨-, herrored⟩
    rw [hclean] at herrored
    cases herrored
  · rintro ⟨hi, hclean, j, ⟨-, herror⟩, hji⟩
    refine ⟨hi, ?_, ofDual j, hji, herror⟩
    exact Bool.eq_false_iff.mpr fun herrored => hclean ⟨hi, herrored⟩

theorem cleanStarts_eq :
    Set.preimage ofDual (tree.cleanStarts floor)
      = Trim.cleanReach (toDual (tree.topCount - floor)) (fun _ => True)
          (Set.preimage ofDual (tree.startErrors floor)) := by
  ext b
  constructor
  · rintro ⟨hle, hclean⟩
    refine ⟨hle, trivial, ?_⟩
    rintro i hi hib ⟨-, herrored⟩
    rw [hclean (ofDual i) hib hi] at herrored
    cases herrored
  · rintro ⟨hle, -, hclean⟩
    refine ⟨hle, ?_⟩
    intro i hbi hi
    exact Bool.eq_false_iff.mpr fun herrored => hclean (toDual i) hi hbi ⟨hi, herrored⟩

theorem IsStartBoundary.endsScan {b : Nat} (hb : tree.IsStartBoundary floor b)
    (herror : tree.hasError = true) (hcount : floor < tree.topCount) :
    Trim.EndsScan (toDual (tree.topCount - floor))
      (Set.preimage ofDual (tree.startErrors floor)) (toDual b) := by
  rw [Trim.EndsScan, ← startCandidates_eq]
  rcases hb.of_scan herror hcount with hleast | ⟨hempty, rfl⟩
  · exact .inl hleast.dual
  · exact .inr ⟨congrArg (Set.preimage ofDual) hempty, rfl⟩

end Start

/-- **A trim gives up the run of errored children nearest to the edge, and what is beyond it.**  If
    the root is errored and there are more children than the floor keeps, the end is cut after the
    child right before the last run of errored children past the floor, or after the floor if
    there is no such run.  So it is cut where the longest clean run from the floor on ends exactly
    if the errored children past the floor are one unbroken run.  The start of the text is the
    same with the first run before the floor at the end. -/
theorem trims_give_up_nearest_run (tree : SyntaxTree) (minimum : Nat)
    (herror : tree.hasError = true) (hcount : max minimum 1 < tree.topCount) :
    let floor := max minimum 1
    (∃ b, b < tree.topCount ∧
      tree.trimEnd minimum
        = String.ofList (Trim.keepThrough tree.source.toList (tree.topNode b).span.stop) ∧
      (tree.endErrors floor = ∅ → b = floor - 1) ∧
      (∀ e, IsGreatest (tree.endErrors floor) e →
        b ∉ tree.endErrors floor ∧ b < e ∧ Set.Ioc b e ⊆ tree.endErrors floor) ∧
      (IsGreatest (tree.cleanEnds floor) b ↔
        (tree.endErrors floor).Nonempty ∧ (tree.endErrors floor).OrdConnected)) ∧
    (∃ b, b < tree.topCount ∧
      tree.trimStart minimum
        = String.ofList (Trim.keepFrom tree.source.toList (tree.topNode b).span.start) ∧
      (tree.startErrors floor = ∅ → b = tree.topCount - floor) ∧
      (∀ e, IsLeast (tree.startErrors floor) e →
        b ∉ tree.startErrors floor ∧ e < b ∧ Set.Ico e b ⊆ tree.startErrors floor) ∧
      (IsLeast (tree.cleanStarts floor) b ↔
        (tree.startErrors floor).Nonempty ∧ (tree.startErrors floor).OrdConnected)) := by
  intro floor
  have hfloor : 1 ≤ floor := Nat.le_max_right ..
  have hmany : 1 < tree.topCount := Nat.lt_of_le_of_lt hfloor hcount
  constructor
  · obtain ⟨b, hb, hboundary⟩ := exists_endBoundary hmany minimum
    have hends := IsEndBoundary.endsScan hfloor hboundary herror hcount
    have hbeyond : ∀ i ∈ tree.endErrors floor, floor - 1 < i := by
      rintro i ⟨hi, -⟩
      omega
    refine ⟨b, hboundary.lt_topCount, by rw [trimEnd, hb], hends.eq_last,
      fun e he => hends.precedes_run hbeyond he, ?_⟩
    rw [cleanEnds_eq hfloor]
    exact hends.isGreatest_cleanReach_iff hbeyond (fun _ _ => Nat.lt_of_le_of_lt)
      (fun i hi => hi.2.1) ⟨floor, by omega, hcount⟩
  · obtain ⟨b, hb, hboundary⟩ := exists_startBoundary hmany minimum
    have hends := IsStartBoundary.endsScan hboundary herror hcount
    have hbeyond : ∀ i ∈ Set.preimage OrderDual.ofDual (tree.startErrors floor),
        OrderDual.toDual (tree.topCount - floor) < i := fun i hi => hi.1
    refine ⟨b, hboundary.lt_topCount, by rw [trimStart, hb], hends.eq_last, ?_, ?_⟩
    · intro e he
      obtain ⟨hclean, hlt, hrun⟩ := hends.precedes_run hbeyond he.dual
      exact ⟨hclean, hlt, fun i hi => hrun ⟨hi.2, hi.1⟩⟩
    · have hiff := hends.isGreatest_cleanReach_iff hbeyond (fun _ _ _ => id)
        (fun _ _ => trivial) ⟨OrderDual.toDual 0, Nat.sub_pos_of_lt hcount, trivial⟩
      rw [← cleanStarts_eq, Set.ordConnected_dual] at hiff
      exact Iff.trans ⟨IsLeast.dual, fun h => h.dual⟩ hiff

/-- Past a floor of two lines `brokenLines` has one errored line, and so it has before two lines
    at the end: both trims keep the longest clean run. -/
theorem trims_keep_clean_run_brokenLines :
    brokenLines.hasError = true ∧ max 2 1 < brokenLines.topCount ∧
    (∃ b, IsGreatest (brokenLines.cleanEnds 2) b ∧ brokenLines.trimEnd 2
      = String.ofList (Trim.keepThrough brokenLines.source.toList (brokenLines.topNode b).span.stop)) ∧
    (∃ b, IsLeast (brokenLines.cleanStarts 2) b ∧ brokenLines.trimStart 2
      = String.ofList
          (Trim.keepFrom brokenLines.source.toList (brokenLines.topNode b).span.start)) := by
  have hcount : brokenLines.topCount = 5 := rfl
  have hend : brokenLines.endErrors 2 = {3} := by
    ext i
    constructor
    · rintro ⟨hi, hlt, herror⟩
      obtain rfl | rfl | rfl : i = 2 ∨ i = 3 ∨ i = 4 := by omega
      · exact absurd herror (by decide)
      · rfl
      · exact absurd herror (by decide)
    · rintro rfl
      exact ⟨by decide, by decide, rfl⟩
  have hstart : brokenLines.startErrors 2 = {1} := by
    ext i
    constructor
    · rintro ⟨hi, herror⟩
      obtain rfl | rfl | rfl : i = 0 ∨ i = 1 ∨ i = 2 := by omega
      · exact absurd herror (by decide)
      · rfl
      · exact absurd herror (by decide)
    · rintro rfl
      exact ⟨by decide, rfl⟩
  obtain ⟨⟨b, -, htrim, -, -, hgoal⟩, c, -, htrim', -, -, hgoal'⟩ :=
    trims_give_up_nearest_run brokenLines 2 rfl (by decide)
  refine ⟨rfl, by decide, ⟨b, hgoal.mpr ?_, htrim⟩, c, hgoal'.mpr ?_, htrim'⟩
  · rw [show max 2 1 = 2 from rfl, hend]
    exact ⟨Set.singleton_nonempty 3, Set.ordConnected_singleton⟩
  · rw [show max 2 1 = 2 from rfl, hstart]
    exact ⟨Set.singleton_nonempty 1, Set.ordConnected_singleton⟩

/-- With a floor of one line there are two errored runs, and neither trim cuts where the longest
    clean run ends; nor does it with a floor of four, beyond which nothing is errored. -/
theorem trims_miss_clean_run_brokenLines :
    brokenLines.hasError = true ∧ brokenLines.topCount = 5 ∧
    (IsGreatest (brokenLines.cleanEnds 1) 0 ∧ brokenLines.trimEnd 1 ≠ String.ofList
      (Trim.keepThrough brokenLines.source.toList (brokenLines.topNode 0).span.stop)) ∧
    (IsLeast (brokenLines.cleanStarts 1) 4 ∧ brokenLines.trimStart 1 ≠ String.ofList
      (Trim.keepFrom brokenLines.source.toList (brokenLines.topNode 4).span.start)) ∧
    (IsGreatest (brokenLines.cleanEnds 4) 4 ∧ brokenLines.trimEnd 4 ≠ String.ofList
      (Trim.keepThrough brokenLines.source.toList (brokenLines.topNode 4).span.stop)) ∧
    (IsLeast (brokenLines.cleanStarts 4) 0 ∧ brokenLines.trimStart 4 ≠ String.ofList
      (Trim.keepFrom brokenLines.source.toList (brokenLines.topNode 0).span.start)) := by
  have hcount : brokenLines.topCount = 5 := rfl
  refine ⟨rfl, rfl, ⟨⟨?_, ?_⟩, by decide +kernel⟩, ⟨⟨?_, ?_⟩, by decide +kernel⟩,
    ⟨⟨?_, ?_⟩, by decide +kernel⟩, ⟨?_, fun b _ => Nat.zero_le b⟩, by decide +kernel⟩
  · exact ⟨by decide, by decide, fun i hi hib => by omega⟩
  · rintro b ⟨-, -, hclean⟩
    by_contra hnot
    exact absurd (hclean 1 (by omega) (by omega)) (by decide)
  · exact ⟨by decide, fun i hi hlt => by omega⟩
  · rintro b ⟨-, hclean⟩
    by_contra hnot
    exact absurd (hclean 3 (by omega) (by omega)) (by decide)
  · refine ⟨by decide, by decide, fun i hi hib => ?_⟩
    obtain rfl : i = 4 := by omega
    rfl
  · rintro b ⟨-, hlt, -⟩
    omega
  · refine ⟨by decide, fun i _ hlt => ?_⟩
    obtain rfl : i = 0 := by omega
    rfl

end SyntaxTree

end CodeBlocks
