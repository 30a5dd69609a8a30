import CodeBlocks.Proofs.RecencyCache.Recency
import Mathlib.Algebra.Order.Field.Rat

/-! # The limit of a store — it is never exceeded

    `set` and `setLimit` may leave a store with too many entries, and
    shrink it at once to a part of its limit.  That this part is no more
    than the limit rests on two settings: the ratio lies between zero and
    one, whatever number was given for it, and the limit is a double, so
    that it is not rounded up on its way through the product.

    A store that keeps to its limit has nothing to give up when only its
    ratio changes. -/

namespace CodeBlocks

/-! ## The unit interval -/

namespace Binary64

/-- The number that a finite double stands for. -/
def value (x : Binary64) : ℚ :=
  (if x.negative then -(x.units : ℚ) else x.units) / unitsOfOne

theorem powerOfTwo_lt {m n : Nat} (h : m < n) : powerOfTwo m < powerOfTwo n :=
  Nat.pow_lt_pow_right Nat.one_lt_two h

/-- A magnitude of at most one is not that of infinity, nor of a NaN. -/
theorem isFinite_of_units_le {x : Binary64} (h : x.units ≤ unitsOfOne) : x.isFinite = true := by
  rw [isFinite, bne_iff_ne]
  intro hfield
  have hunits : x.units = (exponentUnit + x.fraction) * powerOfTwo 2046 := by
    rw [units, significand, power, hfield]
    rfl
  have hlarge : unitsOfOne < powerOfTwo 2046 := powerOfTwo_lt (show 1074 < 2046 by decide)
  have hle : powerOfTwo 2046 ≤ (exponentUnit + x.fraction) * powerOfTwo 2046 :=
    Nat.le_mul_of_pos_left _ (Nat.add_pos_left (powerOfTwo_pos 52) _)
  omega

theorem inUnitInterval_iff {x : Binary64} :
    x.inUnitInterval = true ↔ x.isFinite = true ∧ 0 ≤ x.value ∧ x.value ≤ 1 := by
  have hpos : (0 : ℚ) < unitsOfOne := Nat.cast_pos.mpr unitsOfOne_pos
  rw [inUnitInterval, Bool.and_eq_true, value, le_div_iff₀ hpos, div_le_iff₀ hpos, zero_mul,
    one_mul]
  refine and_congr_right fun _ => ?_
  cases x.negative with
  | true =>
      -- below zero only the zero with a sign is left
      simp only [if_true, beq_iff_eq, neg_nonneg]
      constructor
      · intro hzero
        rw [hzero]
        have hbelow : -((0 : Nat) : ℚ) ≤ 0 := neg_nonpos.mpr (Nat.cast_nonneg 0)
        exact ⟨le_of_eq Nat.cast_zero, hbelow.trans (le_of_lt hpos)⟩
      · rintro ⟨hle, -⟩
        exact Nat.cast_eq_zero.mp (le_antisymm hle (Nat.cast_nonneg _))
  | false =>
      simp only [Bool.false_eq_true, if_false, decide_eq_true_eq]
      constructor
      · intro hle
        exact ⟨Nat.cast_nonneg _, Nat.cast_le.mpr hle⟩
      · rintro ⟨-, hle⟩
        exact Nat.cast_le.mp hle

/-- **Every double is brought into the unit interval**, infinities and NaN included. -/
theorem inUnitInterval_clampUnit (x : Binary64) : x.clampUnit.inUnitInterval = true := by
  have hone : one.inUnitInterval = true := by decide +kernel
  rw [clampUnit]
  split_ifs with hnan hnegative hzero hlarge
  · exact hone
  · have hfinite : x.isFinite = true := isFinite_of_units_le (hzero ▸ Nat.zero_le _)
    simp [inUnitInterval, hfinite, hnegative, hzero]
  · decide +kernel
  · exact hone
  · have hle : x.units ≤ unitsOfOne := Nat.le_of_not_lt hlarge
    simp [inUnitInterval, isFinite_of_units_le hle, hnegative, hle]

end Binary64

namespace RecencyCache

variable {κ α : Type} [DecidableEq κ] {c : RecencyCache κ α}

/-- The settings that the bound on the size rests on: a limit that is a double, and a ratio in the
    unit interval. -/
structure WellSet (c : RecencyCache κ α) : Prop where
  limit : c.limit ≤ Binary64.powerOfTwo 53
  ratio : c.ratio.inUnitInterval = true

theorem WellSet.apply (h : c.WellSet) {operation : Operation κ α}
    (hlimit : ∀ limit, operation = .setLimit limit → limit ≤ Binary64.powerOfTwo 53) :
    (c.apply operation).WellSet where
  limit := by
    rw [limit_apply]
    cases operation with
    | setLimit limit => exact hlimit limit rfl
    | _ => exact h.limit
  ratio := by
    rw [ratio_apply]
    cases operation with
    | setRatio ratio => exact ratio.inUnitInterval_clampUnit
    | _ => exact h.ratio

theorem WellSet.applyAll (h : c.WellSet) {operations : List (Operation κ α)}
    (hlimits : ∀ limit, .setLimit limit ∈ operations → limit ≤ Binary64.powerOfTwo 53) :
    (c.applyAll operations).WellSet := by
  induction operations generalizing c with
  | nil => exact h
  | cons operation operations ih =>
      have hfirst : (c.apply operation).WellSet := by
        refine h.apply ?_
        intro limit heq
        exact hlimits limit (heq ▸ List.mem_cons_self)
      exact ih hfirst fun limit hmem => hlimits limit (List.mem_cons_of_mem operation hmem)

omit [DecidableEq κ] in
theorem trim_of_le (h : c.size ≤ c.limit) : c.trim = c := by
  rw [RecencyCache.trim, if_neg (Nat.not_lt_of_le h)]

omit [DecidableEq κ] in
/-- A new ratio takes nothing from a store that keeps to its limit. -/
theorem entries_setRatio (h : c.size ≤ c.limit) (ratio : Binary64) :
    (c.setRatio ratio).entries = c.entries := by
  rw [setRatio, trim_of_le]
  exact h

/-- **The store keeps to its limit.**  Of a store that begins empty, and whose limits are all at
    most 2^53, after every run of operations

    * no key is there twice, and there are no more entries than the limit allows;
    * the ratio lies between zero and one, whatever doubles were given for it;
    * setting the ratio once more takes no entry away. -/
theorem store_keeps_to_limit {limit : Nat} {start : RecencyCache κ α}
    (hstart : (∃ ratio, start = empty limit ratio) ∨ start = withLimit limit)
    {operations : List (Operation κ α)} (hlimit : limit ≤ Binary64.powerOfTwo 53)
    (hlimits : ∀ limit, .setLimit limit ∈ operations → limit ≤ Binary64.powerOfTwo 53) :
    let c := start.applyAll operations
    c.keys.Nodup ∧ c.size ≤ c.limit ∧
    (c.ratio.isFinite = true ∧ 0 ≤ c.ratio.value ∧ c.ratio.value ≤ 1) ∧
    ∀ ratio, (c.setRatio ratio).entries = c.entries := by
  intro c
  obtain ⟨ratio, hempty⟩ : ∃ ratio, start = empty limit ratio := by
    rcases hstart with hempty | hone
    · exact hempty
    · exact ⟨Binary64.one, hone⟩
  have hset : c.WellSet := by
    have hnew : start.WellSet := hempty ▸ ⟨hlimit, ratio.inUnitInterval_clampUnit⟩
    exact hnew.applyAll hlimits
  have hbounded : c.Bounded := by
    have hnew : start.Bounded := hempty ▸ bounded_empty limit ratio
    exact hnew.applyAll operations
  have hremembers : c.Remembers ([] ++ operations) ([] ++ start.uses operations) := by
    have hnew : start.Remembers [] [] := hempty ▸ remembers_empty limit ratio
    exact hnew.applyAll operations
  have hsize : c.size ≤ c.limit := hbounded.size hset.limit
  refine ⟨?_, hsize, Binary64.inUnitInterval_iff.mp hset.ratio, entries_setRatio hsize⟩
  -- the keys are part of a list of last uses, where each key has one place
  exact hremembers.order.nodup (List.nodup_dedup _)

/-- Ratios that are no number, infinite below zero and a half, and a limit that goes down. -/
theorem store_keeps_to_limit_odd_ratios :
    let start : RecencyCache Nat Nat := empty (Binary64.powerOfTwo 53) Binary64.nan
    let operations : List (Operation Nat Nat) :=
      [.set 0 7, .set 1 8, .set 2 9, .setLimit 2, .setRatio (.infinity true), .set 0 5,
       .setRatio Binary64.half, .set 3 6, .set 4 1]
    let c := start.applyAll operations
    (∀ limit, .setLimit limit ∈ operations → limit ≤ Binary64.powerOfTwo 53) ∧
      c.keys = [3, 4] ∧ c.limit = 2 ∧ c.keys.Nodup ∧ c.size ≤ c.limit ∧
      ∀ ratio, (c.setRatio ratio).entries = c.entries := by
  intro start operations c
  have hlimits : ∀ limit, .setLimit limit ∈ operations → limit ≤ Binary64.powerOfTwo 53 := by
    intro limit hmem
    obtain rfl : limit = 2 := by simpa [operations] using hmem
    decide
  obtain ⟨hnodup, hsize, -, hratio⟩ :=
    store_keeps_to_limit (.inl ⟨Binary64.nan, rfl⟩) (Nat.le_refl _) hlimits
  exact ⟨hlimits, by decide +kernel, by decide +kernel, hnodup, hsize, hratio⟩

end RecencyCache

end CodeBlocks
