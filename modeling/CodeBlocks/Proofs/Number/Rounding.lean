import CodeBlocks.Number.Binary64
import Mathlib.Algebra.Order.Ring.Nat
import Mathlib.Tactic.Ring

/-! # Rounding — what is lost and what is not

    A double is on a grid: its magnitude is a significand of fifty-three
    bits times a power of two.  Rounding to the closest double does not
    pass a point of the grid, from either side, so

    * a natural of at most fifty-three bits is a double, exactly;
    * such a natural times a double that is at most one rounds to at most
      that natural, and times one to that natural itself. -/

namespace CodeBlocks.Binary64

theorem powerOfTwo_pos (n : Nat) : 0 < powerOfTwo n := Nat.pow_pos Nat.two_pos

theorem powerOfTwo_add (m n : Nat) : powerOfTwo (m + n) = powerOfTwo m * powerOfTwo n :=
  Nat.pow_add 2 m n

theorem unitsOfOne_pos : 0 < unitsOfOne := powerOfTwo_pos 1074

/-! ## Rounding a quotient -/

section Quotient

variable {num den bound : Nat}

theorem le_roundHalfEven (hden : 0 < den) (h : bound * den ≤ num) :
    bound ≤ roundHalfEven num den := by
  have hquotient : bound ≤ num / den := (Nat.le_div_iff_mul_le hden).mpr h
  dsimp only [roundHalfEven]
  split_ifs <;> omega

theorem roundHalfEven_le (hden : 0 < den) (h : num ≤ bound * den) :
    roundHalfEven num den ≤ bound := by
  have hquotient : num / den ≤ bound := Nat.div_le_of_le_mul (by rwa [Nat.mul_comm])
  rcases Nat.lt_or_eq_of_le hquotient with hlt | heq
  · dsimp only [roundHalfEven]
    split_ifs <;> omega
  · -- a quotient that is the bound leaves no rest
    have hrest : num % den = 0 := by
      have hdecomp := Nat.div_add_mod num den
      rw [heq, Nat.mul_comm] at hdecomp
      omega
    dsimp only [roundHalfEven]
    rw [hrest, Nat.mul_zero, if_pos hden]
    exact hquotient

end Quotient

/-! ## The words of rounded quotients -/

section Word

variable {neg : Bool} {exponent fraction power significand num den : Nat}

/-- The word of a sign, an exponent and a fraction is read back field by field. -/
theorem units_fields (hexponent : exponent < 2048) (hfraction : fraction < exponentUnit) :
    units ⟨UInt64.ofNat ((if neg then signUnit else 0) + (exponent * exponentUnit + fraction))⟩
      = (if exponent = 0 then fraction else exponentUnit + fraction)
        * powerOfTwo (exponent - 1) := by
  obtain ⟨sign, hsign, hsignUnit⟩ :
      ∃ sign ≤ 1, (if neg = true then signUnit else 0) = sign * 9223372036854775808 := by
    cases neg
    · exact ⟨0, Nat.zero_le 1, rfl⟩
    · exact ⟨1, Nat.le_refl 1, rfl⟩
  have hunit : exponentUnit = 4503599627370496 := rfl
  rw [hunit] at hfraction
  rw [hsignUnit, hunit]
  generalize hword : sign * 9223372036854775808 + (exponent * 4503599627370496 + fraction) = word
  have htoNat : (UInt64.ofNat word).toNat = word := by
    refine UInt64.toNat_ofNat_of_lt' ?_
    show word < 18446744073709551616
    omega
  have hexponentField : exponentField ⟨UInt64.ofNat word⟩ = exponent := by
    rw [exponentField, htoNat, hunit]
    omega
  have hfractionField : Binary64.fraction ⟨UInt64.ofNat word⟩ = fraction := by
    rw [Binary64.fraction, htoNat, hunit]
    omega
  rw [units, Binary64.significand, Binary64.power, hexponentField, hfractionField, hunit]

/-- So is the word of a power and a significand, also one that was carried to the next power. -/
theorem units_word (hpower : power ≤ 2044) (hlow : power = 0 ∨ exponentUnit ≤ significand)
    (hhigh : significand ≤ 2 * exponentUnit) :
    units ⟨UInt64.ofNat ((if neg then signUnit else 0) + (power * exponentUnit + significand))⟩
      = significand * powerOfTwo power := by
  rcases Nat.lt_or_ge significand exponentUnit with hsmall | hnormal
  · -- no leading one: a subnormal
    obtain rfl : power = 0 := hlow.resolve_right (Nat.not_le_of_lt hsmall)
    rw [units_fields (by decide) hsmall, if_pos rfl]
  rcases Nat.lt_or_eq_of_le hhigh with hbelow | hcarried
  · obtain ⟨fraction, rfl⟩ := Nat.exists_eq_add_of_le hnormal
    have hfields : power * exponentUnit + (exponentUnit + fraction)
        = (power + 1) * exponentUnit + fraction := by ring
    rw [hfields, units_fields (by omega) (by omega), if_neg (Nat.succ_ne_zero power)]
    rfl
  · -- rounding carried to the next power of two: its word has no fraction
    have hfields : power * exponentUnit + 2 * exponentUnit = (power + 2) * exponentUnit + 0 := by
      ring
    rw [hcarried, hfields, units_fields (by omega) (powerOfTwo_pos 52),
      if_neg (Nat.succ_ne_zero (power + 1)), Nat.add_zero, Nat.mul_comm 2, Nat.mul_assoc]
    exact congrArg _ ((powerOfTwo_add power 1).trans (Nat.mul_comm ..))

/-- The rounded significand has its leading one, unless it is that of a subnormal. -/
theorem exponentUnit_le_roundHalfEven {scaled : Nat} (hden : 0 < den)
    (hpower : power = (scaled / den).log2 - 52) (hpos : power ≠ 0) :
    exponentUnit ≤ roundHalfEven scaled (den * powerOfTwo power) := by
  have hlog : 52 + power = (scaled / den).log2 := by omega
  have hne : scaled / den ≠ 0 := by
    intro hzero
    rw [hzero, Nat.log2_zero] at hlog
    omega
  refine le_roundHalfEven (Nat.mul_pos hden (powerOfTwo_pos power)) ?_
  calc exponentUnit * (den * powerOfTwo power)
      = powerOfTwo (52 + power) * den := by rw [powerOfTwo_add, exponentUnit]; ring
    _ ≤ scaled / den * den := Nat.mul_le_mul_right den (hlog ▸ Nat.log2_self_le hne)
    _ ≤ scaled := Nat.div_mul_le_self scaled den

theorem roundHalfEven_le_exponentUnit {scaled : Nat} (hden : 0 < den)
    (hpower : power = (scaled / den).log2 - 52) :
    roundHalfEven scaled (den * powerOfTwo power) ≤ 2 * exponentUnit := by
  refine roundHalfEven_le (Nat.mul_pos hden (powerOfTwo_pos power)) ?_
  have hlt : scaled / den < powerOfTwo (53 + power) :=
    calc scaled / den < powerOfTwo ((scaled / den).log2 + 1) := Nat.lt_log2_self
      _ ≤ powerOfTwo (53 + power) := Nat.pow_le_pow_right Nat.two_pos (by omega)
  calc scaled ≤ powerOfTwo (53 + power) * den :=
        Nat.le_of_lt ((Nat.div_lt_iff_lt_mul hden).mp hlt)
    _ = 2 * exponentUnit * (den * powerOfTwo power) := by
        rw [powerOfTwo_add, show powerOfTwo 53 = 2 * exponentUnit from rfl]
        ring

/-- **The magnitude of the closest double is that of the rounded significand.** -/
theorem units_nearest (hden : 0 < den) (hpower : power = (num * unitsOfOne / den).log2 - 52)
    (hfinite : power ≤ 2044) :
    units (nearest neg num den)
      = roundHalfEven (num * unitsOfOne) (den * powerOfTwo power) * powerOfTwo power := by
  have hhigh := roundHalfEven_le_exponentUnit hden hpower
  have hlow : power = 0 ∨ exponentUnit ≤ roundHalfEven (num * unitsOfOne) (den * powerOfTwo power) :=
    or_iff_not_imp_left.mpr (exponentUnit_le_roundHalfEven hden hpower)
  have hword : nearestWord num den
      = power * exponentUnit + roundHalfEven (num * unitsOfOne) (den * powerOfTwo power) := by
    dsimp only [nearestWord]
    rw [← hpower]
    refine Nat.min_eq_left ?_
    calc power * exponentUnit + roundHalfEven (num * unitsOfOne) (den * powerOfTwo power)
        ≤ 2044 * exponentUnit + 2 * exponentUnit :=
          Nat.add_le_add (Nat.mul_le_mul_right _ hfinite) hhigh
      _ ≤ infinityWord := by decide
  rw [nearest, hword]
  exact units_word hfinite hlow hhigh

end Word

/-! ## Points of the grid -/

/-- A magnitude that a double can have. -/
def OnGrid (u : Nat) : Prop :=
  ∃ significand power, significand < 2 * exponentUnit ∧ power ≤ 2044 ∧
    u = significand * powerOfTwo power

section Grid

variable {u num den n : Nat} {neg : Bool} {x : Binary64}

/-- Up to a point of the grid, the grid is at least as fine as there. -/
theorem OnGrid.exists_multiple (h : OnGrid u) {s : Nat} (hs : s ≤ u) :
    s.log2 - 52 ≤ 2044 ∧ ∃ multiple, u = multiple * powerOfTwo (s.log2 - 52) := by
  obtain ⟨significand, power, hbits, hpower, rfl⟩ := h
  have hle : s.log2 - 52 ≤ power := by
    rcases Nat.eq_zero_or_pos s with rfl | hpos
    · exact Nat.zero_le power
    · have hlt : s < powerOfTwo (53 + power) :=
        calc s ≤ significand * powerOfTwo power := hs
          _ < 2 * exponentUnit * powerOfTwo power :=
            Nat.mul_lt_mul_of_pos_right hbits (powerOfTwo_pos power)
          _ = powerOfTwo (53 + power) := (powerOfTwo_add 53 power).symm
      have hlog : s.log2 < 53 + power := (Nat.log2_lt (Nat.ne_of_gt hpos)).mpr hlt
      omega
  refine ⟨hle.trans hpower, significand * powerOfTwo (power - (s.log2 - 52)), ?_⟩
  rw [Nat.mul_assoc, ← powerOfTwo_add, Nat.sub_add_cancel hle]

/-- **Rounding does not pass a point of the grid.** -/
theorem units_nearest_le (hden : 0 < den) (hgrid : OnGrid u) (h : num * unitsOfOne ≤ u * den) :
    units (nearest neg num den) ≤ u := by
  have hquotient : num * unitsOfOne / den ≤ u :=
    Nat.div_le_of_le_mul (h.trans_eq (Nat.mul_comm u den))
  obtain ⟨hfinite, multiple, hmultiple⟩ := hgrid.exists_multiple hquotient
  rw [units_nearest hden rfl hfinite]
  generalize (num * unitsOfOne / den).log2 - 52 = power at hmultiple
  subst hmultiple
  refine Nat.mul_le_mul_right _ (roundHalfEven_le (Nat.mul_pos hden (powerOfTwo_pos power)) ?_)
  calc num * unitsOfOne ≤ multiple * powerOfTwo power * den := h
    _ = multiple * (den * powerOfTwo power) := by ring

/-- A point of the grid is its own closest double. -/
theorem units_nearest_eq (hden : 0 < den) (hgrid : OnGrid u) (h : num * unitsOfOne = u * den) :
    units (nearest neg num den) = u := by
  refine Nat.le_antisymm (units_nearest_le hden hgrid (Nat.le_of_eq h)) ?_
  have hquotient : num * unitsOfOne / den = u := by rw [h, Nat.mul_div_cancel u hden]
  obtain ⟨hfinite, multiple, hmultiple⟩ := hgrid.exists_multiple (Nat.le_of_eq hquotient)
  rw [units_nearest hden rfl hfinite]
  generalize (num * unitsOfOne / den).log2 - 52 = power at hmultiple
  subst hmultiple
  refine Nat.mul_le_mul_right _ (le_roundHalfEven (Nat.mul_pos hden (powerOfTwo_pos power)) ?_)
  calc multiple * (den * powerOfTwo power) = multiple * powerOfTwo power * den := by ring
    _ ≤ num * unitsOfOne := Nat.le_of_eq h.symm

/-- Naturals of fifty-three bits, and the first one that has more, are on the grid. -/
theorem onGrid_natural (h : n ≤ powerOfTwo 53) : OnGrid (n * unitsOfOne) := by
  rcases Nat.lt_or_eq_of_le h with hlt | rfl
  · exact ⟨n, 1074, hlt, by decide, rfl⟩
  · -- one bit too many, but the last one is zero
    refine ⟨exponentUnit, 1075, by decide, by decide, ?_⟩
    rw [unitsOfOne, exponentUnit, ← powerOfTwo_add, ← powerOfTwo_add]

theorem units_ofNat (h : n ≤ powerOfTwo 53) : (ofNat n).units = n * unitsOfOne :=
  units_nearest_eq Nat.one_pos (onGrid_natural h) (Nat.mul_one _).symm

/-- **A part of a natural rounds to at most that natural**, as long as the natural is a double. -/
theorem roundToNat_mul_le (hn : n ≤ powerOfTwo 53) (hx : x.units ≤ unitsOfOne) :
    ((ofNat n).mul x).roundToNat ≤ n := by
  have hunits : ((ofNat n).mul x).units ≤ n * unitsOfOne := by
    refine units_nearest_le (Nat.mul_pos unitsOfOne_pos unitsOfOne_pos) (onGrid_natural hn) ?_
    calc (ofNat n).units * x.units * unitsOfOne
        ≤ n * unitsOfOne * unitsOfOne * unitsOfOne := by
          rw [units_ofNat hn]
          exact Nat.mul_le_mul_right _ (Nat.mul_le_mul_left _ hx)
      _ = n * unitsOfOne * (unitsOfOne * unitsOfOne) := by ring
  rw [roundToNat]
  split
  · exact Nat.zero_le n
  · -- halves go upward, but the product lies less than a half above the bound
    refine (Nat.min_le_left ..).trans (Nat.le_of_lt_succ ?_)
    refine (Nat.div_lt_iff_lt_mul (Nat.mul_pos Nat.two_pos unitsOfOne_pos)).mpr ?_
    have hpos := unitsOfOne_pos
    calc 2 * ((ofNat n).mul x).units + unitsOfOne
        ≤ 2 * (n * unitsOfOne) + unitsOfOne := by omega
      _ < 2 * (n * unitsOfOne) + 2 * unitsOfOne := by omega
      _ = (n + 1) * (2 * unitsOfOne) := by ring

theorem units_one : one.units = unitsOfOne := by decide +kernel

/-- A number brought into the unit interval is at most one. -/
theorem units_clampUnit_le (x : Binary64) : x.clampUnit.units ≤ unitsOfOne := by
  rw [clampUnit]
  split_ifs with hnan hnegative hzero hlarge
  · exact Nat.le_of_eq units_one
  · exact hzero ▸ Nat.zero_le _
  · exact Nat.zero_le _
  · exact Nat.le_of_eq units_one
  · exact Nat.le_of_not_lt hlarge

/-! ## What is not lost at all -/

theorem nearestWord_le (num den : Nat) : nearestWord num den ≤ infinityWord := Nat.min_le_right ..

theorem toNat_bits_nearest (neg : Bool) (num den : Nat) :
    (nearest neg num den).bits.toNat
      = (if neg then signUnit else 0) + nearestWord num den := by
  refine UInt64.toNat_ofNat_of_lt' ?_
  have hsign : (if neg = true then signUnit else 0) ≤ signUnit := by split <;> simp
  calc (if neg = true then signUnit else 0) + nearestWord num den
      ≤ signUnit + infinityWord := Nat.add_le_add hsign (nearestWord_le num den)
    _ < UInt64.size := by decide

/-- Rounding keeps the sign. -/
theorem negative_nearest (neg : Bool) (num den : Nat) :
    (nearest neg num den).negative = neg := by
  have hword : nearestWord num den < signUnit :=
    Nat.lt_of_le_of_lt (nearestWord_le num den) (by decide)
  rw [negative, toNat_bits_nearest]
  cases neg with
  | true => simp
  | false => simpa using hword

/-- No quotient is rounded to a NaN: infinity is the greatest word that rounding gives, and it has
    no fraction. -/
theorem isNaN_nearest (neg : Bool) (num den : Nat) : (nearest neg num den).isNaN = false := by
  have hword := nearestWord_le num den
  rw [isNaN, exponentField, fraction, toNat_bits_nearest]
  generalize nearestWord num den = word at hword
  have hsign : signUnit = 2048 * exponentUnit := rfl
  have hunit : exponentUnit = 4503599627370496 := rfl
  rw [infinityWord, hunit] at hword
  rw [hsign, hunit, Bool.and_eq_false_iff, beq_eq_false_iff_ne, bne_eq_false_iff_eq]
  cases neg <;> simp only [Bool.false_eq_true, if_false, if_true] <;> omega

/-- A whole number of units and a half more lie between that number and the next. -/
theorem halfUp_div {unit : Nat} (hunit : 0 < unit) (n : Nat) :
    (2 * (n * unit) + unit) / (2 * unit) = n := by
  refine Nat.div_eq_of_lt_le ?_ ?_
  · calc n * (2 * unit) = 2 * (n * unit) := by ring
      _ ≤ 2 * (n * unit) + unit := Nat.le_add_right ..
  · calc 2 * (n * unit) + unit < 2 * (n * unit) + 2 * unit := by omega
      _ = (n + 1) * (2 * unit) := by ring

theorem roundToNat_eq (hnan : x.isNaN = false) (hsign : x.negative = false)
    (hunits : x.units = n * unitsOfOne) (hn : n < UInt64.size) : x.roundToNat = n := by
  rw [roundToNat, hnan, hsign, hunits, halfUp_div unitsOfOne_pos]
  exact Nat.min_eq_left (Nat.le_sub_one_of_lt hn)

/-- **A natural times one is that natural**, as long as it is a double. -/
theorem roundToNat_mul_one (hn : n ≤ powerOfTwo 53) : ((ofNat n).mul one).roundToNat = n := by
  refine roundToNat_eq (isNaN_nearest _ _ _) ?_ ?_ (Nat.lt_of_le_of_lt hn (by decide))
  · rw [mul, negative_nearest, ofNat, negative_nearest]
    decide
  · refine units_nearest_eq (Nat.mul_pos unitsOfOne_pos unitsOfOne_pos) (onGrid_natural hn) ?_
    rw [units_ofNat hn, units_one]
    ring

end Grid

end CodeBlocks.Binary64
