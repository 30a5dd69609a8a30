import CodeBlocks.Number.Binary64

/-! # Shortest — the fewest decimal digits that read back

    Between a finite positive double and its neighbours lie the halfway
    points; every decimal strictly between them reads back as the double,
    and so do the halfway points themselves when its significand is even.
    `shortest` tries one digit, two digits, and so on: on each decimal
    grid only the two grid points around the value can be the closest, so
    only these are tested.  Seventeen digits always suffice. -/

namespace CodeBlocks

/-- A positive decimal `digits * 10 ^ exponent`. -/
structure Decimal where
  digits : Nat
  exponent : Int
deriving DecidableEq

namespace Binary64

/-- Four times the magnitude, in units of 2^-1074: halfway points are whole
    numbers on this scale. -/
def quarterUnits (x : Binary64) : Nat := 4 * x.units

/-- The halfway point below, in quarters of a unit.  Below a power of two the
    doubles lie twice as close. -/
def lowerBound (x : Binary64) : Nat :=
  if x.fraction = 0 ∧ 0 < x.power then x.quarterUnits - powerOfTwo x.power
  else x.quarterUnits - 2 * powerOfTwo x.power

/-- The halfway point above, in quarters of a unit. -/
def upperBound (x : Binary64) : Nat := x.quarterUnits + 2 * powerOfTwo x.power

/-- Whether the decimal `num / den`, in quarters of a unit, reads back. -/
def readsBack (x : Binary64) (num den : Nat) : Bool :=
  if x.significand % 2 = 0 then
    decide (x.lowerBound * den ≤ num ∧ num ≤ x.upperBound * den)
  else
    decide (x.lowerBound * den < num ∧ num < x.upperBound * den)

/-- The power `10 ^ exponent` as a quotient. -/
def powerOfTen (exponent : Int) : Nat × Nat :=
  if 0 ≤ exponent then (Nat.pow 10 exponent.toNat, 1) else (1, Nat.pow 10 (-exponent).toNat)

/-- The number of decimal places to the first digit that is not zero. -/
def leadingZeros (fuel units : Nat) : Nat :=
  match fuel with
  | 0 => 0
  | fuel + 1 => if unitsOfOne ≤ units then 0 else leadingZeros fuel (10 * units) + 1

/-- The `k` with `10 ^ (k - 1) ≤ x < 10 ^ k`. -/
def decimalSize (x : Binary64) : Int :=
  if unitsOfOne ≤ x.units then digitCount (x.units / unitsOfOne)
  else 1 - (leadingZeros 400 x.units : Int)

/-- The closest decimal on the grid of `10 ^ exponent` that reads back, if one
    does; of two equally close ones the greater. -/
def closestOnGrid? (x : Binary64) (exponent : Int) : Option Nat :=
  let (num, den) := powerOfTen exponent
  let step := num * (4 * unitsOfOne)
  let value := x.quarterUnits * den
  let below := value / step
  let above := below + 1
  let reads := fun grid => x.readsBack (grid * step) den
  match reads below && below != 0, reads above with
  | true, true => if 2 * (value % step) < step then some below else some above
  | true, false => some below
  | false, true => some above
  | false, false => none

/-- Drops trailing zeros of the digits. -/
def normalize (fuel : Nat) (d : Decimal) : Decimal :=
  match fuel with
  | 0 => d
  | fuel + 1 =>
      if d.digits % 10 = 0 then normalize fuel ⟨d.digits / 10, d.exponent + 1⟩ else d

/-- The first digit count from `count` on, at most `fuel` of them, with a grid
    point that reads back. -/
def shortestFrom (x : Binary64) (size : Int) : Nat → Nat → Decimal
  | 0, _ => ⟨1, size⟩
  | fuel + 1, count =>
      let exponent := size - count
      match x.closestOnGrid? exponent with
      | some digits => normalize 20 ⟨digits, exponent⟩
      | none => shortestFrom x size fuel (count + 1)

/-- The decimal with the fewest digits that reads back as the magnitude of a
    finite double that is not zero; of these the closest. -/
def shortest (x : Binary64) : Decimal := shortestFrom x x.decimalSize 17 1

end Binary64

end CodeBlocks
