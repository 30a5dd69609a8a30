/-! # Binary64 — double-precision numbers by their bits

    A double is its 64-bit word.  Its magnitude is a whole number of
    units of 2^-1074, the smallest positive double, so comparing,
    multiplying and rounding are exact integer arithmetic:

    * `units` reads the magnitude off the fields of the word;
    * `nearest` rounds a quotient of naturals to the closest word, a tie
      going to the even one, past the greatest finite one to infinity;
    * `ofNat`, `mul` and `ofDecimal` are `nearest` of an exact value;
    * `roundToNat` goes to the closest natural, halves upward. -/

namespace CodeBlocks

/-- A double-precision number, by its bits. -/
structure Binary64 where
  bits : UInt64
deriving DecidableEq

namespace Binary64

/-- The power `2 ^ n`. -/
def powerOfTwo (n : Nat) : Nat := Nat.pow 2 n

/-- The value of the lowest exponent bit in a word. -/
def exponentUnit : Nat := powerOfTwo 52

/-- The value of the sign bit in a word. -/
def signUnit : Nat := powerOfTwo 63

/-- The sign bit. -/
def negative (x : Binary64) : Bool := signUnit ≤ x.bits.toNat

/-- The eleven exponent bits. -/
def exponentField (x : Binary64) : Nat := x.bits.toNat / exponentUnit % 2048

/-- The fifty-two fraction bits. -/
def fraction (x : Binary64) : Nat := x.bits.toNat % exponentUnit

/-- Neither infinite nor a NaN. -/
def isFinite (x : Binary64) : Bool := x.exponentField != 2047

/-- No number at all. -/
def isNaN (x : Binary64) : Bool := x.exponentField == 2047 && x.fraction != 0

/-- The fraction with its leading one, which only subnormals lack. -/
def significand (x : Binary64) : Nat :=
  if x.exponentField = 0 then x.fraction else exponentUnit + x.fraction

/-- The magnitude is `significand * 2 ^ power` units of 2^-1074. -/
def power (x : Binary64) : Nat := x.exponentField - 1

/-- The magnitude in units of 2^-1074; infinity lies above every finite
    magnitude. -/
def units (x : Binary64) : Nat := x.significand * powerOfTwo x.power

/-- One, in units of 2^-1074. -/
def unitsOfOne : Nat := powerOfTwo 1074

/-- The whole number closest to a quotient; a tie goes to the even one. -/
def roundHalfEven (num den : Nat) : Nat :=
  let quotient := num / den
  let rest := num % den
  if 2 * rest < den then quotient
  else if den < 2 * rest then quotient + 1
  else if quotient % 2 = 0 then quotient
  else quotient + 1

/-- The word of infinity without its sign. -/
def infinityWord : Nat := 2047 * exponentUnit

/-- The word closest to the quotient `num / den`.  Words of positive doubles
    are in the order of their values, so the significand that rounding
    carries to the next power of two is the right word as it stands. -/
def nearestWord (num den : Nat) : Nat :=
  let scaled := num * unitsOfOne
  let power := (scaled / den).log2 - 52
  min (power * exponentUnit + roundHalfEven scaled (den * powerOfTwo power)) infinityWord

/-- The double closest to `num / den`, with the given sign. -/
def nearest (neg : Bool) (num den : Nat) : Binary64 :=
  ⟨UInt64.ofNat ((if neg then signUnit else 0) + nearestWord num den)⟩

def zero : Binary64 := ⟨0⟩

def one : Binary64 := ⟨0x3ff0000000000000⟩

def half : Binary64 := ⟨0x3fe0000000000000⟩

def nan : Binary64 := ⟨0x7ff8000000000000⟩

/-- Infinity, with the given sign. -/
def infinity (neg : Bool) : Binary64 :=
  ⟨if neg then 0xfff0000000000000 else 0x7ff0000000000000⟩

/-- Zero, with the given sign. -/
def signedZero (neg : Bool) : Binary64 :=
  ⟨if neg then 0x8000000000000000 else 0⟩

/-- The double closest to a natural. -/
def ofNat (n : Nat) : Binary64 := nearest false n 1

/-- The double closest to an integer. -/
def ofInt (n : Int) : Binary64 := nearest (n < 0) n.natAbs 1

/-- The product of two finite doubles. -/
def mul (x y : Binary64) : Binary64 :=
  nearest (x.negative != y.negative) (x.units * y.units) (unitsOfOne * unitsOfOne)

/-- The number of decimal digits of a natural; one for zero. -/
def digitCount (n : Nat) : Nat := (Nat.toDigits 10 n).length

/-- The double closest to `mantissa * 10 ^ exponent`.  Outside the range of
    doubles the power of ten is not computed. -/
def ofDecimal (neg : Bool) (mantissa : Nat) (exponent : Int) : Binary64 :=
  let size := (digitCount mantissa : Int) + exponent
  if mantissa = 0 ∨ size < -330 then signedZero neg
  else if 310 < size then infinity neg
  else if 0 ≤ exponent then nearest neg (mantissa * Nat.pow 10 exponent.toNat) 1
  else nearest neg mantissa (Nat.pow 10 (-exponent).toNat)

/-- The closest natural, halves upward, kept within 64 bits; negative numbers
    and NaN give zero. -/
def roundToNat (x : Binary64) : Nat :=
  if x.isNaN || x.negative then 0
  else min ((2 * x.units + unitsOfOne) / (2 * unitsOfOne)) (UInt64.size - 1)

/-- Lies between zero and one, the ends and negative zero included. -/
def inUnitInterval (x : Binary64) : Bool :=
  x.isFinite && (if x.negative then x.units == 0 else decide (x.units ≤ unitsOfOne))

/-- The number in the unit interval closest to `x`; one for a NaN. -/
def clampUnit (x : Binary64) : Binary64 :=
  if x.isNaN then one
  else if x.negative then (if x.units = 0 then x else zero)
  else if unitsOfOne < x.units then one
  else x

end Binary64

end CodeBlocks
