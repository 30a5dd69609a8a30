import CodeBlocks.Number.Shortest

/-! # Layout — how a double is written

    All layouts write the shortest digits that read back.  They differ in
    two decisions, held in a `Layout`: whether a whole number keeps a
    fraction, and from where on a power of ten replaces positions. -/

namespace CodeBlocks

/-- The decisions of a way to write doubles. -/
structure Layout where
  /-- Whole numbers are written with a fraction, as in `1.0`. -/
  wholeFraction : Bool
  /-- The sizes `k`, `10 ^ (k - 1) ≤ x < 10 ^ k`, that are written in
      positions; others get a power of ten. -/
  positional : Int → Bool

namespace Layout

/-- Always positional, whole numbers without a fraction. -/
def plain : Layout := ⟨false, fun _ => true⟩

/-- Positional from 0.0001 up to 10^16, whole numbers with a fraction. -/
def fractional : Layout := ⟨true, fun size => decide (-3 ≤ size ∧ size ≤ 16)⟩

/-- A run of zeros. -/
def zeros (n : Nat) : List Char := List.replicate n '0'

/-- Digits in positions. -/
def writePositions (layout : Layout) (digits : List Char) (exponent : Int) : List Char :=
  let places := (-exponent).toNat
  if 0 ≤ exponent then
    digits ++ zeros exponent.toNat ++ (if layout.wholeFraction then ['.', '0'] else [])
  else if places < digits.length then
    digits.take (digits.length - places) ++ '.' :: digits.drop (digits.length - places)
  else
    '0' :: '.' :: zeros (places - digits.length) ++ digits

/-- Digits with a power of ten. -/
def writePower (digits : List Char) (size : Int) : List Char :=
  let power := 'e' :: (toString (size - 1)).toList
  match digits with
  | [] => power
  | [d] => d :: power
  | d :: ds => d :: '.' :: ds ++ power

/-- A finite magnitude. -/
def writeMagnitude (layout : Layout) (x : Binary64) : List Char :=
  if x.units = 0 then
    layout.writePositions ['0'] 0
  else
    let d := x.shortest
    let digits := Nat.toDigits 10 d.digits
    let size := (digits.length : Int) + d.exponent
    if layout.positional size then layout.writePositions digits d.exponent
    else writePower digits size

/-- A double in the given layout. -/
def write (layout : Layout) (x : Binary64) : String :=
  if x.isNaN then "NaN"
  else
    let sign := if x.negative then "-" else ""
    if x.isFinite then sign ++ String.ofList (layout.writeMagnitude x) else sign ++ "inf"

end Layout

end CodeBlocks
