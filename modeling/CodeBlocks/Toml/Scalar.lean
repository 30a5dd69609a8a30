import CodeBlocks.Json.Reader
import CodeBlocks.Toml.Basic

/-! # Scalars — numbers, booleans, dates and times

    A value that is neither quoted nor bracketed is one run of word
    characters, and the whole run has to be a scalar: what could follow it
    in the same place is never a word character.  Only a date may go on
    after one space, with its time. -/

namespace CodeBlocks.Toml

/-- Characters of unquoted scalars. -/
def isWordChar (c : Char) : Bool :=
  c.isAlphanum || c == '+' || c == '-' || c == '_' || c == '.' || c == ':'

/-- Digits with single underscores between them, without the underscores. -/
def digitGroups? (isDigit : Char → Bool) : List Char → Option (List Char)
  | [] => none
  | [c] => if isDigit c then some [c] else none
  | c :: '_' :: rest => if isDigit c then (digitGroups? isDigit rest).map (c :: ·) else none
  | c :: rest => if isDigit c then (digitGroups? isDigit rest).map (c :: ·) else none

/-- A sign, true for minus, and what follows it. -/
def splitSign : List Char → Bool × List Char
  | '-' :: rest => (true, rest)
  | '+' :: rest => (false, rest)
  | rest => (false, rest)

/-- Decimal digits without a leading zero. -/
def decimal? (cs : List Char) : Option (List Char) := do
  let digits ← digitGroups? Char.isDigit cs
  if cs.head? = some '0' ∧ cs ≠ ['0'] then none else return digits

/-- The value of digits in a base. -/
def inBase (base : Nat) (digits : List Char) : Nat :=
  digits.foldl (fun n c => base * n + (Json.hexValue? c).getD 0) 0

/-- The number of signed 64-bit integers below zero. -/
def signedLimit : Nat := UInt64.size / 2

/-- A signed 64-bit integer. -/
def integerOf? (neg : Bool) (size : Nat) : Option Toml :=
  if neg then if size ≤ signedLimit then some (.integer (-(size : Int))) else none
  else if size < signedLimit then some (.integer size)
  else none

/-- An integer in a base with a letter for it. -/
def basedInteger? (base : Nat) (isDigit : Char → Bool) (cs : List Char) : Option Toml := do
  let digits ← digitGroups? isDigit cs
  integerOf? false (inBase base digits)

/-- An integer in any base. -/
def integer? : List Char → Option Toml
  | '0' :: 'x' :: cs => basedInteger? 16 (fun c => (Json.hexValue? c).isSome) cs
  | '0' :: 'o' :: cs => basedInteger? 8 (fun c => '0' ≤ c && c ≤ '7') cs
  | '0' :: 'b' :: cs => basedInteger? 2 (fun c => c == '0' || c == '1') cs
  | cs => do
      let (neg, rest) := splitSign cs
      integerOf? neg (inBase 10 (← decimal? rest))

/-- The parts of a text around the first character of a kind. -/
def splitAtFirst (p : Char → Bool) (cs : List Char) : List Char × Option (List Char) :=
  match cs.dropWhile fun c => !p c with
  | [] => (cs, none)
  | _ :: rest => (cs.takeWhile fun c => !p c, some rest)

/-- An exponent. -/
def exponent? (cs : List Char) : Option Int := do
  let (neg, rest) := splitSign cs
  let size : Int := inBase 10 (← digitGroups? Char.isDigit rest)
  return if neg then -size else size

/-- A number with a fraction, an exponent or both.  One too great to be finite is
    refused, one too small is minus infinity. -/
def float? (cs : List Char) : Option Toml := do
  let (neg, rest) := splitSign cs
  let (mantissa, power) := splitAtFirst (fun c => c == 'e' || c == 'E') rest
  let (whole, fraction) := splitAtFirst (· == '.') mantissa
  if power.isNone ∧ fraction.isNone then none
  else do
    let whole ← decimal? whole
    let places ← match fraction with
      | some digits => digitGroups? Char.isDigit digits
      | none => some []
    let exponent ← match power with
      | some digits => exponent? digits
      | none => some 0
    let value := Binary64.ofDecimal neg (inBase 10 (whole ++ places)) (exponent - places.length)
    if value = Binary64.infinity false then none else return .float value

/-- A named scalar. -/
def named? (cs : List Char) : Option Toml :=
  let (neg, rest) := splitSign cs
  if cs = "true".toList then some (.bool true)
  else if cs = "false".toList then some (.bool false)
  else if rest = "inf".toList then some (.float (Binary64.infinity neg))
  else if rest = "nan".toList then some (.float Binary64.nan)
  else none

/-- A number of exactly `count` digits. -/
def fixedDigits? (count : Nat) (cs : List Char) : Option (Nat × List Char) :=
  let digits := cs.take count
  if digits.length = count ∧ digits.all Char.isDigit then
    some (inBase 10 digits, cs.drop count)
  else
    none

/-- A two-digit number between two bounds. -/
def twoDigits? (low high : Nat) (cs : List Char) : Option (Nat × List Char) := do
  let (n, rest) ← fixedDigits? 2 cs
  if low ≤ n ∧ n ≤ high then return (n, rest) else none

/-- What follows an expected character. -/
def after? (c : Char) : List Char → Option (List Char)
  | d :: rest => if d = c then some rest else none
  | [] => none

/-- The number of days of a month. -/
def daysIn (year month : Nat) : Nat :=
  let isLeap := year % 4 = 0 ∧ (year % 100 ≠ 0 ∨ year % 400 = 0)
  if month = 2 then (if isLeap then 29 else 28)
  else if month = 4 ∨ month = 6 ∨ month = 9 ∨ month = 11 then 30
  else 31

/-- What follows a calendar date. -/
def afterDate? (cs : List Char) : Option (List Char) := do
  let (year, rest) ← fixedDigits? 4 cs
  let (month, rest) ← twoDigits? 1 12 (← after? '-' rest)
  let (_, rest) ← twoDigits? 1 (daysIn year month) (← after? '-' rest)
  return rest

/-- What follows a fraction of a second, if one stands there. -/
def afterSecondFraction? : List Char → Option (List Char)
  | '.' :: rest => if (rest.takeWhile Char.isDigit).isEmpty then none
      else some (rest.dropWhile Char.isDigit)
  | rest => some rest

/-- What follows a time of day. -/
def afterTime? (cs : List Char) : Option (List Char) := do
  let (_, rest) ← twoDigits? 0 23 cs
  let (_, rest) ← twoDigits? 0 59 (← after? ':' rest)
  let (_, rest) ← twoDigits? 0 60 (← after? ':' rest)
  afterSecondFraction? rest

/-- Whether a text is nothing or an offset from universal time. -/
def isOffset : List Char → Bool
  | [] => true
  | ['Z'] => true
  | ['z'] => true
  | c :: cs =>
      (c == '+' || c == '-') &&
        ((do
          let (_, rest) ← twoDigits? 0 23 cs
          let (_, rest) ← twoDigits? 0 59 (← after? ':' rest)
          return rest) == some [])

/-- Whether a text is a time with an optional offset. -/
def isTimeWithOffset (cs : List Char) : Bool :=
  match afterTime? cs with
  | some rest => isOffset rest
  | none => false

/-- A date, a time of day, or both. -/
def datetime? (cs : List Char) : Option Toml :=
  let isDatetime : Bool := match afterDate? cs with
    | some [] => true
    | some (c :: rest) => (c == 'T' || c == 't') && isTimeWithOffset rest
    | none => afterTime? cs == some []
  if isDatetime then some (.datetime (String.ofList cs)) else none

/-- A run of word characters as a scalar. -/
def scalar? (cs : List Char) : Option Toml :=
  datetime? cs <|> float? cs <|> integer? cs <|> named? cs

/-- A scalar and what follows it.  A date followed by one space and a digit takes
    the time after it. -/
def readScalar (cs : List Char) : Option (Toml × List Char) := do
  let word := cs.takeWhile isWordChar
  let rest := cs.dropWhile isWordChar
  let value ← scalar? word
  match afterDate? word, rest with
  | some [], ' ' :: more =>
      if (more.head?.map Char.isDigit).getD false then
        let time := more.takeWhile isWordChar
        if isTimeWithOffset time then
          return (.datetime (String.ofList (word ++ ' ' :: time)), more.dropWhile isWordChar)
        else none
      else return (value, rest)
  | _, _ => return (value, rest)

end CodeBlocks.Toml
