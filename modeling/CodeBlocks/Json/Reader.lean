import CodeBlocks.Json.Basic

/-! # Reading JSON

    A recursive reader whose steps are bounded by the length of the text:
    every value takes at least one character, so the bound is never
    reached.  Escapes are read as code units first; `joinUnits` then puts
    surrogate pairs together and refuses a surrogate that stands alone. -/

namespace CodeBlocks.Json

/-- Drops leading blanks. -/
def skipBlanks (cs : List Char) : List Char :=
  cs.dropWhile fun c => c == ' ' || c == '\n' || c == '\r' || c == '\t'

/-- The value of a hexadecimal digit. -/
def hexValue? (c : Char) : Option Nat :=
  if '0' ≤ c ∧ c ≤ '9' then some (c.toNat - '0'.toNat)
  else if 'a' ≤ c ∧ c ≤ 'f' then some (c.toNat - 'a'.toNat + 10)
  else if 'A' ≤ c ∧ c ≤ 'F' then some (c.toNat - 'A'.toNat + 10)
  else none

/-- The value of a run of hexadecimal digits. -/
def hexNumber? (cs : List Char) : Option Nat :=
  cs.foldlM (fun n c => (hexValue? c).map (16 * n + ·)) 0

/-- The character that a one-letter escape stands for. -/
def simpleEscape? (c : Char) : Option Nat :=
  match c with
  | '"' => some 34
  | '\\' => some 92
  | '/' => some 47
  | 'b' => some 8
  | 'f' => some 12
  | 'n' => some 10
  | 'r' => some 13
  | 't' => some 9
  | _ => none

/-- The code units of a string up to its closing quote, latest first. -/
def readUnits : List Char → List Nat → Option (List Nat × List Char)
  | [], _ => none
  | '"' :: rest, units => some (units, rest)
  | '\\' :: 'u' :: a :: b :: c :: d :: rest, units => do
      let unit ← hexNumber? [a, b, c, d]
      readUnits rest (unit :: units)
  | '\\' :: c :: rest, units => do
      let unit ← simpleEscape? c
      readUnits rest (unit :: units)
  | c :: rest, units => if c.toNat < 32 then none else readUnits rest (c.toNat :: units)

/-- Code units to characters, surrogate pairs joined. -/
def joinUnits : List Nat → Option (List Char)
  | [] => some []
  | high :: low :: rest =>
      if 0xD800 ≤ high ∧ high < 0xDC00 then
        if 0xDC00 ≤ low ∧ low < 0xE000 then
          (joinUnits rest).map
            (Char.ofNat (0x10000 + (high - 0xD800) * 0x400 + (low - 0xDC00)) :: ·)
        else none
      else if 0xDC00 ≤ high ∧ high < 0xE000 then none
      else (joinUnits (low :: rest)).map (Char.ofNat high :: ·)
  | [unit] => if 0xD800 ≤ unit ∧ unit < 0xE000 then none else some [Char.ofNat unit]

/-- A string after its opening quote. -/
def readString (cs : List Char) : Option (String × List Char) := do
  let (units, rest) ← readUnits cs []
  let chars ← joinUnits units.reverse
  return (String.ofList chars, rest)

/-- The value of a run of decimal digits. -/
def decimalNumber (cs : List Char) : Nat :=
  cs.foldl (fun n c => 10 * n + (c.toNat - '0'.toNat)) 0

/-- A fraction after its point. -/
def readFraction (cs : List Char) : Option (List Char × List Char) :=
  match cs with
  | '.' :: rest =>
      if (rest.takeWhile Char.isDigit).isEmpty then none
      else some (rest.takeWhile Char.isDigit, rest.dropWhile Char.isDigit)
  | _ => some ([], cs)

/-- An exponent, zero when there is none; the flag tells whether one stands
    there. -/
def readExponent (cs : List Char) : Option (Bool × Int × List Char) :=
  match cs with
  | [] => some (false, 0, [])
  | c :: rest =>
      if c = 'e' ∨ c = 'E' then
        let (neg, digits) : Bool × List Char :=
          match rest with
          | '-' :: more => (true, more)
          | '+' :: more => (false, more)
          | more => (false, more)
        let run := digits.takeWhile Char.isDigit
        if run.isEmpty then none
        else
          let size : Int := decimalNumber run
          some (true, if neg then -size else size, digits.dropWhile Char.isDigit)
      else some (false, 0, cs)

/-- A number.  Minus zero is a double, since no integer has its sign. -/
def readNumber (cs : List Char) : Option (Json × List Char) := do
  let (neg, cs) : Bool × List Char :=
    match cs with
    | '-' :: rest => (true, rest)
    | rest => (false, rest)
  let whole := cs.takeWhile Char.isDigit
  if whole.isEmpty ∨ (whole.head? = some '0' ∧ 1 < whole.length) then none
  else do
    let (places, rest) ← readFraction (cs.dropWhile Char.isDigit)
    let (hasExponent, exponent, rest) ← readExponent rest
    let mantissa := decimalNumber (whole ++ places)
    if places.isEmpty ∧ ¬hasExponent ∧ ¬(neg ∧ mantissa = 0) then
      return (.integer (if neg then -(mantissa : Int) else mantissa), rest)
    else
      return (.float (Binary64.ofDecimal neg mantissa (exponent - places.length)), rest)

mutual

/-- A value after optional blanks. -/
def readValue : Nat → List Char → Option (Json × List Char)
  | 0, _ => none
  | fuel + 1, cs =>
      match skipBlanks cs with
      | 'n' :: 'u' :: 'l' :: 'l' :: rest => some (.null, rest)
      | 't' :: 'r' :: 'u' :: 'e' :: rest => some (.bool true, rest)
      | 'f' :: 'a' :: 'l' :: 's' :: 'e' :: rest => some (.bool false, rest)
      | '"' :: rest => (readString rest).map fun (s, rest) => (.string s, rest)
      | '[' :: rest =>
          match skipBlanks rest with
          | ']' :: rest => some (.array [], rest)
          | rest => (readElements fuel rest).map fun (xs, rest) => (.array xs, rest)
      | '\x7b' :: rest =>
          match skipBlanks rest with
          | '\x7d' :: rest => some (.object [], rest)
          | rest => (readMembers fuel rest).map fun (xs, rest) => (.object xs, rest)
      | rest => readNumber rest

/-- One or more elements and the closing bracket. -/
def readElements : Nat → List Char → Option (List Json × List Char)
  | 0, _ => none
  | fuel + 1, cs => do
      let (x, rest) ← readValue fuel cs
      match skipBlanks rest with
      | ']' :: rest => return ([x], rest)
      | ',' :: rest =>
          let (xs, rest) ← readElements fuel rest
          return (x :: xs, rest)
      | _ => none

/-- One or more members and the closing brace. -/
def readMembers : Nat → List Char → Option (List (String × Json) × List Char)
  | 0, _ => none
  | fuel + 1, cs =>
      match skipBlanks cs with
      | '"' :: rest => do
          let (key, rest) ← readString rest
          match skipBlanks rest with
          | ':' :: rest =>
              let (x, rest) ← readValue fuel rest
              match skipBlanks rest with
              | '\x7d' :: rest => return ([(key, x)], rest)
              | ',' :: rest =>
                  let (xs, rest) ← readMembers fuel rest
                  return ((key, x) :: xs, rest)
              | _ => none
          | _ => none
      | _ => none

end

/-- The value that a text holds, blanks around it allowed. -/
def parse? (text : String) : Option Json := do
  let cs := text.toList
  let (x, rest) ← readValue (2 * cs.length + 2) cs
  if (skipBlanks rest).isEmpty then return x else none

end CodeBlocks.Json
