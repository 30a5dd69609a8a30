import CodeBlocks.Number.Layout

/-! # Json — values and their text

    A number without fraction and exponent is an integer, of any size; all
    others are doubles.  Members of an object keep their order.  Two
    layouts are written: `compact`, without blanks, and `pretty`, one
    member or element a line, two spaces deeper than its container. -/

namespace CodeBlocks

/-- A JSON value. -/
inductive Json where
  | null
  | bool (value : Bool)
  | integer (value : Int)
  | float (value : Binary64)
  | string (value : String)
  | array (elements : List Json)
  | object (members : List (String × Json))

namespace Json

/-- A natural number. -/
def nat (n : Nat) : Json := .integer n

/-- A value or null. -/
def ofOption (x : Option Json) : Json := x.getD .null

/-- An array of strings. -/
def strings (xs : List String) : Json := .array (xs.map .string)

/-- The value of an object's first member of that name. -/
def member? (key : String) : Json → Option Json
  | .object members => members.lookup key
  | _ => none

/-- A lower-case hexadecimal digit. -/
def hexDigit (n : Nat) : Char := (Nat.toDigits 16 (n % 16)).headD '0'

/-- A character inside quotes: only the quote, the backslash and control
    characters are escaped. -/
def escapeChar (c : Char) : List Char :=
  if c = '"' then ['\\', '"']
  else if c = '\\' then ['\\', '\\']
  else if c = '\n' then ['\\', 'n']
  else if c = '\r' then ['\\', 'r']
  else if c = '\t' then ['\\', 't']
  else if c.toNat = 8 then ['\\', 'b']
  else if c.toNat = 12 then ['\\', 'f']
  else if c.toNat < 32 then
    ['\\', 'u', '0', '0', hexDigit (c.toNat / 16), hexDigit c.toNat]
  else [c]

/-- A text in quotes. -/
def quote (s : String) : String :=
  String.ofList ('"' :: s.toList.flatMap escapeChar ++ ['"'])

/-- A value without parts. -/
def scalarText : Json → String
  | .null => "null"
  | .bool true => "true"
  | .bool false => "false"
  | .integer n => toString n
  | .float x => Layout.fractional.write x
  | .string s => quote s
  | .array _ => "[]"
  | .object _ => "\x7b\x7d"

mutual

/-- A value on one line, without blanks. -/
def compact : Json → String
  | .array elements => "[" ++ compactElements elements ++ "]"
  | .object members => "\x7b" ++ compactMembers members ++ "\x7d"
  | scalar => scalarText scalar

/-- Elements with commas between them. -/
def compactElements : List Json → String
  | [] => ""
  | [x] => compact x
  | x :: xs => compact x ++ "," ++ compactElements xs

/-- Members with commas between them. -/
def compactMembers : List (String × Json) → String
  | [] => ""
  | [(key, x)] => quote key ++ ":" ++ compact x
  | (key, x) :: xs => quote key ++ ":" ++ compact x ++ "," ++ compactMembers xs

end

/-- A line break and the indentation of a nesting depth. -/
def lineBreak (depth : Nat) : String :=
  String.ofList ('\n' :: List.replicate (2 * depth) ' ')

mutual

/-- A value at a nesting depth, one part a line. -/
def prettyAt (depth : Nat) : Json → String
  | .array [] => "[]"
  | .array elements =>
      "[" ++ prettyElements (depth + 1) elements ++ lineBreak depth ++ "]"
  | .object [] => "\x7b\x7d"
  | .object members =>
      "\x7b" ++ prettyMembers (depth + 1) members ++ lineBreak depth ++ "\x7d"
  | scalar => scalarText scalar

/-- Elements, each on its own line. -/
def prettyElements (depth : Nat) : List Json → String
  | [] => ""
  | [x] => lineBreak depth ++ prettyAt depth x
  | x :: xs => lineBreak depth ++ prettyAt depth x ++ "," ++ prettyElements depth xs

/-- Members, each on its own line. -/
def prettyMembers (depth : Nat) : List (String × Json) → String
  | [] => ""
  | [(key, x)] => lineBreak depth ++ quote key ++ ": " ++ prettyAt depth x
  | (key, x) :: xs =>
      lineBreak depth ++ quote key ++ ": " ++ prettyAt depth x ++ ","
        ++ prettyMembers depth xs

end

/-- A value with two spaces of indentation a level. -/
def pretty (x : Json) : String := prettyAt 0 x

end Json

end CodeBlocks
