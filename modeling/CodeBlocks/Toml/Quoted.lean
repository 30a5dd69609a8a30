import CodeBlocks.Json.Reader

/-! # Quoted — the four kinds of strings

    A string stands between single or double quotes, on one line between
    one of them or over several lines between three.  Only double quotes
    allow escapes.  Several lines may hold one or two quotes in a row, so
    up to two quotes right before the closing three belong to the text. -/

namespace CodeBlocks.Toml

/-- The double quote, which allows escapes. -/
def doubleQuote : Char := '"'

/-- The single quote, which does not. -/
def singleQuote : Char := '\x27'

/-- Characters that may stand in a text as they are: no control characters but
    the tab. -/
def isPlain (c : Char) : Bool :=
  c == '\t' || (0x20 ≤ c.toNat && c.toNat ≤ 0x7E) || 0x80 ≤ c.toNat

/-- The character of a code point. -/
def charOf? (n : Nat) : Option Char :=
  if n < 0xD800 ∨ (0xE000 ≤ n ∧ n < 0x110000) then some (Char.ofNat n) else none

/-- A character given by `count` hexadecimal digits. -/
def hexEscape? (count : Nat) (cs : List Char) : Option (Char × List Char) := do
  if (cs.take count).length = count then
    return (← charOf? (← Json.hexNumber? (cs.take count)), cs.drop count)
  else none

/-- An escape after its backslash. -/
def readEscape : List Char → Option (Char × List Char)
  | 'b' :: rest => some (Char.ofNat 8, rest)
  | 't' :: rest => some (Char.ofNat 9, rest)
  | 'n' :: rest => some (Char.ofNat 10, rest)
  | 'f' :: rest => some (Char.ofNat 12, rest)
  | 'r' :: rest => some (Char.ofNat 13, rest)
  | '"' :: rest => some ('"', rest)
  | '\\' :: rest => some ('\\', rest)
  | 'u' :: rest => hexEscape? 4 rest
  | 'U' :: rest => hexEscape? 8 rest
  | _ => none

/-- A string on one line, after its opening quote, in at most `fuel` steps. -/
def readLine (quote : Char) : Nat → List Char → Option (List Char × List Char)
  | 0, _ => none
  | _ + 1, [] => none
  | fuel + 1, c :: cs =>
      if c = quote then some ([], cs)
      else if c = '\\' ∧ quote = doubleQuote then do
        let (escaped, rest) ← readEscape cs
        let (text, rest) ← readLine quote fuel rest
        return (escaped :: text, rest)
      else if isPlain c then do
        let (text, rest) ← readLine quote fuel cs
        return (c :: text, rest)
      else none

/-- What follows a line break. -/
def afterNewline? : List Char → Option (List Char)
  | '\n' :: rest => some rest
  | '\r' :: '\n' :: rest => some rest
  | _ => none

/-- Blanks inside a line. -/
def isBlank (c : Char) : Bool := c == ' ' || c == '\t'

/-- Drops blanks and line breaks, in at most `fuel` steps. -/
def skipLines : Nat → List Char → List Char
  | 0, cs => cs
  | fuel + 1, cs =>
      let rest := cs.dropWhile isBlank
      match afterNewline? rest with
      | some more => skipLines fuel more
      | none => rest

/-- What follows a backslash at the end of a line: the next character that is
    neither blank nor a line break. -/
def afterFold? (cs : List Char) : Option (List Char) := do
  let rest ← afterNewline? (cs.dropWhile isBlank)
  return skipLines (rest.length + 1) rest

/-- A string over several lines, after its opening quotes, in at most `fuel`
    steps. -/
def readLines (quote : Char) : Nat → List Char → Option (List Char × List Char)
  | 0, _ => none
  | _ + 1, [] => none
  | fuel + 1, c :: cs =>
      let quotes := ((c :: cs).takeWhile (· == quote)).length
      if 3 ≤ quotes then
        some (List.replicate (min (quotes - 3) 2) quote, (c :: cs).drop (min quotes 5))
      else if c = '\\' ∧ quote = doubleQuote then
        match afterFold? cs with
        | some rest => readLines quote fuel rest
        | none => do
            let (escaped, rest) ← readEscape cs
            let (text, rest) ← readLines quote fuel rest
            return (escaped :: text, rest)
      else
        match afterNewline? (c :: cs) with
        | some rest => do
            let (text, rest) ← readLines quote fuel rest
            return ('\n' :: text, rest)
        | none =>
            if isPlain c then do
              let (text, rest) ← readLines quote fuel cs
              return (c :: text, rest)
            else none

/-- A string on one line that starts with a quote. -/
def readLineString : List Char → Option (List Char × List Char)
  | quote :: cs =>
      if quote = doubleQuote ∨ quote = singleQuote then readLine quote (cs.length + 1) cs
      else none
  | [] => none

/-- A string of any kind. -/
def readQuoted (cs : List Char) : Option (List Char × List Char) :=
  match cs with
  | a :: b :: c :: rest =>
      if a = b ∧ b = c ∧ (a = doubleQuote ∨ a = singleQuote) then
        let body := (afterNewline? rest).getD rest
        readLines a (body.length + 1) body
      else readLineString cs
  | _ => readLineString cs

end CodeBlocks.Toml
