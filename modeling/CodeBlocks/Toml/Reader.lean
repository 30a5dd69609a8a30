import CodeBlocks.Toml.Quoted
import CodeBlocks.Toml.Scalar

/-! # Reading TOML

    Version 1.0 of the language.  A document is read line by line into a
    table of members; anything that is not well formed, and any key given
    twice, makes the whole document unreadable.  Brackets nest at most
    `nestingLimit - 1` deep, and a dotted key has fewer than
    `nestingLimit` parts.  Readers take at most as many steps as the text
    has characters. -/

namespace CodeBlocks.Toml

/-- Nesting from here on is refused. -/
def nestingLimit : Nat := 80

/-- Drops blanks inside a line. -/
def skipBlank (cs : List Char) : List Char := cs.dropWhile isBlank

/-- Drops a comment, if one starts here. -/
def skipComment : List Char → List Char
  | '#' :: rest => rest.dropWhile isPlain
  | cs => cs

/-- What follows the rest of a line that holds nothing but blanks and a
    comment. -/
def afterLine? (cs : List Char) : Option (List Char) :=
  match skipComment (skipBlank cs) with
  | [] => some []
  | rest => afterNewline? rest

/-- Drops blanks, line breaks and comments, in at most `fuel` steps. -/
def skipTrivia : Nat → List Char → List Char
  | 0, cs => cs
  | fuel + 1, cs =>
      match skipLines (cs.length + 1) cs with
      | '#' :: rest => skipTrivia fuel (rest.dropWhile isPlain)
      | rest => rest

/-- Characters of bare keys. -/
def isBareChar (c : Char) : Bool := c.isAlphanum || c == '-' || c == '_'

/-- One part of a key. -/
def readSimpleKey (cs : List Char) : Option (String × List Char) :=
  match cs with
  | [] => none
  | c :: _ =>
      if c = doubleQuote ∨ c = singleQuote then
        (readLineString cs).map fun (text, rest) => (String.ofList text, rest)
      else if isBareChar c then
        some (String.ofList (cs.takeWhile isBareChar), cs.dropWhile isBareChar)
      else none

/-- The parts of a dotted key with blanks around them, in at most `fuel` steps. -/
def readParts : Nat → List Char → Option (List String × List Char)
  | 0, _ => none
  | fuel + 1, cs => do
      let (part, rest) ← readSimpleKey (skipBlank cs)
      match skipBlank rest with
      | '.' :: rest =>
          let (parts, rest) ← readParts fuel rest
          return (part :: parts, rest)
      | rest => return ([part], rest)

/-- A key: the path of all parts but the last, and the last. -/
def readKey (cs : List Char) : Option ((List String × String) × List Char) := do
  let (parts, rest) ← readParts (cs.length + 1) cs
  let key ← parts.getLast?
  if parts.length < nestingLimit then return ((parts.dropLast, key), rest) else none

mutual

/-- A value inside `depth` brackets, in at most `fuel` steps. -/
def readValue : Nat → Nat → List Char → Option (Toml × List Char)
  | 0, _, _ => none
  | fuel + 1, depth, cs =>
      match cs with
      | '[' :: rest =>
          if depth + 1 < nestingLimit then do
            let rest := skipTrivia (rest.length + 1) rest
            match rest with
            | ']' :: rest => return (.array [], rest)
            | _ =>
                let (elements, rest) ← readElements fuel (depth + 1) rest
                return (.array elements, rest)
          else none
      | '\x7b' :: rest =>
          if depth + 1 < nestingLimit then do
            match skipBlank rest with
            | '\x7d' :: rest => return (.table .inline [], rest)
            | rest =>
                let (members, rest) ← readMembers fuel (depth + 1) [] rest
                return (.table .inline members, rest)
          else none
      | c :: _ =>
          if c = doubleQuote ∨ c = singleQuote then
            (readQuoted cs).map fun (text, rest) => (.string (String.ofList text), rest)
          else readScalar cs
      | [] => none

/-- One or more elements, a comma allowed after the last, and the closing
    bracket. -/
def readElements : Nat → Nat → List Char → Option (List Toml × List Char)
  | 0, _, _ => none
  | fuel + 1, depth, cs => do
      let (value, rest) ← readValue fuel depth cs
      match skipTrivia (rest.length + 1) rest with
      | ']' :: rest => return ([value], rest)
      | ',' :: rest =>
          match skipTrivia (rest.length + 1) rest with
          | ']' :: rest => return ([value], rest)
          | rest =>
              let (values, rest) ← readElements fuel depth rest
              return (value :: values, rest)
      | _ => none

/-- One or more members of an inline table and the closing brace. -/
def readMembers : Nat → Nat → Members → List Char → Option (Members × List Char)
  | 0, _, _, _ => none
  | fuel + 1, depth, members, cs => do
      let ((path, key), rest) ← readKey cs
      let rest ← after? '=' rest
      let (value, rest) ← readValue fuel depth (skipBlank rest)
      let members ← assign? path key value .header members
      match skipBlank rest with
      | '\x7d' :: rest => return (members, rest)
      | ',' :: rest => readMembers fuel depth members rest
      | _ => none

end

/-- A document read in part: its members and the path of the open table. -/
structure Draft where
  root : Members
  header : List String

/-- Reads a header after its first bracket, up to the end of its line. -/
def readHeader (draft : Draft) (cs : List Char) : Option (Draft × List Char) :=
  match cs with
  | '[' :: rest => do
      let ((path, key), rest) ← readKey rest
      let rest ← after? ']' (← after? ']' rest)
      let root ← openElement? path key draft.root
      return (⟨root, path ++ [key]⟩, ← afterLine? rest)
  | _ => do
      let ((path, key), rest) ← readKey cs
      let rest ← after? ']' rest
      let root ← openTable? path key draft.root
      return (⟨root, path ++ [key]⟩, ← afterLine? rest)

/-- Reads a key and its value, up to the end of the line. -/
def readAssignment (draft : Draft) (cs : List Char) : Option (Draft × List Char) := do
  let ((path, key), rest) ← readKey cs
  let rest := skipBlank (← after? '=' rest)
  let (value, rest) ← readValue (2 * rest.length + 2) 0 rest
  let root ← assignIn? draft.header path key value draft.root
  return (⟨root, draft.header⟩, ← afterLine? rest)

/-- Reads the lines of a document, at most `fuel` of them. -/
def readDocument : Nat → Draft → List Char → Option Members
  | 0, _, _ => none
  | fuel + 1, draft, cs =>
      match skipBlank cs with
      | [] => some draft.root
      | '[' :: rest => do
          let (draft, rest) ← readHeader draft rest
          readDocument fuel draft rest
      | rest =>
          match afterLine? rest with
          | some rest => readDocument fuel draft rest
          | none => do
              let (draft, rest) ← readAssignment draft rest
              readDocument fuel draft rest

/-- Drops one byte order mark. -/
def skipMark : List Char → List Char
  | c :: cs => if c.toNat = 0xFEFF then cs else c :: cs
  | [] => []

/-- The members of a document. -/
def parse? (text : String) : Option Members :=
  let cs := skipMark text.toList
  readDocument (cs.length + 2) ⟨[], []⟩ cs

end CodeBlocks.Toml
