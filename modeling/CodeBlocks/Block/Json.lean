import CodeBlocks.Block.Basic
import CodeBlocks.Json.Basic

/-! # Blocks as JSON

    A record is written as an object with its fields in a fixed order; a
    block has its category in front.  A record may be read from an object,
    where further members do not matter, or from an array that holds
    exactly its fields in that order.  A number must be a 64-bit natural
    written without fraction and exponent. -/

namespace CodeBlocks

/-- The values of the named fields, from an object or from an array of just
    these. -/
def Json.fields? (names : List String) : Json → Option (List Json)
  | .object members => names.mapM fun name => members.lookup name
  | .array elements => if elements.length = names.length then some elements else none
  | _ => none

/-- A 64-bit natural. -/
def Json.word? : Json → Option Nat
  | .integer n => if 0 ≤ n ∧ n ≤ Word.greatest then some n.toNat else none
  | _ => none

/-- A string. -/
def Json.string? : Json → Option String
  | .string s => some s
  | _ => none

/-- An array of strings. -/
def Json.strings? : Json → Option (List String)
  | .array elements => elements.mapM Json.string?
  | _ => none

namespace TextRange

def toJson (r : TextRange) : Json :=
  .object
    [("startLine", .nat r.startLine), ("startColumn", .nat r.startColumn),
     ("endLine", .nat r.endLine), ("endColumn", .nat r.endColumn)]

def ofJson? (x : Json) : Option TextRange := do
  match ← x.fields? ["startLine", "startColumn", "endLine", "endColumn"] with
  | [a, b, c, d] => return ⟨← a.word?, ← b.word?, ← c.word?, ← d.word?⟩
  | _ => none

end TextRange

namespace Block

def toJson : Block → Json
  | function info => .object
      [("category", .string "function"), ("name", .string info.name),
       ("parameterNames", .strings info.parameterNames), ("range", info.range.toJson),
       ("kind", .string info.kind)]
  | classLike info => .object
      [("category", .string "class"), ("name", .string info.name),
       ("range", info.range.toJson), ("kind", .string info.kind)]
  | other info => .object
      [("category", .string "other"), ("range", info.range.toJson),
       ("kind", .string info.kind)]

/-- The category of a block's JSON form and the rest of it. -/
def splitCategory? : Json → Option (String × Json)
  | .object members => do
      let category ← members.lookup "category"
      return (← category.string?, .object members)
  | .array (category :: rest) => do return (← category.string?, .array rest)
  | _ => none

def ofJson? (x : Json) : Option Block := do
  let (category, body) ← splitCategory? x
  match category with
  | "function" =>
      match ← body.fields? ["name", "parameterNames", "range", "kind"] with
      | [name, parameters, range, kind] =>
          return .function ⟨← name.string?, ← parameters.strings?,
            ← TextRange.ofJson? range, ← kind.string?⟩
      | _ => none
  | "class" =>
      match ← body.fields? ["name", "range", "kind"] with
      | [name, range, kind] =>
          return .classLike ⟨← name.string?, ← TextRange.ofJson? range, ← kind.string?⟩
      | _ => none
  | "other" =>
      match ← body.fields? ["range", "kind"] with
      | [range, kind] => return .other ⟨← TextRange.ofJson? range, ← kind.string?⟩
      | _ => none
  | _ => none

end Block

end CodeBlocks
