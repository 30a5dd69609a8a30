import CodeBlocks.Block.Json
import CodeBlocks.ParseTree.Basic

/-! # Listings — a parse tree as JSON

    An engine that runs on its own can hand a tree over as an array of
    rows in pre-order.  A row holds depth, kind, field or null, flags (1
    for a named node, 2 for an error), start and end byte, and row and
    column of both ends. -/

namespace CodeBlocks.ParseTree

/-- A text or null. -/
def field? : Json → Option (Option String)
  | .null => some none
  | .string s => some (some s)
  | _ => none

/-- A row of a listing. -/
def rowOfJson? : Json → Option (Nat × EngineNode)
  | .array [depth, kind, field, flags, startByte, endByte, row, column, endRow, endColumn] => do
      let flags ← flags.word?
      let span : Span :=
        ⟨← startByte.word?, ← endByte.word?, ⟨← row.word?, ← column.word?⟩,
         ⟨← endRow.word?, ← endColumn.word?⟩⟩
      return (← depth.word?,
        ⟨← kind.string?, ← field? field, flags % 2 == 1, flags / 2 % 2 == 1, span⟩)
  | _ => none

/-- The tree of a listing. -/
def ofJson? : Json → Option ParseTree
  | .array rows => do ofListing? (← rows.mapM rowOfJson?)
  | _ => none

end CodeBlocks.ParseTree
