import CodeBlocks.SyntaxTree.Basic
import CodeBlocks.Text.Lines
import CodeBlocks.Word

/-! # Trim — dropping a malformed edge

    Text whose end or start is malformed, because it was cut off or is
    still being written, is trimmed to a structurally complete part.  Only
    the children of the root count.  A number of them at the other end,
    the floor, is never trimmed into.

    * Without errors, or with too few children to scan, one child is given
      up as a margin.
    * Otherwise the scan goes inward from the edge, past the errored
      children, to the first clean one after them; if it meets none, the
      floor is what stays.

    Which child is the boundary depends on the error flags alone; the text
    is then cut at the boundary's row and byte column. -/

namespace CodeBlocks

namespace Trim

/-- The first clean child after an errored one, in the order of the scan. -/
def firstCleanAfterError : Bool → List (Bool × Nat) → Option Nat
  | _, [] => none
  | seen, (errored, i) :: rest =>
      if errored then firstCleanAfterError true rest
      else if seen then some i
      else firstCleanAfterError seen rest

/-- Whether the edge is given up without a scan. -/
def marginOnly (rootError : Bool) (count floor : Nat) : Bool := !rootError || count ≤ floor

/-- The number of children that are never trimmed into. -/
def floorOf (minimum : Nat) : Nat := max minimum 1

/-- The child whose end is the new end of the text; none keeps the whole text. -/
def endBoundary? (rootError : Bool) (errors : List Bool) (minimum : Nat) : Option Nat :=
  let count := errors.length
  let floor := floorOf minimum
  if marginOnly rootError count floor then
    if count < 2 then none else some (count - 2)
  else
    some ((firstCleanAfterError false (errors.zipIdx.drop floor).reverse).getD (floor - 1))

/-- The child whose start is the new start of the text; none keeps the whole
    text. -/
def startBoundary? (rootError : Bool) (errors : List Bool) (minimum : Nat) : Option Nat :=
  let count := errors.length
  let floor := floorOf minimum
  if marginOnly rootError count floor then
    if count < 2 then none else some 1
  else
    some ((firstCleanAfterError false (errors.zipIdx.take (count - floor))).getD (count - floor))

/-- Applies a change to the last line. -/
def mapLast (f : List Char → List Char) : List (List Char) → List (List Char)
  | [] => []
  | [line] => [f line]
  | line :: next :: lines => line :: mapLast f (next :: lines)

/-- Applies a change to the first line. -/
def mapFirst (f : List Char → List Char) : List (List Char) → List (List Char)
  | [] => []
  | line :: lines => f line :: lines

/-- The text up to a point.  A column past the end of its line or inside a
    character goes back to the nearest boundary; a row past the last line
    keeps everything.  No node ends in the greatest row of a word: there the
    count of rows would start again at zero, and nothing be kept. -/
def keepThrough (text : List Char) (stop : Point) : List Char :=
  let rows := Word.next stop.row
  let lines := (Text.splitLines text).take rows
  let cut := fun line => Text.takeWithin line stop.column
  Text.joinLines (if lines.length = rows then mapLast cut lines else lines)

/-- The text from a point on. -/
def keepFrom (text : List Char) (start : Point) : List Char :=
  let cut := fun line => Text.dropWithin line start.column
  Text.joinLines (mapFirst cut ((Text.splitLines text).drop start.row))

end Trim

namespace SyntaxTree

/-- The error flags of the root's children. -/
def childErrors (tree : SyntaxTree) : List Bool :=
  (tree.node 0).children.map fun child => (tree.node child).hasError

/-- The node of the root's child of that index. -/
def topNode (tree : SyntaxTree) (index : Nat) : Node :=
  tree.node ((tree.node 0).children.getD index tree.size)

/-- The longest leading text that ends on a complete child of the root. -/
def trimEnd (tree : SyntaxTree) (minimum : Nat) : String :=
  match Trim.endBoundary? tree.hasError tree.childErrors minimum with
  | some b =>
      String.ofList (Trim.keepThrough tree.source.toList (tree.topNode b).span.stop)
  | none => tree.source

/-- The longest trailing text that starts on a complete child of the root. -/
def trimStart (tree : SyntaxTree) (minimum : Nat) : String :=
  match Trim.startBoundary? tree.hasError tree.childErrors minimum with
  | some b =>
      String.ofList (Trim.keepFrom tree.source.toList (tree.topNode b).span.start)
  | none => tree.source

end SyntaxTree

end CodeBlocks
