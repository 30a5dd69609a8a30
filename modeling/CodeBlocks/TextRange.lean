import CodeBlocks.ParseTree.Basic
import CodeBlocks.Word

/-! # TextRange — one-based lines and columns

    Ranges as an editor shows them.  The greatest end column stands for
    the end of the line, wherever that is, and keeps its meaning when the
    range is turned into points. -/

namespace CodeBlocks

/-- A range of one-based lines and columns. -/
structure TextRange where
  startLine : Nat
  startColumn : Nat
  endLine : Nat
  endColumn : Nat
deriving DecidableEq

namespace TextRange

/-- The end column that means the end of the line. -/
def endOfLine : Nat := Word.greatest

/-- The range of a span. -/
def ofSpan (span : Span) : TextRange :=
  ⟨Word.next span.start.row, Word.next span.start.column,
   Word.next span.stop.row, Word.next span.stop.column⟩

/-- The lines a span touches, whole. -/
def wholeLines (span : Span) : TextRange :=
  ⟨Word.next span.start.row, 1, Word.next span.stop.row, endOfLine⟩

/-- Whether the range goes to the end of its last line. -/
def isEndOfLine (r : TextRange) : Bool := r.endColumn == endOfLine

/-- The zero-based start. -/
def startPoint (r : TextRange) : Point := ⟨r.startLine - 1, r.startColumn - 1⟩

/-- The zero-based end; the end of the line stays where it is. -/
def endPoint (r : TextRange) : Point :=
  ⟨r.endLine - 1, if r.isEndOfLine then endOfLine else r.endColumn - 1⟩

end TextRange

end CodeBlocks
