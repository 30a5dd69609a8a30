import CodeBlocks.Word

/-! # Document — a text with an identity and a version

    A document's key is its id, an `@` and its version in decimal.  The
    decimal has no `@`, so the last `@` of a key divides it. -/

namespace CodeBlocks

/-- A version of a document. -/
structure Document where
  id : String
  /-- A 64-bit number. -/
  version : Nat
  text : String
deriving DecidableEq

namespace Document

/-- The key a parse of this version is stored under. -/
def key (d : Document) : String := d.id ++ "@" ++ toString d.version

/-- The next version, with a new text. -/
def update (d : Document) (text : String) : Document :=
  { d with text, version := Word.next d.version }

end Document

end CodeBlocks
