import CodeBlocks.SyntaxTree.Basic

/-! # Outline — imports and type declarations at the top level -/

namespace CodeBlocks

namespace Outline

/-- The quotes around a module path. -/
def isQuote (c : Char) : Bool := c == '"' || c == '\x27' || c == '\x60'

/-- A text without the quotes at its two ends. -/
def unquote (cs : List Char) : List Char :=
  ((cs.dropWhile isQuote).reverse.dropWhile isQuote).reverse

/-- The kinds of type declarations. -/
def typeKinds : List String := ["interface_declaration", "type_alias_declaration"]

end Outline

namespace SyntaxTree

/-- The module paths of the import statements, without their quotes. -/
def importPaths (tree : SyntaxTree) : List String :=
  let imports := (tree.node 0).children.filter fun child =>
    (tree.node child).kind == "import_statement"
  (imports.filterMap fun child => tree.childByField? child "source").map fun source =>
    String.ofList (Outline.unquote (tree.text source).toList)

/-- What a statement declares: an export declares what it exports. -/
def declared? (tree : SyntaxTree) (i : Nat) : Option Nat :=
  if (tree.node i).kind == "export_statement" then tree.childByField? i "declaration"
  else some i

/-- The texts of the interfaces and type aliases, exported ones without the
    word that exports them. -/
def typeDeclarations (tree : SyntaxTree) : List String :=
  let declarations := (tree.node 0).children.filterMap tree.declared?
  (declarations.filter fun i => Outline.typeKinds.contains (tree.node i).kind).map tree.text

end SyntaxTree

end CodeBlocks
