import CodeBlocks.Block.Basic
import CodeBlocks.SyntaxTree.Basic
import CodeBlocks.Taxonomy.Basic

/-! # Signature — names and parameters of functions and classes

    A function's name is the text of its child in the role `name`.  A
    function literal without one may be bound by a declarator: it then
    takes the declarator's name and the extent of the whole declaration,
    and counts as no function in any other place.

    A parameter is named by its first identifier leaf.  One without an
    identifier, such as a bare separator, has no name and is left out. -/

namespace CodeBlocks

/-- Whether `needle` stands somewhere in a text. -/
def Text.includes (needle : List Char) : List Char → Bool
  | [] => needle.isEmpty
  | c :: cs => needle.isPrefixOf (c :: cs) || includes needle cs

namespace SyntaxTree

/-- The kinds of leaves that name a parameter. -/
def identifierKinds : List String :=
  ["identifier", "shorthand_property_identifier_pattern", "self"]

/-- Whether a node is a leaf that names a parameter. -/
def isIdentifier (tree : SyntaxTree) (i : Nat) : Bool :=
  (tree.node i).children.isEmpty && identifierKinds.contains (tree.node i).kind

/-- The text of the child in a role; empty when there is no such child. -/
def fieldText (tree : SyntaxTree) (i : Nat) (field : String) : String :=
  ((tree.childByField? i field).map tree.text).getD ""

/-- The first identifier of a node: itself or the first one below it. -/
def firstIdentifier? (tree : SyntaxTree) (i : Nat) : Option String :=
  ((i :: tree.descendants i).find? tree.isIdentifier).map tree.text

/-- The names of a function's parameters, in order. -/
def parameterNames (tree : SyntaxTree) (i : Nat) : List String :=
  match tree.childByField? i "parameter" with
  | some single => (tree.firstIdentifier? single).toList
  | none =>
      match tree.childByField? i "parameters" with
      | some list =>
          if tree.isIdentifier list then [tree.text list]
          else
            let isComment := fun child =>
              Text.includes "comment".toList (tree.node child).kind.toList
            ((tree.node list).children.filter fun child => !isComment child).filterMap
              tree.firstIdentifier?
      | none => []

/-- The declarator that binds a function literal, and its declaration. -/
def binding? (tree : SyntaxTree) (rule : DeclaratorRule) (i : Nat) : Option (Nat × Nat) := do
  let declarator ← (tree.node i).parent
  guard (rule.declarators.contains (tree.node declarator).kind)
  let declaration ← (tree.node declarator).parent
  guard (rule.declarations.contains (tree.node declaration).kind)
  return (declarator, declaration)

/-- A function named and placed by other nodes than its own. -/
def signature (tree : SyntaxTree) (i named placed : Nat) : FunctionInfo :=
  ⟨tree.fieldText named "name", tree.parameterNames i,
   TextRange.ofSpan (tree.node placed).span, (tree.node i).kind⟩

end SyntaxTree

namespace Taxonomy

/-- What is known of a node of a function kind. -/
def functionInfo? (t : Taxonomy) (tree : SyntaxTree) (i : Nat) : Option FunctionInfo :=
  let kind := (tree.node i).kind
  if !t.isFunction kind then none
  else if (tree.childByField? i "name").isNone && t.isLiteral kind then do
    let (declarator, declaration) ← tree.binding? (← t.declarator) i
    return tree.signature i declarator declaration
  else
    some (tree.signature i i i)

/-- What is known of a node of a class kind. -/
def classInfo? (t : Taxonomy) (tree : SyntaxTree) (i : Nat) : Option ClassInfo :=
  let node := tree.node i
  if t.isClass node.kind then
    some ⟨tree.fieldText i "name", TextRange.ofSpan node.span, node.kind⟩
  else
    none

/-- A node as a block that is neither function nor class, over a range. -/
def otherBlock (tree : SyntaxTree) (i : Nat) (range : TextRange) : Block :=
  .other ⟨range, (tree.node i).kind⟩

/-- The block of a node: a function if it has a signature, else a class, else
    any other block. -/
def classify (t : Taxonomy) (tree : SyntaxTree) (i : Nat) : Block :=
  match t.functionInfo? tree i with
  | some info => .function info
  | none =>
      match t.classInfo? tree i with
      | some info => .classLike info
      | none => otherBlock tree i (TextRange.ofSpan (tree.node i).span)

end Taxonomy

end CodeBlocks
