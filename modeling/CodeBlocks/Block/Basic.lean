import CodeBlocks.TextRange

/-! # Block — a classified part of a text

    A block is a function, a class-like declaration or something else the
    taxonomy names.  Functions and classes have a name, which is empty
    when the text gives none. -/

namespace CodeBlocks

/-- A function, a method or a name bound to a function. -/
structure FunctionInfo where
  name : String
  parameterNames : List String
  range : TextRange
  kind : String
deriving DecidableEq

/-- A class-like declaration. -/
structure ClassInfo where
  name : String
  range : TextRange
  kind : String
deriving DecidableEq

/-- Any other block. -/
structure OtherInfo where
  range : TextRange
  kind : String
deriving DecidableEq

/-- A classified block. -/
inductive Block where
  | function (info : FunctionInfo)
  | classLike (info : ClassInfo)
  | other (info : OtherInfo)
deriving DecidableEq

namespace Block

def range : Block → TextRange
  | function info => info.range
  | classLike info => info.range
  | other info => info.range

/-- The kind of the node the block was classified from. -/
def kind : Block → String
  | function info => info.kind
  | classLike info => info.kind
  | other info => info.kind

/-- The name of a function or class. -/
def name? : Block → Option String
  | function info => some info.name
  | classLike info => some info.name
  | other _ => none

/-- The category, as a word. -/
def category : Block → String
  | function _ => "function"
  | classLike _ => "class"
  | other _ => "other"

/-- Neither a function nor a class. -/
def isOther : Block → Bool
  | other _ => true
  | _ => false

end Block

end CodeBlocks
