import CodeBlocks.Language
import CodeBlocks.Taxonomy.Kinds

/-! # Taxonomy — which node kinds are blocks, functions and classes

    Each language has one taxonomy.  A markup dialect is its base language
    with more block kinds and nothing else changed.  A function literal
    has no name of its own; a declarator rule says where it may take one
    from. -/

namespace CodeBlocks

/-- Where a function literal may take its name from: a declarator of one of
    these kinds, inside a declaration of one of these kinds. -/
structure DeclaratorRule where
  declarators : List String
  declarations : List String
deriving DecidableEq

/-- The roles that node kinds play in one language. -/
structure Taxonomy where
  language : Language
  blocks : List String
  functions : List String
  classes : List String
  /-- Functions that never carry a name of their own. -/
  literals : List String
  declarator : Option DeclaratorRule
deriving DecidableEq

namespace Taxonomy

def isBlock (t : Taxonomy) (kind : String) : Bool := t.blocks.contains kind

def isFunction (t : Taxonomy) (kind : String) : Bool := t.functions.contains kind

def isClass (t : Taxonomy) (kind : String) : Bool := t.classes.contains kind

def isLiteral (t : Taxonomy) (kind : String) : Bool := t.literals.contains kind

/-- Function and class kinds together, each once. -/
def symbols (t : Taxonomy) : List String :=
  t.functions ++ t.classes.filter fun kind => !t.isFunction kind

/-- The taxonomy of a markup dialect. -/
def withMarkup (t : Taxonomy) (language : Language) : Taxonomy :=
  { t with language, blocks := t.blocks ++ Kinds.markup }

/-- Names bound by declarators in the JavaScript family. -/
def javascriptRule : DeclaratorRule :=
  ⟨["variable_declarator"],
   ["lexical_declaration", "variable_declaration", "export_statement"]⟩

/-- Names bound by declarators in Java. -/
def javaRule : DeclaratorRule :=
  ⟨["variable_declarator"], ["local_variable_declaration", "field_declaration"]⟩

def javascript : Taxonomy :=
  { language := .javascript
    blocks := Kinds.javascriptBlocks
    functions := Kinds.javascriptFunctions
    classes := ["class_declaration"]
    literals := Kinds.javascriptLiterals
    declarator := some javascriptRule }

def typescript : Taxonomy :=
  { language := .typescript
    blocks := Kinds.typescriptBlocks
    functions := Kinds.javascriptFunctions
    classes := Kinds.typescriptClasses
    literals := Kinds.javascriptLiterals
    declarator := some javascriptRule }

def python : Taxonomy :=
  { language := .python
    blocks := Kinds.pythonBlocks
    functions := ["function_definition"]
    classes := ["class_definition"]
    literals := []
    declarator := none }

def rust : Taxonomy :=
  { language := .rust
    blocks := Kinds.rustBlocks
    functions := ["function_item", "function_signature_item"]
    classes := Kinds.rustClasses
    literals := []
    declarator := none }

def go : Taxonomy :=
  { language := .go
    blocks := Kinds.goBlocks
    functions := ["function_declaration", "method_declaration", "func_literal"]
    classes := ["type_spec"]
    literals := ["func_literal"]
    declarator := none }

def java : Taxonomy :=
  { language := .java
    blocks := Kinds.javaBlocks
    functions := ["method_declaration", "constructor_declaration", "lambda_expression"]
    classes := Kinds.javaClasses
    literals := ["lambda_expression"]
    declarator := some javaRule }

/-- The taxonomy of a language. -/
def ofLanguage : Language → Taxonomy
  | .javascript => javascript
  | .jsx => javascript.withMarkup .jsx
  | .typescript => typescript
  | .tsx => typescript.withMarkup .tsx
  | .python => python
  | .rust => rust
  | .go => go
  | .java => java

/-- The taxonomy of a language id, if the id names a language. -/
def ofId? (id : String) : Option Taxonomy := (Language.ofId? id).map ofLanguage

end Taxonomy

end CodeBlocks
