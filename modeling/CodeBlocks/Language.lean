import CodeBlocks.Path
import CodeBlocks.Json.Basic

/-! # Language — the supported languages and how they are named

    A language has one name of its own, several ids an editor may use and
    several file extensions.  Ids and extensions are compared without
    regard to case; the only letter beyond ASCII whose lower case is one
    ASCII letter is the Kelvin sign, and no id or extension has a `k`, so
    lowering ASCII letters decides every case. -/

namespace CodeBlocks

/-- A supported language. -/
inductive Language where
  | javascript
  | jsx
  | typescript
  | tsx
  | python
  | rust
  | go
  | java
deriving DecidableEq

/-- The delimiters of a block comment. -/
structure BlockComment where
  start : String
  stop : String
  lineStart : String
deriving DecidableEq

namespace Language

/-- All languages. -/
def all : List Language := [javascript, jsx, typescript, tsx, python, rust, go, java]

/-- The name a language is listed under. -/
def name : Language → String
  | javascript => "javascript"
  | jsx => "jsx"
  | typescript => "typescript"
  | tsx => "tsx"
  | python => "python"
  | rust => "rust"
  | go => "go"
  | java => "java"

/-- The name in diagnostic texts. -/
def label : Language → String
  | javascript => "JavaScript"
  | jsx => "JavaScriptReact"
  | typescript => "TypeScript"
  | tsx => "TypeScriptReact"
  | python => "Python"
  | rust => "Rust"
  | go => "Go"
  | java => "Java"

/-- ASCII letters in lower case. -/
def lower (s : String) : String := s.map Char.toLower

/-- The language of an editor's language id, in any case. -/
def ofId? (id : String) : Option Language :=
  match lower id with
  | "javascript" | "js" => some javascript
  | "javascriptreact" | "jsx" => some jsx
  | "typescript" | "ts" => some typescript
  | "typescriptreact" | "tsx" => some tsx
  | "python" => some python
  | "rust" => some rust
  | "go" | "golang" => some go
  | "java" => some java
  | _ => none

/-- The language of a file extension, in any case. -/
def ofExtension? (extension : String) : Option Language :=
  match lower extension with
  | "js" | "mjs" | "cjs" => some javascript
  | "jsx" => some jsx
  | "ts" | "mts" | "cts" => some typescript
  | "tsx" => some tsx
  | "py" | "pyw" => some python
  | "rs" => some rust
  | "go" => some go
  | "java" => some java
  | _ => none

/-- The language of a path, by its extension. -/
def ofPath? (path : String) : Option Language :=
  (Path.extension? path).bind ofExtension?

/-- The language of exactly that name. -/
def ofName? (name : String) : Option Language :=
  all.find? fun language => language.name == name

/-- The language a JSON value stands for: its name, or an object whose only
    member has its name and no value. -/
def ofJson? : Json → Option Language
  | .string name => ofName? name
  | .object [(name, .null)] => ofName? name
  | _ => none

/-- The language's name as JSON. -/
def toJson (language : Language) : Json := .string language.name

/-- Languages with modules imported by path. -/
def isJavascriptFamily : Language → Bool
  | javascript | jsx | typescript | tsx => true
  | _ => false

/-- Languages with type declarations. -/
def isTypescriptFamily : Language → Bool
  | typescript | tsx => true
  | _ => false

/-- What a line comment starts with. -/
def lineComment : Language → String
  | python => "# "
  | _ => "// "

/-- The delimiters of a block comment. -/
def blockComment : Language → BlockComment
  | python => ⟨"\x27\x27\x27", "\x27\x27\x27", ""⟩
  | _ => ⟨"/**", " */", " * "⟩

end Language

end CodeBlocks
