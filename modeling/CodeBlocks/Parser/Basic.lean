import CodeBlocks.Document
import CodeBlocks.Grammar
import CodeBlocks.Locate
import CodeBlocks.Outline
import CodeBlocks.RecencyCache
import CodeBlocks.SyntaxTree.Flatten
import CodeBlocks.Trim

/-! # LanguageParser — one language, one grammar, many texts

    A parser owns the cell its grammar is loaded into, the engine once the
    grammar is attached, and a store of parsed documents by key.  Callers
    that come while a load is running wait in line.

    A parsed document is shared: everyone who asks for the same key gets
    the same tree until it is given up.  A tree carries the number of the
    parse that made it, so that two of them can be told apart.

    All questions go through the parser.  Those about a document use the
    store, those about a plain text never do. -/

namespace CodeBlocks

/-- A parsed document, shared by all who asked for it. -/
structure SharedTree where
  /-- Which parse of its parser made it. -/
  stamp : Nat
  tree : SyntaxTree
deriving DecidableEq

/-- A caller, by number. -/
abbrev Caller := Nat

/-- A parser of one language. -/
structure LanguageParser where
  language : Language
  config : ParserConfig
  source : GrammarSource
  /-- The grammar, once a load has succeeded. -/
  grammar : Option LoadedGrammar
  /-- The caller whose turn it is to load. -/
  turn : Option Caller
  /-- The callers who wait for a load, first come first. -/
  line : List Caller
  /-- The grammar attached to the engine. -/
  attached : Option LoadedGrammar
  /-- Parsed documents by key. -/
  trees : RecencyCache String SharedTree
  /-- How many documents the engine has parsed. -/
  parses : Nat
  disposed : Bool

namespace LanguageParser

/-- A parser that has done nothing yet. -/
def new (language : Language) (config : ParserConfig) (source : GrammarSource) :
    LanguageParser :=
  { language, config, source
    grammar := none
    turn := none
    line := []
    attached := none
    trees := RecencyCache.empty config.cacheCapacity config.cacheRatio
    parses := 0
    disposed := false }

/-- A parser for a language id. -/
def forId (id : String) (config : ParserConfig) (source : GrammarSource) :
    Except Error LanguageParser :=
  match Language.ofId? id with
  | some language => .ok (new language config source)
  | none => .error (.unsupportedLanguage id)

/-- The taxonomy of the parser's language. -/
def taxonomy (p : LanguageParser) : Taxonomy := Taxonomy.ofLanguage p.language

/-- Releases the engine and all parsed documents, for good. -/
def dispose (p : LanguageParser) : LanguageParser :=
  if p.disposed then p
  else { p with disposed := true, attached := none, trees := p.trees.clear }

/-- Has the engine parse a text. -/
def parse (engine : Engine) (p : LanguageParser) (text : String) : Except Error SyntaxTree :=
  if p.disposed then .error .disposed
  else
    match p.attached with
    | none => .error (.grammar p.language .notAttached)
    | some loaded =>
        match engine loaded.grammar text with
        | some tree => .ok (SyntaxTree.ofParse text tree)
        | none => .error (.parseFailed p.language)

/-- Parses a document, unless its key is in the store. -/
def parseDocument (engine : Engine) (p : LanguageParser) (d : Document) :
    Except Error SharedTree × LanguageParser :=
  if p.disposed then (.error .disposed, p)
  else
    match p.trees.get? d.key with
    | (some shared, trees) => (.ok shared, { p with trees })
    | (none, _) =>
        match p.parse engine d.text with
        | .error e => (.error e, p)
        | .ok tree =>
            let shared : SharedTree := ⟨p.parses, tree⟩
            (.ok shared, { p with trees := p.trees.set d.key shared, parses := p.parses + 1 })

/-- A diagnostic text. -/
def describe (p : LanguageParser) : String :=
  "LanguageParser \x7b language: " ++ p.language.label ++ ", config: " ++ p.config.describe
    ++ ", grammar_loaded: " ++ (if p.grammar.isSome then "true" else "false") ++ ", .. \x7d"

end LanguageParser

/-- What a parser can be asked. -/
inductive Query where
  /-- To load and attach the grammar. -/
  | ready
  /-- The tree of a document. -/
  | document (d : Document)
  /-- The tree of a text. -/
  | text (text : String)
  | blocks (d : Document)
  | symbols (d : Document)
  | blockAt (d : Document) (offset : Nat)
  | blockIn (d : Document) (range : TextRange)
  | errorFree (text : String) (range : TextRange)
  /-- The text without a malformed end; without a minimum the configured one. -/
  | trimEnd (text : String) (minimum : Option Nat)
  /-- The text without a malformed start. -/
  | trimStart (text : String) (minimum : Option Nat)
  | imports (text : String)
  | types (text : String)
deriving DecidableEq

/-- What a parser answers. -/
inductive Answer where
  | ready
  | shared (tree : SharedTree)
  | tree (tree : SyntaxTree)
  | blocks (blocks : List Block)
  | found (block : Option Block)
  | block (block : Block)
  | text (text : String)
  | texts (texts : List String)
deriving DecidableEq

/-- What has to be parsed for a question. -/
inductive Subject where
  | nothing
  | document (d : Document)
  | text (text : String)
deriving DecidableEq

namespace Query

/-- What has to be parsed. -/
def subject : Query → Subject
  | ready => .nothing
  | document d | blocks d | symbols d | blockAt d _ | blockIn d _ => .document d
  | text t | errorFree t _ | trimEnd t _ | trimStart t _ | imports t | types t => .text t

/-- The answer that a language gives at once: languages without imports or type
    declarations have none in any text. -/
def immediate? (language : Language) : Query → Option Answer
  | imports _ => if language.isJavascriptFamily then none else some (.texts [])
  | types _ => if language.isTypescriptFamily then none else some (.texts [])
  | _ => none

/-- The answer of a parser, given the parsed document or text. -/
def answer (p : LanguageParser) (shared : SharedTree) : Query → Answer
  | ready => .ready
  | document _ => .shared shared
  | text _ => .tree shared.tree
  | blocks _ => .blocks (p.taxonomy.listBlocks shared.tree)
  | symbols _ => .blocks (p.taxonomy.listSymbols shared.tree)
  | blockAt _ offset => .found (p.taxonomy.blockAt? shared.tree offset)
  | blockIn _ range => .found (p.taxonomy.blockIn? shared.tree range)
  | errorFree _ range => .block (shared.tree.errorFreeBlock range)
  | trimEnd _ minimum =>
      .text (shared.tree.trimEnd (minimum.getD p.config.minBlockCount))
  | trimStart _ minimum =>
      .text (shared.tree.trimStart (minimum.getD p.config.minBlockCount))
  | imports _ => .texts shared.tree.importPaths
  | types _ => .texts shared.tree.typeDeclarations

end Query

end CodeBlocks
