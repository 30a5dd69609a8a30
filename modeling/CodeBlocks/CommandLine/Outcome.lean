import CodeBlocks.Block.Json
import CodeBlocks.CommandLine.Arguments
import CodeBlocks.Service

/-! # Outcome — what a command line prints

    A command line is run against a way to read files and a parser engine.
    The settings are read first, then the language is made out, then the
    file is read.  The first failure ends the run with a message; a run
    that fails prints nothing.  Lists and blocks are printed as JSON. -/

namespace CodeBlocks.CommandLine

/-- How a run ends. -/
structure Outcome where
  code : Nat
  output : String
  /-- What went wrong, if something did. -/
  message : Option String
deriving DecidableEq

/-- A run that prints something. -/
def success (output : String) : Outcome := ⟨0, output, none⟩

/-- A run that fails. -/
def failure (message : String) : Outcome := ⟨1, "", some message⟩

/-- The name and version. -/
def versionText : String := "syntax-blocks 0.1.0\n"

/-- A short reminder of the commands.  The text stands for the help that an argument parser would
    write; how that is laid out is not modelled. -/
def helpText : String :=
  "Syntax-aware code blocks and boundary repair\n\n"
    ++ "Usage: syntax-blocks [OPTIONS] <COMMAND>\n\n"
    ++ "Commands: blocks, symbols, at, trim, imports, help\n"

/-- How a run ends that stops at its arguments. -/
def Stop.outcome : Stop → Outcome
  | usage => ⟨2, "", none⟩
  | help => success helpText
  | version => success versionText

/-- A way to read files. -/
abbrev Reader := String → Except FileFault String

/-- The question a command puts to the parser. -/
def Command.query (d : Document) : Command → Query
  | blocks => .blocks d
  | symbols => .symbols d
  | blockAt offset => .blockAt d offset
  | trim true minimum => .trimStart d.text minimum
  | trim false minimum => .trimEnd d.text minimum
  | imports => .imports d.text

/-- An answer in print. -/
def printed : Answer → String
  | .blocks blocks => (Json.array (blocks.map Block.toJson)).pretty
  | .found block => (Json.ofOption (block.map Block.toJson)).pretty
  | .block block => block.toJson.pretty
  | .texts texts => (Json.strings texts).pretty
  | .text text => text
  | .ready | .shared _ | .tree _ => Json.null.pretty

/-- The language of a file: the one asked for, or that of the path. -/
def resolveLanguage (inv : Invocation) : Except String Language :=
  match inv.language with
  | some id =>
      match Language.ofId? id with
      | some language => .ok language
      | none => .error ("Unsupported language: " ++ id)
  | none =>
      match Language.ofPath? inv.file with
      | some language => .ok language
      | none => .error ("Cannot detect language of " ++ inv.file ++ "; pass --language")

/-- The service of a run, with built-in grammars. -/
def service (config : ParserConfig) : Except Error ParserService :=
  ParserService.new config .builtin (Loader.fresh fun _ _ => .success true)

/-- Puts a command's question to the parser of a language. -/
def respond (engine : Engine) (config : ParserConfig) (language : Language)
    (command : Command) (d : Document) : Except String String := do
  match service config with
  | .error e => throw e.message
  | .ok s =>
      let (id, s) := s.parserOf language
      match (s.call? engine id (command.query d)).1 with
      | some (.ok answer) => return printed answer
      | some (.error e) => throw e.message
      | none => throw Error.disposed.message

/-- Runs an invocation with the given settings. -/
def execute (engine : Engine) (read : Reader) (config : ParserConfig) (inv : Invocation) :
    Outcome :=
  let result : Except String String := do
    let language ← resolveLanguage inv
    match read inv.file with
    | .error _ => throw ("Failed to read " ++ inv.file)
    | .ok text => respond engine config language inv.command ⟨inv.file, 1, text⟩
  match result with
  | .ok text => success (text ++ "\n")
  | .error message => failure message

/-- The settings of a run. -/
def settingsOf (read : Reader) (inv : Invocation) : Except String ParserConfig :=
  match inv.config with
  | none => .ok ParserConfig.standard
  | some path =>
      match ParserConfig.ofFile (read path) with
      | .ok config => .ok config
      | .error _ => .error ("Failed to load config " ++ path)

/-- Runs a command line. -/
def run (engine : Engine) (read : Reader) (args : List String) : Outcome :=
  match parse args with
  | .error stop => stop.outcome
  | .ok inv =>
      match settingsOf read inv with
      | .error message => failure message
      | .ok config => execute engine read config inv

/-- The files a command line reads. -/
def filesOf (args : List String) : List String :=
  match parse args with
  | .error _ => []
  | .ok inv => inv.config.toList ++ [inv.file]

end CodeBlocks.CommandLine
