import CodeBlocks.Parser.Run

/-! # ParserService — one shared parser for each language

    A service makes a parser when its language is first asked for and
    hands the same one out until it is removed.  Parsers are known by the
    number under which they were made.  A parser that is removed is
    disposed; one that was disposed by a holder stays registered.

    The service also keeps parsers that were opened on their own, without
    being registered. -/

namespace CodeBlocks

/-- A service with every parser it has made. -/
structure ParserService where
  config : ParserConfig
  source : GrammarSource
  loader : Loader
  /-- All parsers ever made, by number. -/
  parsers : Array LanguageParser
  /-- The registered parser of each language that has one. -/
  registered : List (Language × Nat)

namespace ParserService

/-- A service without parsers, whatever the settings. -/
def bare (config : ParserConfig) (source : GrammarSource) (loader : Loader) : ParserService :=
  ⟨config, source, loader, #[], []⟩

/-- A service with settings that are in range. -/
def new (config : ParserConfig) (source : GrammarSource) (loader : Loader) :
    Except Error ParserService := do
  config.validate
  return bare config source loader

/-- The parser of a number. -/
def parser? (s : ParserService) (id : Nat) : Option LanguageParser := s.parsers[id]?

/-- Keeps a parser that is not registered. -/
def openParser (s : ParserService) (p : LanguageParser) : Nat × ParserService :=
  (s.parsers.size, { s with parsers := s.parsers.push p })

/-- The registered parser of a language, made if there is none. -/
def parserOf (s : ParserService) (language : Language) : Nat × ParserService :=
  match s.registered.lookup language with
  | some id => (id, s)
  | none =>
      let id := s.parsers.size
      (id,
       { s with
         parsers := s.parsers.push (LanguageParser.new language s.config s.source)
         registered := s.registered ++ [(language, id)] })

/-- The registered parser of a language id, if the id names a language. -/
def create? (s : ParserService) (id : String) : Option Nat × ParserService :=
  match Language.ofId? id with
  | some language =>
      let (parser, s) := s.parserOf language
      (some parser, s)
  | none => (none, s)

/-- Disposes a parser. -/
def disposeParser (s : ParserService) (id : Nat) : ParserService :=
  { s with parsers := s.parsers.modify id LanguageParser.dispose }

/-- Disposes and forgets the registered parser of a language id; tells whether
    there was one. -/
def remove (s : ParserService) (id : String) : Bool × ParserService :=
  match Language.ofId? id with
  | none => (false, s)
  | some language =>
      match s.registered.lookup language with
      | none => (false, s)
      | some parser =>
          let kept := s.registered.filter fun entry => entry.1 ≠ language
          (true, { s with registered := kept }.disposeParser parser)

/-- The languages with a registered parser, by name. -/
def activeLanguages (s : ParserService) : List Language :=
  (s.registered.map Prod.fst).mergeSort fun a b => decide (a.name ≤ b.name)

/-- Disposes and forgets all registered parsers; new ones can be made. -/
def dispose (s : ParserService) : ParserService :=
  s.registered.foldl (fun s entry => s.disposeParser entry.2) { s with registered := [] }

/-- The parser of a number with the loader. -/
def world? (s : ParserService) (id : Nat) : Option World :=
  (s.parser? id).map fun p => ⟨s.loader, p⟩

/-- Takes back a parser and the loader. -/
def restore (s : ParserService) (id : Nat) (w : World) : ParserService :=
  { s with loader := w.loader, parsers := s.parsers.setIfInBounds id w.parser }

/-- Asks a parser something; none if there is no such parser. -/
def call? (engine : Engine) (s : ParserService) (id : Nat) (q : Query) :
    Option (Except Error Answer) × ParserService :=
  match s.world? id with
  | none => (none, s)
  | some w =>
      let (w, result) := w.call? engine q
      (result, s.restore id w)

/-- Has a number of callers make a parser ready together. -/
def readyTogether (engine : Engine) (s : ParserService) (id count : Nat)
    (disposeAfter : Bool) : List (Except Error Answer) × ParserService :=
  match s.world? id with
  | none => ([], s)
  | some w =>
      let run := Run.readyTogether engine w count disposeAfter
      (run.results, s.restore id run.world)

/-- A diagnostic text. -/
def describe (s : ParserService) : String :=
  "ParserService \x7b config: " ++ s.config.describe ++ ", languages: ["
    ++ ", ".intercalate (s.activeLanguages.map Language.label) ++ "], .. \x7d"

end ParserService

end CodeBlocks
