import CodeBlocks.Error
import CodeBlocks.ParseTree.Basic

/-! # Grammar — what the parser engine works with

    The engine is outside the library: a function from a grammar and a
    text to a tree, or to nothing.  Grammars come from a loader.  Built-in
    ones are at hand at once; others are fetched, which takes time and may
    fail.  A loader keeps a log of the fetches it has started; `outcome`
    says how each of them ends, by language and by how many of that
    language came before it.

    What a fetch brings is fixed, though a loader of another make could
    bring anything.  One that fails always brings the same error, that the
    grammar of its language is unavailable; one that succeeds brings the
    grammar of its own language, and never that of another.  Only whether
    it fails, and whether the engine accepts the grammar, is left open. -/

namespace CodeBlocks

/-- A grammar of the engine; a language and its markup dialect may share one. -/
inductive Grammar where
  | javascript
  | typescript
  | tsx
  | python
  | rust
  | go
  | java
deriving DecidableEq

/-- The grammar a language is parsed with. -/
def Language.grammar : Language → Grammar
  | javascript => .javascript
  | jsx => .javascript
  | typescript => .typescript
  | tsx => .tsx
  | python => .python
  | rust => .rust
  | go => .go
  | java => .java

/-- A parser engine. -/
abbrev Engine := Grammar → String → Option ParseTree

/-- A grammar as it was loaded. -/
structure LoadedGrammar where
  grammar : Grammar
  /-- Whether the engine accepts it. -/
  usable : Bool
deriving DecidableEq

/-- Where a parser gets its grammar from. -/
inductive GrammarSource where
  /-- From the library, at once. -/
  | builtin
  /-- From the loader, by a fetch. -/
  | fetched
deriving DecidableEq

/-- How a fetch ends: with the one error there is for it, or with the language's own grammar,
    which the engine may not accept. -/
inductive FetchOutcome where
  | failure
  | success (usable : Bool)
deriving DecidableEq

/-- A loader of grammars. -/
structure Loader where
  /-- The languages whose grammar it has started to fetch, latest first. -/
  log : List Language
  /-- How the fetch ends that follows `n` earlier ones of its language. -/
  outcome : Language → Nat → FetchOutcome

namespace Loader

/-- A loader before its first fetch. -/
def fresh (outcome : Language → Nat → FetchOutcome) : Loader := ⟨[], outcome⟩

/-- The number of fetches it has started. -/
def loads (loader : Loader) : Nat := loader.log.length

/-- The result of the next load of a language: built-in grammars never fail. -/
def result (loader : Loader) (source : GrammarSource) (language : Language) :
    Except Error LoadedGrammar :=
  match source with
  | .builtin => .ok ⟨language.grammar, true⟩
  | .fetched =>
      match loader.outcome language (loader.log.count language) with
      | .failure => .error (.grammar language .unavailable)
      | .success usable => .ok ⟨language.grammar, usable⟩

/-- The loader after a load has started: only fetches are logged. -/
def start (loader : Loader) (source : GrammarSource) (language : Language) : Loader :=
  match source with
  | .builtin => loader
  | .fetched => { loader with log := language :: loader.log }

end Loader

end CodeBlocks
