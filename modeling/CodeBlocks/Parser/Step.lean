import CodeBlocks.Parser.Basic

/-! # Steps of a call — from the question to the answer

    A call goes through phases.  Between two phases anything may happen to
    the parser: other calls, or its disposal.  So every phase that needs a
    live parser checks again.

    The grammar is loaded by one caller at a time.  A load that succeeds
    fills the cell for all; one that fails is the error of its caller
    alone, and the turn passes to the next in line. -/

namespace CodeBlocks

/-- Where a call stands. -/
inductive Phase where
  /-- Nothing has been done. -/
  | entering
  /-- The parser was live; the grammar is wanted next. -/
  | atCell
  /-- In line behind another caller's load. -/
  | waiting
  /-- Its own load is running and will end so. -/
  | loading (outcome : Except Error LoadedGrammar)
  /-- It has the grammar, which has to be attached. -/
  | admitted (grammar : LoadedGrammar)
  /-- The parser was ready; the question comes next. -/
  | prepared
  /-- It has its answer or its error. -/
  | done (result : Except Error Answer)

/-- A parser and its loader at one moment. -/
structure World where
  loader : Loader
  parser : LanguageParser

namespace World

/-- Starts a load for a caller. -/
def load (w : World) (caller : Caller) : World × Phase :=
  let p := w.parser
  (⟨w.loader.start p.source p.language, { p with turn := some caller }⟩,
   .loading (w.loader.result p.source p.language))

/-- Asks for the grammar: takes it, starts a load, or gets in line. -/
def enterCell (w : World) (caller : Caller) : World × Phase :=
  match w.parser.grammar with
  | some grammar => (w, .admitted grammar)
  | none =>
      match w.parser.turn with
      | none => w.load caller
      | some _ =>
          ({ w with parser := { w.parser with line := w.parser.line ++ [caller] } }, .waiting)

/-- Goes on in line: the grammar may be there, or it may be this caller's turn. -/
def keepWaiting (w : World) (caller : Caller) : World × Phase :=
  match w.parser.grammar with
  | some grammar => (w, .admitted grammar)
  | none => if w.parser.turn = some caller then w.load caller else (w, .waiting)

/-- Ends a load. -/
def finishLoad (w : World) (outcome : Except Error LoadedGrammar) : World × Phase :=
  let p := w.parser
  match outcome with
  | .ok grammar =>
      ({ w with parser := { p with grammar := some grammar, turn := none, line := [] } },
       .admitted grammar)
  | .error e =>
      ({ w with parser := { p with turn := p.line.head?, line := p.line.tail } },
       .done (.error e))

/-- Attaches the grammar, unless one is attached. -/
def attach (w : World) (grammar : LoadedGrammar) : World × Phase :=
  let p := w.parser
  if p.disposed then (w, .done (.error .disposed))
  else if p.attached.isSome then (w, .prepared)
  else if grammar.usable then
    ({ w with parser := { p with attached := some grammar } }, .prepared)
  else (w, .done (.error (.grammar p.language .incompatible)))

/-- Parses what the question is about and answers it. -/
def respond (engine : Engine) (w : World) (q : Query) : World × Phase :=
  match q.subject with
  | .nothing => (w, .done (.ok .ready))
  | .document d =>
      let (result, p) := w.parser.parseDocument engine d
      ({ w with parser := p }, .done (result.map fun shared => q.answer w.parser shared))
  | .text text =>
      let result := w.parser.parse engine text
      (w, .done (result.map fun tree => q.answer w.parser ⟨w.parser.parses, tree⟩))

/-- One step of a call. -/
def step (engine : Engine) (caller : Caller) (q : Query) (w : World) : Phase → World × Phase
  | .entering =>
      match q.immediate? w.parser.language with
      | some answer => (w, .done (.ok answer))
      | none => if w.parser.disposed then (w, .done (.error .disposed)) else (w, .atCell)
  | .atCell => w.enterCell caller
  | .waiting => w.keepWaiting caller
  | .loading outcome => w.finishLoad outcome
  | .admitted grammar => w.attach grammar
  | .prepared => w.respond engine q
  | .done result => (w, .done result)

/-- The steps of a call, none between them from elsewhere. -/
def steps (engine : Engine) (caller : Caller) (q : Query) : Nat → World × Phase → World × Phase
  | 0, state => state
  | n + 1, state => steps engine caller q n (step engine caller q state.1 state.2)

/-- A call that runs to its end on its own takes this many steps: enter, get to
    the cell, load, attach, respond. -/
def callLength : Nat := 5

/-- A call with nothing else going on; none if another caller's load is in the
    way. -/
def call? (engine : Engine) (w : World) (q : Query) : World × Option (Except Error Answer) :=
  match steps engine 0 q callLength (w, .entering) with
  | (w, .done result) => (w, some result)
  | (w, _) => (w, none)

end World

end CodeBlocks
