import CodeBlocks.Parser.Step

/-! # Runs — many calls on one parser, in any order

    A run is the parser with all calls made on it so far.  Its events are
    a new call, one step of a call, and disposal; every interleaving of
    calls is a list of events.

    `readyTogether` is one such interleaving: a number of callers who all
    want the parser ready start in order, each goes as far as it can
    without waiting, and then they take turns until all are done. -/

namespace CodeBlocks

/-- A call on a parser: the question and where it stands. -/
structure Call where
  query : Query
  phase : Phase

/-- A parser with the calls made on it; a caller's number is its place. -/
structure Run where
  world : World
  calls : List Call

/-- What can happen next. -/
inductive Event where
  | call (q : Query)
  | resume (caller : Caller)
  | dispose
deriving DecidableEq

namespace Run

/-- A run before the first call. -/
def start (w : World) : Run := ⟨w, []⟩

/-- One more call, not begun yet. -/
def enter (r : Run) (q : Query) : Run := { r with calls := r.calls ++ [⟨q, .entering⟩] }

/-- One step of a caller. -/
def resume (engine : Engine) (r : Run) (caller : Caller) : Run :=
  match r.calls[caller]? with
  | none => r
  | some call =>
      let (w, phase) := r.world.step engine caller call.query call.phase
      ⟨w, r.calls.set caller { call with phase }⟩

/-- Disposes the parser. -/
def dispose (r : Run) : Run :=
  { r with world := { r.world with parser := r.world.parser.dispose } }

/-- What an event does. -/
def apply (engine : Engine) (r : Run) : Event → Run
  | .call q => r.enter q
  | .resume caller => r.resume engine caller
  | .dispose => r.dispose

/-- What a list of events does. -/
def applyAll (engine : Engine) (r : Run) (events : List Event) : Run :=
  events.foldl (fun r event => r.apply engine event) r

/-- Whether a caller has to wait: for its turn, or for a grammar being fetched. -/
def isSuspended (r : Run) (caller : Caller) : Bool :=
  match r.calls[caller]? with
  | none => true
  | some call =>
      match call.phase with
      | .waiting => r.world.parser.grammar.isNone && r.world.parser.turn != some caller
      | .loading _ => r.world.parser.source == .fetched
      | .done _ => true
      | _ => false

/-- Lets a caller go on until it has to wait, in at most `fuel` steps. -/
def settle (engine : Engine) (caller : Caller) : Nat → Run → Run
  | 0, r => r
  | fuel + 1, r =>
      if r.isSuspended caller then r else settle engine caller fuel (r.resume engine caller)

/-- Wakes a caller: one step, and on until it has to wait. -/
def poll (engine : Engine) (r : Run) (caller : Caller) : Run :=
  settle engine caller World.callLength (r.resume engine caller)

/-- Wakes all callers in order. -/
def round (engine : Engine) (r : Run) : Run :=
  (List.range r.calls.length).foldl (poll engine) r

/-- Wakes all callers in order, a number of times. -/
def rounds (engine : Engine) : Nat → Run → Run
  | 0, r => r
  | n + 1, r => rounds engine n (r.round engine)

/-- The results of the calls that are done. -/
def results (r : Run) : List (Except Error Answer) :=
  r.calls.filterMap fun call =>
    match call.phase with
    | .done result => some result
    | _ => none

/-- Callers who want the parser ready, all started before the first load ends.
    Every round ends the load that is running, so as many rounds as callers
    end all calls.  The parser may be disposed while they wait. -/
def readyTogether (engine : Engine) (w : World) (count : Nat) (disposeAfter : Bool) : Run :=
  let entered := (List.replicate count Query.ready).foldl enter (start w)
  let started := entered.round engine
  rounds engine count (if disposeAfter then started.dispose else started)

end Run

end CodeBlocks
