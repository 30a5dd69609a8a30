import CodeBlocks.Proofs.Parser.Lifecycle

/-! # Loads of the grammar — one at a time, and none after a success

    A parser has one cell for its grammar.  The callers who find it empty
    load in turn: while one load is running the others wait, a failure
    passes the turn on, and a success ends all loading.

    * `LoadEvent` is what can become of a load: it starts, fails or
      succeeds.  `Run.loadHistory` lists the load events of a run.
    * `World.CellStep` says once what a step of a call can do to the cell.
    * `Phase.InTurn` is kept by every step: a running load has the turn,
      and the cell is empty.
    * `Run.Accounted` is kept by every step together with it: what the
      history says is what the phases of the calls and the cell show. -/

namespace CodeBlocks

/-- What becomes of a caller's load. -/
inductive LoadEvent where
  | started (caller : Caller)
  | failed (caller : Caller)
  | succeeded (caller : Caller)
deriving DecidableEq

/-- Whether a call has a load running. -/
def Phase.isLoading : Phase → Bool
  | .loading _ => true
  | _          => false

namespace LoadEvent

/-- Whose load it is. -/
def caller : LoadEvent → Caller
  | started c | failed c | succeeded c => c

def isStarted : LoadEvent → Bool
  | started _ => true
  | _         => false

def isFailed : LoadEvent → Bool
  | failed _ => true
  | _        => false

def isSucceeded : LoadEvent → Bool
  | succeeded _ => true
  | _           => false

/-- What a step of a caller means for its load: a running load ends as the loader has it, and a
    call that comes to be loading has started one. -/
def ofPhases? (caller : Caller) : Phase → Phase → Option LoadEvent
  | .loading (.ok _),    _          => some (succeeded caller)
  | .loading (.error _), _          => some (failed caller)
  | _,                   .loading _ => some (started caller)
  | _,                   _          => none

theorem ofPhases?_eq_none {caller : Caller} {before after : Phase}
    (hbefore : before.isLoading = false) (hafter : after.isLoading = false) :
    ofPhases? caller before after = none := by
  cases before with
  | loading outcome => cases hbefore
  | _ =>
      cases after with
      | loading outcome => cases hafter
      | _ => rfl

end LoadEvent

/-- A result that is the error of a failed load. -/
def LoadFailed {α : Type} (result : Except Error α) : Prop :=
  ∃ l, result = .error (.grammar l .unavailable)

namespace Phase

/-- A running load has the turn while the cell is empty, and fails for no other reason than that
    there is no grammar. -/
def InTurn (w : World) (caller : Caller) : Phase → Prop
  | loading outcome =>
      w.parser.turn = some caller ∧ w.parser.grammar = none ∧
        ∀ e, outcome = .error e → LoadFailed outcome
  | _ => True

/-- The loads that a call must have made to be where it is: one that failed if it has its error,
    and otherwise none or one that succeeded. -/
def Recalls (caller : Caller) (own : List LoadEvent) : Phase → Prop
  | entering | atCell | waiting => own = []
  | loading _ => own = [.started caller]
  | admitted _ | prepared => own = [] ∨ own = [.started caller, .succeeded caller]
  | done result =>
      LoadFailed result ∧ own = [.started caller, .failed caller] ∨
      ¬ LoadFailed result ∧ (own = [] ∨ own = [.started caller, .succeeded caller])

end Phase

namespace Run

/-- What an event means for the loads. -/
def loadEvent? (engine : Engine) (r : Run) : Event → Option LoadEvent
  | .resume caller =>
      (r.calls[caller]?).bind fun call =>
        LoadEvent.ofPhases? caller call.phase
          (r.world.step engine caller call.query call.phase).2
  | _ => none

/-- What becomes of loads along a list of events. -/
def loadHistory (engine : Engine) (r : Run) : List Event → List LoadEvent
  | [] => []
  | event :: events =>
      (r.loadEvent? engine event).toList ++ (r.apply engine event).loadHistory engine events

/-- How many calls have a load running. -/
def inFlight (r : Run) : Nat := r.calls.countP fun call => call.phase.isLoading

end Run

/-! ## What a step does to the cell -/

/-- Loader and cell are as they were. -/
structure World.SameCell (w w' : World) : Prop where
  loader : w'.loader = w.loader
  source : w'.parser.source = w.parser.source
  grammar : w'.parser.grammar = w.parser.grammar
  turn : w'.parser.turn = w.parser.turn

/-- All that a step of a call can do to the cell: start a load when the turn is free or its own,
    end its own load, or leave the cell alone. -/
inductive World.CellStep (w : World) (caller : Caller) : Phase → World × Phase → Prop where
  | start {phase : Phase} : phase = .atCell ∧ w.parser.turn = none ∨
      phase = .waiting ∧ w.parser.turn = some caller → w.parser.grammar = none →
      CellStep w caller phase (w.load caller)
  | finish {outcome : Except Error LoadedGrammar} :
      CellStep w caller (.loading outcome) (w.finishLoad outcome)
  | pass {phase : Phase} {next : World × Phase} : w.SameCell next.1 →
      phase.isLoading = false → next.2.isLoading = false →
      (∀ own, phase.Recalls caller own → next.2.Recalls caller own) →
      CellStep w caller phase next

/-! ### What is no load error -/

section LoadFailed

theorem not_loadFailed_ok {α : Type} (a : α) : ¬ LoadFailed (.ok a) := by
  rintro ⟨l, heq⟩
  cases heq

theorem not_loadFailed_disposed {α : Type} : ¬ LoadFailed (.error .disposed : Except Error α) := by
  rintro ⟨l, heq⟩
  cases heq

theorem not_loadFailed_incompatible {α : Type} (language : Language) :
    ¬ LoadFailed (.error (.grammar language .incompatible) : Except Error α) := by
  rintro ⟨l, heq⟩
  cases heq

theorem not_loadFailed_map {α β : Type} {f : α → β} {result : Except Error α}
    (h : ¬ LoadFailed result) : ¬ LoadFailed (result.map f) := by
  rintro ⟨l, heq⟩
  exact Error.map_ne_error (fun hresult => h ⟨l, hresult⟩) heq

theorem not_loadFailed_parse (engine : Engine) (p : LanguageParser) (text : String) :
    ¬ LoadFailed (p.parse engine text) := by
  rintro ⟨l, herror⟩
  rcases LanguageParser.parse_error herror with ⟨-, heq⟩ | ⟨-, -, heq⟩ | heq
  · cases heq
  · cases heq
  · cases heq

theorem not_loadFailed_obtains {engine : Engine} {p : LanguageParser} {d : Document}
    {result : Except Error SharedTree × LanguageParser}
    (h : LanguageParser.Obtains engine p d result) : ¬ LoadFailed result.1 := by
  cases h with
  | refused _ => exact not_loadFailed_disposed
  | found _ _ => exact not_loadFailed_ok _
  | stored _ _ => exact not_loadFailed_ok _
  | failed _ herror =>
      rintro ⟨l, heq⟩
      obtain rfl := Except.error.inj heq
      exact not_loadFailed_parse engine p d.text ⟨l, herror⟩

end LoadFailed

namespace World

theorem SameCell.refl (w : World) : w.SameCell w := ⟨rfl, rfl, rfl, rfl⟩

theorem sameCell_obtains {engine : Engine} {w : World} {d : Document}
    {result : Except Error SharedTree × LanguageParser}
    (h : LanguageParser.Obtains engine w.parser d result) :
    w.SameCell { w with parser := result.2 } := by
  cases h with
  | refused _ => exact .refl w
  | found _ _ => exact ⟨rfl, rfl, rfl, rfl⟩
  | stored _ _ => exact ⟨rfl, rfl, rfl, rfl⟩
  | failed _ _ => exact .refl w

variable {w : World} {caller : Caller}

/-- A call that goes on from the cell remembers the loads it made. -/
theorem cellStep_enterCell : w.CellStep caller .atCell (w.enterCell caller) := by
  rw [enterCell]
  split
  · exact .pass (.refl w) rfl rfl fun _ h => .inl h
  · next hempty =>
      split
      · next hturn => exact .start (.inl ⟨rfl, hturn⟩) hempty
      · exact .pass ⟨rfl, rfl, rfl, rfl⟩ rfl rfl fun _ h => h

theorem cellStep_keepWaiting : w.CellStep caller .waiting (w.keepWaiting caller) := by
  rw [keepWaiting]
  split
  · exact .pass (.refl w) rfl rfl fun _ h => .inl h
  · next hempty =>
      split
      · next hturn => exact .start (.inr ⟨rfl, hturn⟩) hempty
      · exact .pass (.refl w) rfl rfl fun _ h => h

theorem cellStep_attach (g : LoadedGrammar) : w.CellStep caller (.admitted g) (w.attach g) := by
  dsimp only [attach]
  split
  · exact .pass (.refl w) rfl rfl fun _ h => .inr ⟨not_loadFailed_disposed, h⟩
  · split
    · exact .pass (.refl w) rfl rfl fun _ h => h
    · split
      · exact .pass ⟨rfl, rfl, rfl, rfl⟩ rfl rfl fun _ h => h
      · exact .pass (.refl w) rfl rfl fun _ h => .inr ⟨not_loadFailed_incompatible _, h⟩

theorem cellStep_respond (engine : Engine) (q : Query) :
    w.CellStep caller .prepared (w.respond engine q) := by
  rw [respond]
  split
  · exact .pass (.refl w) rfl rfl fun _ h => .inr ⟨not_loadFailed_ok _, h⟩
  · next d _ =>
      have hobtains := LanguageParser.obtains_parseDocument engine w.parser d
      exact .pass (sameCell_obtains hobtains) rfl rfl fun _ h =>
        .inr ⟨not_loadFailed_map (not_loadFailed_obtains hobtains), h⟩
  · next text _ =>
      exact .pass (.refl w) rfl rfl fun _ h =>
        .inr ⟨not_loadFailed_map (not_loadFailed_parse engine w.parser text), h⟩

/-- **A step of a call starts a load, ends its own, or leaves the cell alone.** -/
theorem cellStep_step (engine : Engine) (q : Query) (phase : Phase) :
    w.CellStep caller phase (w.step engine caller q phase) := by
  cases phase with
  | entering =>
      simp only [step]
      split
      · exact .pass (.refl w) rfl rfl fun _ h => .inr ⟨not_loadFailed_ok _, .inl h⟩
      · split
        · exact .pass (.refl w) rfl rfl fun _ h => .inr ⟨not_loadFailed_disposed, .inl h⟩
        · exact .pass (.refl w) rfl rfl fun _ h => h
  | atCell => exact cellStep_enterCell
  | waiting => exact cellStep_keepWaiting
  | loading outcome => exact .finish
  | admitted g => exact cellStep_attach g
  | prepared => exact cellStep_respond engine q
  | done result => exact .pass (.refl w) rfl rfl fun _ h => h

end World

/-! ## Running loads -/

namespace Phase

variable {w w' : World} {caller : Caller} {phase : Phase}

theorem inTurn_of_not_loading (h : phase.isLoading = false) : phase.InTurn w caller := by
  cases phase with
  | loading outcome => cases h
  | _ => exact trivial

theorem InTurn.sameCell (h : phase.InTurn w caller) (hsame : w.SameCell w') :
    phase.InTurn w' caller := by
  cases phase with
  | loading outcome =>
      obtain ⟨hturn, hempty, herror⟩ := h
      exact ⟨hsame.turn.trans hturn, hsame.grammar.trans hempty, herror⟩
  | _ => exact trivial

/-- Only a call with the error of a load recalls one that failed. -/
theorem Recalls.exists_failed {own : List LoadEvent} (h : phase.Recalls caller own)
    (hown : own = [.started caller, .failed caller]) :
    ∃ result, phase = .done result ∧ LoadFailed result := by
  subst hown
  cases phase with
  | entering | atCell | waiting | loading => cases h
  | admitted | prepared => rcases h with heq | heq <;> cases heq
  | done result =>
      rcases h with ⟨hfailed, -⟩ | ⟨-, heq | heq⟩
      · exact ⟨result, rfl, hfailed⟩
      · cases heq
      · cases heq

/-- A call with the turn of another has no load running. -/
theorem InTurn.not_loading (h : phase.InTurn w caller) (hturn : w.parser.turn ≠ some caller) :
    phase.isLoading = false := by
  cases phase with
  | loading outcome => exact absurd h.1 hturn
  | _ => rfl

end Phase

theorem Loader.loadFailed_result {loader : Loader} {source : GrammarSource} {language : Language}
    {e : Error} (h : loader.result source language = .error e) :
    LoadFailed (loader.result source language) := by
  cases source with
  | builtin => cases h
  | fetched =>
      rw [Loader.result] at h ⊢
      split at h
      · exact ⟨language, rfl⟩
      · cases h

theorem World.sameCell_dispose (w : World) :
    w.SameCell { w with parser := w.parser.dispose } := by
  dsimp only [LanguageParser.dispose]
  split
  · exact .refl w
  · exact ⟨rfl, rfl, rfl, rfl⟩

namespace Run

/-- **A running load keeps its turn, whatever the others do.** -/
theorem preserved_inTurn (engine : Engine) :
    Preserved engine (fun _ => True) (fun _ => True)
      (fun w caller _ phase => phase.InTurn w caller) where
  enter _ _ _ _ _ := trivial
  step w caller q phase _ h := by
    refine ⟨trivial, ?_⟩
    generalize hnext : w.step engine caller q phase = next
    have hcell : w.CellStep caller phase next := hnext ▸ World.cellStep_step engine q phase
    cases hcell with
    | start _ hempty => exact ⟨rfl, hempty, fun _ herror => Loader.loadFailed_result herror⟩
    | @finish outcome => cases outcome <;> exact trivial
    | pass _ _ hloading _ => exact Phase.inTurn_of_not_loading hloading
  others w caller q phase _ h other q' phase' hne hother := by
    generalize hnext : w.step engine caller q phase = next
    have hcell : w.CellStep caller phase next := hnext ▸ World.cellStep_step engine q phase
    -- whoever starts or ends a load has or takes the turn, so no other load is running
    cases hcell with
    | start hturn _ =>
        refine Phase.inTurn_of_not_loading (hother.not_loading ?_)
        rintro heq
        rcases hturn with ⟨-, hfree⟩ | ⟨-, hown⟩
        · cases hfree.symm.trans heq
        · exact hne (Option.some.inj (heq.symm.trans hown))
    | finish =>
        refine Phase.inTurn_of_not_loading (hother.not_loading fun heq => ?_)
        exact hne (Option.some.inj (heq.symm.trans h.1))
    | pass hsame _ _ _ => exact hother.sameCell hsame
  dispose w _ := ⟨trivial, fun _ _ _ h => h.sameCell w.sameCell_dispose⟩

/-- Every running load has the turn. -/
abbrev InTurn (r : Run) : Prop :=
  Upholds (fun _ => True) (fun w caller _ phase => phase.InTurn w caller) r

/-! ## The account of loads -/

/-- The load events of one caller. -/
def own (caller : Caller) (history : List LoadEvent) : List LoadEvent :=
  history.filter fun event => event.caller = caller

theorem own_append (caller : Caller) (history later : List LoadEvent) :
    own caller (history ++ later) = own caller history ++ own caller later :=
  List.filter_append ..

theorem own_self {caller : Caller} {events : List LoadEvent}
    (h : ∀ event ∈ events, event.caller = caller) : own caller events = events :=
  List.filter_eq_self.mpr fun event hevent => decide_eq_true (h event hevent)

theorem own_other {caller other : Caller} {events : List LoadEvent}
    (h : ∀ event ∈ events, event.caller = caller) (hne : other ≠ caller) :
    own other events = [] := by
  refine List.filter_eq_nil_iff.mpr fun event hevent heq => hne ?_
  exact (of_decide_eq_true heq).symm.trans (h event hevent)

/-- The history of a run is what its calls and its cell show.  At most one load is running, each
    started load is running, has failed or has succeeded, the cell is filled by the one success,
    after which none is started, and every call remembers its own loads.  A loader that is asked
    has logged all starts. -/
structure Accounted (source : GrammarSource) (loads : Nat) (history : List LoadEvent) (r : Run) :
    Prop where
  single : r.inFlight ≤ 1
  balance : history.countP LoadEvent.isStarted
    = history.countP LoadEvent.isFailed + r.inFlight + history.countP LoadEvent.isSucceeded
  cell : history.countP LoadEvent.isSucceeded
    = if r.world.parser.grammar.isSome = true then 1 else 0
  closed : history.Pairwise fun a b => a.isSucceeded = true → b.isStarted = false
  recalls : ∀ (caller : Caller) (call : Call), r.calls[caller]? = some call →
    call.phase.Recalls caller (own caller history)
  silent : ∀ caller : Caller, r.calls[caller]? = none → own caller history = []
  asks : r.world.parser.source = source
  logged : source = .fetched →
    r.world.loader.loads = loads + history.countP LoadEvent.isStarted

theorem accounted_start (language : Language) (config : ParserConfig) (source : GrammarSource)
    (loader : Loader) :
    Accounted source loader.loads []
      (Run.start ⟨loader, LanguageParser.new language config source⟩) where
  single := Nat.zero_le 1
  balance := rfl
  cell := rfl
  closed := .nil
  recalls _ _ hcall := nomatch hcall
  silent _ _ := rfl
  asks := rfl
  logged _ := rfl

section Account

variable {engine : Engine} {source : GrammarSource} {loads : Nat} {history : List LoadEvent}
variable {r : Run}

/-- A call that changes its phase is counted as in flight before and after. -/
theorem inFlight_set {caller : Caller} {call : Call} (hcall : r.calls[caller]? = some call)
    (w : World) (phase : Phase) :
    inFlight ⟨w, r.calls.set caller { call with phase }⟩ + call.phase.isLoading.toNat
      = r.inFlight + phase.isLoading.toNat := by
  obtain ⟨hlt, rfl⟩ := List.getElem?_eq_some_iff.mp hcall
  have hpos : r.calls[caller].phase.isLoading = true →
      0 < r.calls.countP fun call => call.phase.isLoading := by
    intro hloading
    exact List.countP_pos_iff.mpr ⟨_, List.getElem_mem hlt, hloading⟩
  rw [inFlight, inFlight, List.countP_set hlt]
  dsimp only
  cases hold : r.calls[caller].phase.isLoading with
  | false => cases phase.isLoading <;> simp
  | true =>
      have hsome := hpos hold
      cases phase.isLoading <;> simp <;> omega

/-- No load is running unless the caller who has the turn is loading. -/
theorem InTurn.inFlight_eq_zero (hturn : InTurn r)
    (hidle : ∀ (caller : Caller) (call : Call), r.calls[caller]? = some call →
      r.world.parser.turn = some caller → call.phase.isLoading = false) : r.inFlight = 0 := by
  refine List.countP_eq_zero.mpr ?_
  intro call hmem hloading
  obtain ⟨caller, hcall⟩ := List.getElem?_of_mem hmem
  have hnot : call.phase.isLoading = false := by
    by_cases heq : r.world.parser.turn = some caller
    · exact hidle caller call hcall heq
    · exact (hturn.calls caller call hcall).not_loading heq
  rw [hnot] at hloading
  cases hloading

variable (h : Accounted source loads history r)

include h

/-- The calls of a run remember their loads when one of them takes a step. -/
theorem Accounted.recalls_set {caller : Caller} {call : Call}
    (hcall : r.calls[caller]? = some call) {events : List LoadEvent} {phase : Phase}
    (hevents : ∀ event ∈ events, event.caller = caller)
    (hphase : phase.Recalls caller (own caller history ++ events)) :
    (∀ (c : Caller) (call' : Call), (r.calls.set caller { call with phase })[c]? = some call' →
      call'.phase.Recalls c (own c (history ++ events))) ∧
    ∀ c : Caller, (r.calls.set caller { call with phase })[c]? = none →
      own c (history ++ events) = [] := by
  have hlt : caller < r.calls.length := (List.getElem?_eq_some_iff.mp hcall).1
  constructor
  · intro c call' hcall'
    rw [own_append]
    by_cases heq : c = caller
    · subst heq
      rw [List.getElem?_set_self hlt] at hcall'
      obtain rfl := Option.some.inj hcall'
      rw [own_self hevents]
      exact hphase
    · rw [List.getElem?_set_ne (Ne.symm heq)] at hcall'
      rw [own_other hevents heq, List.append_nil]
      exact h.recalls c call' hcall'
  · intro c hnone
    rw [own_append]
    have heq : c ≠ caller := by
      rintro rfl
      rw [List.getElem?_set_self hlt] at hnone
      cases hnone
    rw [List.getElem?_set_ne (Ne.symm heq)] at hnone
    rw [own_other hevents heq, h.silent c hnone, List.append_nil]

/-- What a step of a caller has to answer for: loads are neither lost nor made up, a load starts
    only while none is running and none has succeeded, and a filled cell is a success. -/
theorem Accounted.advance {caller : Caller} {call : Call} (hcall : r.calls[caller]? = some call)
    {w : World} {phase : Phase} (event : Option LoadEvent)
    (hevent : ∀ e ∈ event.toList, e.caller = caller)
    (hrecalls : phase.Recalls caller (own caller history ++ event.toList))
    (hflow : event.toList.countP LoadEvent.isStarted + call.phase.isLoading.toNat
      = event.toList.countP LoadEvent.isFailed + phase.isLoading.toNat
        + event.toList.countP LoadEvent.isSucceeded)
    (hidle : phase.isLoading = true → r.inFlight = 0)
    (hopen : ∀ e ∈ event.toList, e.isStarted = true → r.world.parser.grammar = none)
    (hcell : history.countP LoadEvent.isSucceeded + event.toList.countP LoadEvent.isSucceeded
      = if w.parser.grammar.isSome = true then 1 else 0)
    (hasks : w.parser.source = source)
    (hlogged : source = .fetched →
      w.loader.loads = r.world.loader.loads + event.toList.countP LoadEvent.isStarted) :
    Accounted source loads (history ++ event.toList)
      ⟨w, r.calls.set caller { call with phase }⟩ := by
  have hcount := inFlight_set hcall w phase
  obtain ⟨hrecalls, hsilent⟩ := h.recalls_set hcall hevent hrecalls
  refine ⟨?_, ?_, ?_, ?_, hrecalls, hsilent, hasks, ?_⟩
  · have hsingle := h.single
    cases hloading : phase.isLoading with
    | false =>
        rw [hloading, Bool.toNat_false] at hcount
        omega
    | true =>
        have hzero := hidle hloading
        rw [hloading, Bool.toNat_true] at hcount
        omega
  · have hbalance := h.balance
    rw [List.countP_append, List.countP_append, List.countP_append]
    omega
  · rw [List.countP_append]
    exact hcell
  · refine List.pairwise_append.mpr ⟨h.closed, by cases event <;> simp, ?_⟩
    intro a ha b hb hsucceeded
    refine Bool.eq_false_iff.mpr fun hstarted => ?_
    -- a success in the history has filled the cell, so nothing starts now
    have hfilled := h.cell
    rw [hopen b hb hstarted] at hfilled
    have hpos := List.countP_pos_iff.mpr ⟨a, ha, hsucceeded⟩
    rw [hfilled] at hpos
    cases hpos
  · intro hfetched
    rw [List.countP_append, hlogged hfetched, h.logged hfetched]
    omega

/-- **A step of a caller keeps the account.** -/
theorem Accounted.step (hturn : InTurn r) {caller : Caller} {call : Call}
    (hcall : r.calls[caller]? = some call) {next : World × Phase}
    (hcell : r.world.CellStep caller call.phase next) :
    Accounted source loads
      (history ++ (LoadEvent.ofPhases? caller call.phase next.2).toList)
      ⟨next.1, r.calls.set caller { call with phase := next.2 }⟩ := by
  have hrecalls := h.recalls caller call hcall
  have hown := hturn.calls caller call hcall
  obtain ⟨q, phase⟩ := call
  cases hcell with
  | start hfree hempty =>
      -- a turn that is free or the caller's own is not that of a running load
      have hidle : r.inFlight = 0 := by
        refine hturn.inFlight_eq_zero fun c call' hcall' hheld => ?_
        rcases hfree with ⟨-, hturnless⟩ | ⟨rfl, hmine⟩
        · cases hturnless.symm.trans hheld
        · obtain rfl := Option.some.inj (hmine.symm.trans hheld)
          obtain rfl := Option.some.inj (hcall.symm.trans hcall')
          rfl
      have hlogged : source = .fetched →
          (r.world.load caller).1.loader.loads = r.world.loader.loads + 1 := by
        intro hfetched
        show (r.world.loader.start r.world.parser.source r.world.parser.language).loads = _
        rw [h.asks, hfetched]
        rfl
      rcases hfree with ⟨rfl, -⟩ | ⟨rfl, -⟩
      all_goals
        refine h.advance hcall (some (.started caller)) (by simp [LoadEvent.caller]) ?_ rfl
          (fun _ => hidle) (fun _ _ _ => hempty) h.cell h.asks hlogged
        rw [show own caller history = [] from hrecalls]
        rfl
  | @finish outcome =>
      -- the load is the caller's own, and the one event of its end is a success or a failure
      obtain ⟨-, hempty, herror⟩ := hown
      have hstarted : own caller history = [.started caller] := hrecalls
      cases outcome with
      | ok g =>
          refine h.advance hcall (some (.succeeded caller)) (by simp [LoadEvent.caller])
            (.inr ?_) rfl nofun nofun ?_ h.asks fun _ => rfl
          · rw [hstarted]
            rfl
          · rw [h.cell, hempty]
            rfl
      | error e =>
          obtain ⟨l, hfailed⟩ := herror e rfl
          refine h.advance hcall (some (.failed caller)) (by simp [LoadEvent.caller])
            (.inl ⟨⟨l, congrArg Except.error (Except.error.inj hfailed)⟩, ?_⟩) rfl nofun nofun
            h.cell h.asks fun _ => rfl
          rw [hstarted]
          rfl
  | pass hsame hphase hnext hkeeps =>
      -- not loading before nor after: no event, and the cell as it was
      rw [LoadEvent.ofPhases?_eq_none hphase hnext]
      refine h.advance hcall none nofun ?_ ?_ ?_ nofun ?_ (hsame.source.trans h.asks) ?_
      · rw [Option.toList_none, List.append_nil]
        exact hkeeps _ hrecalls
      · rw [hphase, hnext]
        rfl
      · rw [hnext]
        exact nofun
      · rw [hsame.grammar]
        exact h.cell
      · intro _
        rw [hsame.loader]
        rfl

/-- Every event keeps the account. -/
theorem Accounted.apply (hturn : InTurn r) (engine : Engine) (event : Event) :
    Accounted source loads (history ++ (r.loadEvent? engine event).toList)
      (r.apply engine event) := by
  cases event with
  | resume caller =>
      rw [Run.apply, Run.resume, loadEvent?]
      cases hcall : r.calls[caller]? with
      | none => simpa using h
      | some call => exact h.step hturn hcall (World.cellStep_step engine call.query call.phase)
  | dispose =>
      have hsame := r.world.sameCell_dispose
      show Accounted source loads (history ++ []) r.dispose
      rw [List.append_nil]
      refine ⟨h.single, h.balance, ?_, h.closed, h.recalls, h.silent, hsame.source.trans h.asks, ?_⟩
      · show _ = if r.world.parser.dispose.grammar.isSome = true then 1 else 0
        rw [hsame.grammar]
        exact h.cell
      · exact h.logged
  | call q =>
      show Accounted source loads (history ++ []) (r.enter q)
      rw [List.append_nil]
      have hflight : (r.enter q).inFlight = r.inFlight := by
        rw [inFlight, Run.enter, List.countP_append]
        rfl
      refine ⟨hflight ▸ h.single, hflight ▸ h.balance, h.cell, h.closed, ?_, ?_, h.asks, h.logged⟩
      · intro caller call hcall
        rcases Nat.lt_or_ge caller r.calls.length with hlt | hge
        · rw [Run.enter, List.getElem?_append_left hlt] at hcall
          exact h.recalls caller call hcall
        · rw [Run.enter, List.getElem?_append_right hge] at hcall
          obtain rfl := List.mem_singleton.mp (List.mem_of_getElem? hcall)
          exact h.silent caller (List.getElem?_eq_none hge)
      · intro caller hnone
        have hge : r.calls.length ≤ caller := by
          rw [List.getElem?_eq_none_iff, Run.enter, List.length_append] at hnone
          exact Nat.le_of_add_right_le hnone
        exact h.silent caller (List.getElem?_eq_none hge)

omit h in
/-- Every list of events keeps the account. -/
theorem Accounted.applyAll (engine : Engine) (events : List Event) (hturn : InTurn r)
    (h : Accounted source loads history r) :
    Accounted source loads (history ++ r.loadHistory engine events)
      (r.applyAll engine events) := by
  induction events generalizing r history with
  | nil =>
      rw [loadHistory, List.append_nil]
      exact h
  | cons event events ih =>
      rw [loadHistory, ← List.append_assoc]
      exact ih (hturn.apply (preserved_inTurn engine) event fun _ _ => trivial)
        (h.apply hturn engine event)

end Account

end Run

/-- **The grammar is loaded once.**  Along every run of a new parser at most one load is in
    flight and at most one ever succeeds; none starts after a success, so every load that was
    started has failed, is in flight, or is the one that succeeded, and a loader that is asked has
    been asked as often as loads were started.  A caller has the error of a load exactly if it
    made one load itself and that one failed. -/
theorem grammar_is_loaded_once (engine : Engine) (language : Language) (config : ParserConfig)
    (source : GrammarSource) (loader : Loader) (events : List Event) :
    let start := Run.start ⟨loader, LanguageParser.new language config source⟩
    let run := start.applyAll engine events
    let history := start.loadHistory engine events
    run.inFlight ≤ 1 ∧
    history.countP LoadEvent.isSucceeded ≤ 1 ∧
    (history.Pairwise fun earlier later =>
      earlier.isSucceeded = true → later.isStarted = false) ∧
    history.countP LoadEvent.isStarted
      = history.countP LoadEvent.isFailed + run.inFlight
        + history.countP LoadEvent.isSucceeded ∧
    (source = .fetched →
      run.world.loader.loads = loader.loads + history.countP LoadEvent.isStarted) ∧
    ∀ caller : Caller,
      (∃ q l, run.calls[caller]? = some ⟨q, .done (.error (.grammar l .unavailable))⟩) ↔
        (history.filter fun event => event.caller = caller)
          = [.started caller, .failed caller] := by
  intro start run history
  have hturn : start.InTurn := Run.upholds_start trivial
  have h : Run.Accounted source loader.loads history run :=
    (Run.accounted_start language config source loader).applyAll engine events hturn
  refine ⟨h.single, ?_, h.closed, h.balance, h.logged, fun caller => ⟨?_, ?_⟩⟩
  · rw [h.cell]
    split <;> decide
  · rintro ⟨q, l, hcall⟩
    rcases h.recalls caller _ hcall with ⟨-, hown⟩ | ⟨hnot, -⟩
    · exact hown
    · exact absurd ⟨l, rfl⟩ hnot
  · intro hown
    obtain ⟨call, hcall⟩ : ∃ call, run.calls[caller]? = some call := by
      refine Option.ne_none_iff_exists'.mp fun hnone => ?_
      cases (h.silent caller hnone).symm.trans hown
    obtain ⟨q, phase⟩ := call
    obtain ⟨result, rfl, l, rfl⟩ := (h.recalls caller _ hcall).exists_failed hown
    exact ⟨q, l, hcall⟩

/-- A loader whose first fetch of each language fails. -/
def Loader.failsOnce : Loader :=
  Loader.fresh fun _ earlier => if earlier = 0 then .failure else .success true

/-- Two callers, the second of whom waits while the first fetches, and then fetches as well. -/
def Event.fetchedTwice : List Event :=
  [.call .ready, .call .ready, .resume 0, .resume 0, .resume 1, .resume 1, .resume 0, .resume 1,
    .resume 1]

theorem grammar_is_loaded_after_failure :
    let start := Run.start
      ⟨Loader.failsOnce, LanguageParser.new .rust ⟨1, Binary64.one, 1⟩ .fetched⟩
    let run := start.applyAll (fun _ _ => none) Event.fetchedTwice
    start.loadHistory (fun _ _ => none) Event.fetchedTwice
      = [.started 0, .failed 0, .started 1, .succeeded 1] ∧
    run.world.loader.loads = 2 ∧
    ∃ q l, run.calls[0]? = some ⟨q, .done (.error (.grammar l .unavailable))⟩ := by
  have hhistory : Run.loadHistory (fun _ _ => none)
      (Run.start ⟨Loader.failsOnce, LanguageParser.new .rust ⟨1, Binary64.one, 1⟩ .fetched⟩)
      Event.fetchedTwice = [.started 0, .failed 0, .started 1, .succeeded 1] := by
    decide +kernel
  obtain ⟨-, -, -, -, hloads, hcallers⟩ := grammar_is_loaded_once (fun _ _ => none) .rust
    ⟨1, Binary64.one, 1⟩ .fetched Loader.failsOnce Event.fetchedTwice
  dsimp only
  rw [hhistory] at hloads hcallers ⊢
  rw [hloads rfl]
  exact ⟨rfl, rfl, (hcallers 0).mpr rfl⟩

end CodeBlocks
