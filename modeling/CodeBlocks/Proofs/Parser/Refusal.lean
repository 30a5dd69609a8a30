import CodeBlocks.Proofs.Parser.Persistence

/-! # Calls on a disposed parser — refused at the first step

    A call looks at the parser before it does anything else.  Made after
    disposal, it ends with its first step, and this step changes nothing:
    no load is started, however many earlier calls are still suspended and
    go on beside it.

    Nearly all calls are refused.  The exceptions are questions about
    imports and type declarations to a parser whose language has none:
    their answer is given before the parser is looked at, disposed or
    not. -/

namespace CodeBlocks

namespace Query

/-- The question is about something that no text of the language has. -/
def isForeign (language : Language) : Query → Bool
  | imports _ => !language.isJavascriptFamily
  | types _   => !language.isTypescriptFamily
  | _         => false

/-- Only questions about what the language does not have are answered at once. -/
theorem immediate?_eq (language : Language) (q : Query) :
    q.immediate? language = if q.isForeign language then some (.texts []) else none := by
  cases q with
  | imports text => cases h : language.isJavascriptFamily <;> simp [immediate?, isForeign, h]
  | types text => cases h : language.isTypescriptFamily <;> simp [immediate?, isForeign, h]
  | _ => rfl

/-- How a call ends that is made on a disposed parser. -/
def refusal (language : Language) (q : Query) : Except Error Answer :=
  if q.isForeign language then .ok (.texts []) else .error .disposed

end Query

namespace World

/-- A call that has ended takes no further step. -/
theorem steps_done (engine : Engine) (caller : Caller) (q : Query) (n : Nat) (w : World)
    (result : Except Error Answer) :
    steps engine caller q n (w, .done result) = (w, .done result) := by
  induction n with
  | zero => rfl
  | succ n ih => exact ih

variable {engine : Engine} {w : World} {q : Query} (h : w.parser.disposed = true)

include h

/-- The first step of a call on a disposed parser is its last, and changes nothing. -/
theorem step_entering_of_disposed (caller : Caller) :
    w.step engine caller q .entering = (w, .done (q.refusal w.parser.language)) := by
  simp only [step, Query.immediate?_eq, Query.refusal, h]
  cases q.isForeign w.parser.language with
  | true => rfl
  | false => rfl

theorem call?_of_disposed :
    w.call? engine q = (w, some (q.refusal w.parser.language)) := by
  have hsteps : steps engine 0 q callLength (w, .entering)
      = (w, .done (q.refusal w.parser.language)) := by
    rw [callLength, steps, step_entering_of_disposed h, steps_done]
  rw [call?, hsteps]

end World

namespace Run

variable {engine : Engine} {r : Run} {caller : Caller} {q : Query}

/-- A call is left alone by the events of others. -/
theorem call_apply_of_ne {call : Call} (hcall : r.calls[caller]? = some call) {event : Event}
    (hne : event ≠ .resume caller) : (r.apply engine event).calls[caller]? = some call := by
  cases event with
  | call q =>
      have hlt : caller < r.calls.length := (List.getElem?_eq_some_iff.mp hcall).1
      rw [apply, enter, List.getElem?_append_left hlt]
      exact hcall
  | dispose => exact hcall
  | resume other =>
      have hother : other ≠ caller := fun heq => hne (heq ▸ rfl)
      rw [apply, resume]
      split
      · exact hcall
      · rw [List.getElem?_set_ne hother]
        exact hcall

theorem resume_eq {call : Call} (hcall : r.calls[caller]? = some call) :
    r.resume engine caller
      = ⟨(r.world.step engine caller call.query call.phase).1,
          r.calls.set caller
            { call with phase := (r.world.step engine caller call.query call.phase).2 }⟩ := by
  rw [resume, hcall]

/-- A call that has ended stays as it is. -/
theorem resume_of_done {result : Except Error Answer}
    (hcall : r.calls[caller]? = some ⟨q, .done result⟩) : r.resume engine caller = r := by
  obtain ⟨hlt, heq⟩ := List.getElem?_eq_some_iff.mp hcall
  rw [resume_eq hcall]
  show (⟨r.world, r.calls.set caller ⟨q, .done result⟩⟩ : Run) = r
  rw [← heq, List.set_getElem_self]

theorem call_applyAll_of_done {result : Except Error Answer}
    (hcall : r.calls[caller]? = some ⟨q, .done result⟩) (later : List Event) :
    (r.applyAll engine later).calls[caller]? = some ⟨q, .done result⟩ := by
  induction later generalizing r with
  | nil => exact hcall
  | cons event later ih =>
      by_cases hown : event = .resume caller
      · subst hown
        refine ih ?_
        show (r.resume engine caller).calls[caller]? = _
        rw [resume_of_done hcall]
        exact hcall
      · exact ih (call_apply_of_ne hcall hown)

section Disposed

variable (h : r.world.parser.disposed = true) (hcall : r.calls[caller]? = some ⟨q, .entering⟩)

include h hcall

/-- A call that begins on a disposed parser ends at once. -/
theorem resume_of_disposed :
    r.resume engine caller
      = ⟨r.world, r.calls.set caller ⟨q, .done (q.refusal r.world.parser.language)⟩⟩ := by
  rw [resume_eq hcall, World.step_entering_of_disposed h]

/-- Whatever events come in between, the call is refused with its own first step. -/
theorem call_applyAll_of_disposed (later : List Event) :
    (r.applyAll engine later).calls[caller]?
      = some ⟨q, if .resume caller ∈ later then .done (q.refusal r.world.parser.language)
          else .entering⟩ := by
  induction later generalizing r with
  | nil => exact hcall
  | cons event later ih =>
      by_cases hown : event = .resume caller
      · subst hown
        rw [if_pos List.mem_cons_self]
        refine call_applyAll_of_done ?_ later
        have hlt : caller < r.calls.length := (List.getElem?_eq_some_iff.mp hcall).1
        show (r.resume engine caller).calls[caller]? = _
        rw [resume_of_disposed h hcall, List.getElem?_set_self hlt]
      · have hpersists := r.persists_apply engine event
        have hlater := ih (hpersists.disposed h) (call_apply_of_ne hcall hown)
        simp only [List.mem_cons, Ne.symm hown, false_or]
        rw [hpersists.language] at hlater
        exact hlater

/-- The call's own steps leave the parser and the loader alone, whenever they are made. -/
theorem world_resume_of_disposed (later : List Event) :
    ((r.applyAll engine later).resume engine caller).world = (r.applyAll engine later).world := by
  have hlater : (r.applyAll engine later).calls[caller]? = _ :=
    call_applyAll_of_disposed h hcall later
  by_cases hbegun : .resume caller ∈ later
  · rw [if_pos hbegun] at hlater
    rw [resume_of_done hlater]
  · rw [if_neg hbegun] at hlater
    have hdisposed := (r.persists_applyAll engine later).disposed h
    rw [resume_of_disposed hdisposed hlater]

end Disposed

end Run

/-- **A disposed parser refuses every call at once**, but for questions about what its language
    does not have.  After any run in which the parser was disposed, a call made on its own ends so
    and leaves parser and loader as they were.  Beside calls that were suspended before, it ends
    so with its first step, and none of its steps touches parser or loader. -/
theorem disposed_parser_refuses (engine : Engine) (language : Language) (config : ParserConfig)
    (source : GrammarSource) (loader : Loader) (events : List Event) (q : Query)
    (hdisposed : .dispose ∈ events) :
    let r := Run.applyAll engine
      (Run.start ⟨loader, LanguageParser.new language config source⟩) events
    let result := if q.isForeign language then .ok (.texts []) else .error .disposed
    let caller := r.calls.length
    r.world.call? engine q = (r.world, some result) ∧
    ∀ later : List Event,
      let r' := (r.enter q).applyAll engine later
      r'.calls[caller]? = some ⟨q, if .resume caller ∈ later then .done result else .entering⟩ ∧
      (r'.resume engine caller).world = r'.world := by
  intro r result caller
  have hgone : r.world.parser.disposed = true :=
    (Run.disposed_applyAll engine _ events).mpr (.inr hdisposed)
  have hresult : q.refusal r.world.parser.language = result := by
    rw [((Run.start _).persists_applyAll engine events).language]
    rfl
  have hentered : (r.enter q).calls[caller]? = some ⟨q, .entering⟩ := List.getElem?_concat_length
  refine ⟨?_, ?_⟩
  · rw [World.call?_of_disposed hgone, hresult]
  · intro later r'
    have hgone : (r.enter q).world.parser.disposed = true := hgone
    refine ⟨?_, Run.world_resume_of_disposed hgone hentered later⟩
    rw [← hresult]
    exact Run.call_applyAll_of_disposed hgone hentered later

/-- Two callers waited when the parser was disposed; the load of the first then failed, and a
    third call is refused before the second starts a load of its own. -/
theorem disposed_parser_refuses_beside_waiting :
    let engine : Engine := fun _ _ => none
    let r := Run.applyAll engine (Run.start ⟨Loader.fresh fun _ _ => .failure,
        LanguageParser.new .javascript .standard .fetched⟩)
      [.call .ready, .call .ready, .resume 0, .resume 0, .resume 1, .resume 1, .dispose, .resume 0]
    let r' := (r.enter (.imports "")).applyAll engine [.resume 2, .resume 1]
    r.world.loader.loads = 1 ∧ r'.world.loader.loads = 2 ∧
      r'.calls[2]? = some ⟨.imports "", .done (.error .disposed)⟩ := by
  intro engine r r'
  have hfirst : r.world.loader.loads = 1 := by decide +kernel
  have hsecond : r'.world.loader.loads = 2 := by decide +kernel
  have hcallers : r.calls.length = 2 := by decide +kernel
  have hrefused : r'.calls[r.calls.length]? = _ :=
    ((disposed_parser_refuses engine .javascript .standard .fetched
      (Loader.fresh fun _ _ => .failure)
      [.call .ready, .call .ready, .resume 0, .resume 0, .resume 1, .resume 1, .dispose, .resume 0]
      (.imports "") (by decide)).2 [.resume 2, .resume 1]).1
  rw [hcallers, if_pos List.mem_cons_self] at hrefused
  exact ⟨hfirst, hsecond, hrefused⟩

/-- A disposed parser for a language without imports does not refuse to list them. -/
theorem disposed_parser_lists_no_imports :
    let engine : Engine := fun _ _ => none
    let r := Run.applyAll engine (Run.start ⟨Loader.fresh fun _ _ => .failure,
      LanguageParser.new .python .standard .fetched⟩) [.dispose]
    r.world.parser.disposed = true ∧
      (r.world.call? engine (.imports "import os\n")).2 = some (.ok (.texts [])) ∧
      ¬ ∀ q, (r.world.call? engine q).2 = some (.error .disposed) := by
  intro engine r
  refine ⟨rfl, rfl, ?_⟩
  intro hrefuses
  exact nomatch hrefuses (.imports "import os\n")

end CodeBlocks
