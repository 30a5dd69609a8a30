import CodeBlocks.Proofs.Parser.Invariant
import CodeBlocks.Proofs.Parser.Persistence
import CodeBlocks.Proofs.RecencyCache.Entries

/-! # The life of a parser — loaded, attached, disposed

    A call gives the parser up between its steps: while it waits for a
    load, and between attaching the grammar and parsing.  Disposal may
    come at each of these points.  The state stays orderly all the same:
    a disposed parser holds nothing and is never revived, the engine has a
    grammar only after the cell has one, and parsed documents are kept
    only by a parser that can parse.

    What carries it is what a suspended call relies on (`Phase.Backed`): a
    call that has the grammar came by a filled cell, and a call that is
    about to parse came by an attached engine or will find the parser
    disposed.  Others cannot take this away, since the cell stays filled
    and only disposal detaches.  So no call finds a live parser without an
    engine. -/

namespace CodeBlocks

theorem Error.map_ne_error {α β : Type} {f : α → β} {result : Except Error α} {e : Error}
    (h : result ≠ .error e) : result.map f ≠ .error e := by
  cases result with
  | ok a => exact nofun
  | error e' =>
      intro heq
      exact h (congrArg Except.error (Except.error.inj heq))

namespace LanguageParser

/-! ## What parsing can do -/

section Parsing

variable {engine : Engine} {p : LanguageParser}

theorem parse_error {text : String} {e : Error} (h : p.parse engine text = .error e) :
    p.disposed = true ∧ e = .disposed ∨
    p.disposed = false ∧ p.attached = none ∧ e = .grammar p.language .notAttached ∨
    e = .parseFailed p.language := by
  rw [parse] at h
  split at h
  · next hdisposed => exact .inl ⟨hdisposed, (Except.error.inj h).symm⟩
  · next hlive =>
      split at h
      · next hnone =>
          exact .inr (.inl ⟨Bool.eq_false_iff.mpr hlive, hnone, (Except.error.inj h).symm⟩)
      · split at h
        · cases h
        · exact .inr (.inr (Except.error.inj h).symm)

theorem attached_of_parse_ok {text : String} {tree : SyntaxTree}
    (h : p.parse engine text = .ok tree) : p.attached.isSome = true := by
  rw [parse] at h
  split at h
  · cases h
  · split at h
    · cases h
    · next hattached =>
        rw [hattached]
        rfl

end Parsing

/-! ## Orderly parsers -/

/-- What holds of a parser at every moment. -/
structure Orderly (p : LanguageParser) : Prop where
  released : p.disposed = true → p.attached = none ∧ p.trees.entries = []
  loaded : p.attached.isSome = true → p.grammar.isSome = true
  kept : p.trees.entries ≠ [] → p.attached.isSome = true

/-- Whoever parses finds an engine, or is told that the parser is disposed. -/
def Answerable (p : LanguageParser) : Prop := p.disposed = true ∨ p.attached.isSome = true

/-- What a suspended call can count on in a later state of the parser. -/
structure Follows (p p' : LanguageParser) : Prop where
  grammar : p.grammar.isSome = true → p'.grammar.isSome = true
  answerable : p.Answerable → p'.Answerable

theorem orderly_new (language : Language) (config : ParserConfig) (source : GrammarSource) :
    (new language config source).Orderly :=
  ⟨fun h => (nomatch h), fun h => (nomatch h), fun h => absurd rfl h⟩

theorem Follows.refl (p : LanguageParser) : p.Follows p := ⟨id, id⟩

theorem Orderly.dispose {p : LanguageParser} (h : p.Orderly) :
    p.dispose.Orderly ∧ p.Follows p.dispose := by
  rw [LanguageParser.dispose]
  split
  · exact ⟨h, .refl p⟩
  · refine ⟨⟨?_, ?_, ?_⟩, ⟨id, fun _ => .inl rfl⟩⟩
    · intro _
      exact ⟨rfl, rfl⟩
    · intro hattached
      cases hattached
    · intro hkept
      exact absurd rfl hkept

/-- Where parsing finds an engine, its failure is not for want of one. -/
theorem Answerable.parse_ne {engine : Engine} {p : LanguageParser} (h : p.Answerable)
    (text : String) (l : Language) :
    p.parse engine text ≠ .error (.grammar l .notAttached) := by
  intro herror
  rcases parse_error herror with ⟨-, heq⟩ | ⟨hlive, hnone, -⟩ | heq
  · cases heq
  · rcases h with hdisposed | hattached
    · rw [hlive] at hdisposed
      cases hdisposed
    · rw [hnone] at hattached
      cases hattached
  · cases heq

theorem Answerable.obtains_ne {engine : Engine} {p : LanguageParser} {d : Document}
    (h : p.Answerable) {result : Except Error SharedTree × LanguageParser}
    (hobtains : Obtains engine p d result) (l : Language) :
    result.1 ≠ .error (.grammar l .notAttached) := by
  cases hobtains with
  | refused _ => exact nofun
  | found _ _ => exact nofun
  | stored _ _ => exact nofun
  | failed _ herror =>
      intro heq
      exact h.parse_ne d.text l (herror.trans (congrArg Except.error (Except.error.inj heq)))

/-- Asking for a document keeps a parser orderly. -/
theorem Orderly.obtains {engine : Engine} {p : LanguageParser} {d : Document} (h : p.Orderly)
    {result : Except Error SharedTree × LanguageParser} (hobtains : Obtains engine p d result) :
    result.2.Orderly ∧ p.Follows result.2 := by
  cases hobtains with
  | refused _ => exact ⟨h, .refl p⟩
  | @found shared trees hlive hget =>
      -- who finds a document finds the store in use, and so the engine attached
      have hpeek : p.trees.peek? d.key = some shared := by
        rw [← RecencyCache.get?_fst, hget]
      have hattached : p.attached.isSome = true :=
        h.kept (List.ne_nil_of_mem (RecencyCache.mem_entries_of_peek? hpeek))
      refine ⟨⟨?_, h.loaded, fun _ => hattached⟩, ⟨id, id⟩⟩
      intro hdisposed
      rw [hlive] at hdisposed
      cases hdisposed
  | failed _ _ => exact ⟨h, .refl p⟩
  | stored hlive hok =>
      refine ⟨⟨?_, h.loaded, fun _ => attached_of_parse_ok hok⟩, ⟨id, id⟩⟩
      intro hdisposed
      rw [hlive] at hdisposed
      cases hdisposed

end LanguageParser

/-! ## One step of a call -/

/-- What a call in a phase relies on, and that it does not end for want of an engine. -/
def Phase.Backed (p : LanguageParser) : Phase → Prop
  | .loading outcome => ∀ l, outcome ≠ .error (.grammar l .notAttached)
  | .admitted _      => p.grammar.isSome = true
  | .prepared        => p.Answerable
  | .done result     => ∀ l, result ≠ .error (.grammar l .notAttached)
  | _                => True

theorem Phase.Backed.follows {p p' : LanguageParser} {phase : Phase} (h : phase.Backed p)
    (hfollows : p.Follows p') : phase.Backed p' := by
  cases phase with
  | admitted _ => exact hfollows.grammar h
  | prepared => exact hfollows.answerable h
  | loading _ => exact h
  | done _ => exact h
  | _ => exact trivial

theorem Loader.result_ne_notAttached (loader : Loader) (source : GrammarSource)
    (language l : Language) : loader.result source language ≠ .error (.grammar l .notAttached) := by
  cases source with
  | builtin => exact nofun
  | fetched =>
      rw [Loader.result]
      split <;> exact nofun

/-- A step that leaves the parser orderly, keeps what others rely on, and leaves its own call
    with what it relies on. -/
structure World.Advances (w : World) (next : World × Phase) : Prop where
  orderly : next.1.parser.Orderly
  follows : w.parser.Follows next.1.parser
  backed : next.2.Backed next.1.parser

namespace World

variable {engine : Engine} {w : World} (h : w.parser.Orderly)

include h

theorem advances_stay {phase : Phase} (hphase : phase.Backed w.parser) : w.Advances (w, phase) :=
  ⟨h, .refl _, hphase⟩

theorem advances_load (caller : Caller) : w.Advances (w.load caller) :=
  ⟨⟨h.released, h.loaded, h.kept⟩, ⟨id, id⟩, w.loader.result_ne_notAttached _ _⟩

theorem advances_enterCell (caller : Caller) : w.Advances (w.enterCell caller) := by
  rw [enterCell]
  split
  · next g hg => exact advances_stay h (Option.isSome_of_mem hg)
  · split
    · exact advances_load h caller
    · exact ⟨⟨h.released, h.loaded, h.kept⟩, ⟨id, id⟩, trivial⟩

theorem advances_keepWaiting (caller : Caller) : w.Advances (w.keepWaiting caller) := by
  rw [keepWaiting]
  split
  · next g hg => exact advances_stay h (Option.isSome_of_mem hg)
  · split
    · exact advances_load h caller
    · exact advances_stay h trivial

theorem advances_finishLoad {outcome : Except Error LoadedGrammar}
    (hphase : (Phase.loading outcome).Backed w.parser) : w.Advances (w.finishLoad outcome) := by
  cases outcome with
  | ok g => exact ⟨⟨h.released, fun _ => rfl, h.kept⟩, ⟨fun _ => rfl, id⟩, rfl⟩
  | error e =>
      refine ⟨⟨h.released, h.loaded, h.kept⟩, ⟨id, id⟩, ?_⟩
      intro l heq
      exact hphase l (congrArg Except.error (Except.error.inj heq))

/-- A live parser is attached to the grammar of the cell; a disposed one is left alone. -/
theorem advances_attach {g : LoadedGrammar} (hphase : (Phase.admitted g).Backed w.parser) :
    w.Advances (w.attach g) := by
  dsimp only [attach]
  split
  · exact advances_stay h nofun
  · next hlive =>
      split
      · next hattached => exact advances_stay h (.inr hattached)
      · split
        · -- only here is an engine attached: after the second look at `disposed`
          refine ⟨⟨?_, fun _ => hphase, fun _ => rfl⟩, ⟨id, fun _ => .inr rfl⟩, .inr rfl⟩
          intro hdisposed
          exact absurd hdisposed hlive
        · exact advances_stay h fun _ heq => nomatch heq

theorem advances_respond (q : Query) (hphase : Phase.prepared.Backed w.parser) :
    w.Advances (w.respond engine q) := by
  rw [respond]
  split
  · refine advances_stay h ?_
    intro l heq
    cases heq
  · next d _ =>
      have hobtains := LanguageParser.obtains_parseDocument engine w.parser d
      obtain ⟨horderly, hfollows⟩ := h.obtains hobtains
      exact ⟨horderly, hfollows, fun l => Error.map_ne_error (hphase.obtains_ne hobtains l)⟩
  · next text _ => exact advances_stay h fun l => Error.map_ne_error (hphase.parse_ne text l)

/-- **One step of a call keeps the parser orderly and every call backed.** -/
theorem advances_step (engine : Engine) (caller : Caller) (q : Query) {phase : Phase}
    (hphase : phase.Backed w.parser) : w.Advances (w.step engine caller q phase) := by
  cases phase with
  | entering =>
      simp only [step]
      split
      · refine advances_stay h ?_
        intro l heq
        cases heq
      · split
        · refine advances_stay h ?_
          intro l heq
          cases heq
        · exact advances_stay h trivial
  | atCell => exact advances_enterCell h caller
  | waiting => exact advances_keepWaiting h caller
  | loading outcome => exact advances_finishLoad h hphase
  | admitted g => exact advances_attach h hphase
  | prepared => exact advances_respond h q hphase
  | done result => exact advances_stay h hphase

end World

namespace Run

/-- What a step keeps, every run keeps. -/
theorem preserved_orderly (engine : Engine) :
    Preserved engine (fun _ => True) (fun w => w.parser.Orderly)
      (fun w _ _ phase => phase.Backed w.parser) where
  enter _ _ _ _ _ := trivial
  step _ caller q _ hw hphase :=
    have hstep := World.advances_step hw engine caller q hphase
    ⟨hstep.orderly, hstep.backed⟩
  others _ caller q _ hw hphase _ _ _ _ hother :=
    hother.follows (World.advances_step hw engine caller q hphase).follows
  dispose _ hw :=
    have hdispose := hw.dispose
    ⟨hdispose.1, fun _ _ _ hphase => hphase.follows hdispose.2⟩

end Run

/-- **The state of a parser is orderly at every moment of every run.**  Once it has been disposed
    it stays so, without an engine and without documents, whatever calls were suspended then and
    end later; an attached engine means that the cell is filled, and kept documents mean that the
    engine is attached.  So no call ends with the error that no grammar is attached. -/
theorem parser_state_is_orderly (engine : Engine) (language : Language) (config : ParserConfig)
    (source : GrammarSource) (loader : Loader) (events : List Event) :
    let run := Run.applyAll engine
      (Run.start ⟨loader, LanguageParser.new language config source⟩) events
    let p := run.world.parser
    (p.disposed = true ↔ .dispose ∈ events) ∧
    (p.disposed = true → p.attached = none ∧ p.trees.size = 0) ∧
    (p.attached.isSome = true → p.grammar.isSome = true) ∧
    (p.trees.size ≠ 0 → p.attached.isSome = true) ∧
    ∀ call ∈ run.calls, ∀ l, call.phase ≠ .done (.error (.grammar l .notAttached)) := by
  intro run p
  have hstart : Run.Upholds (fun w => w.parser.Orderly) (fun w _ _ phase => phase.Backed w.parser)
      (Run.start ⟨loader, LanguageParser.new language config source⟩) :=
    Run.upholds_start (LanguageParser.orderly_new language config source)
  have hrun := hstart.applyAll (Run.preserved_orderly engine) events fun _ _ => trivial
  refine ⟨?_, ?_, hrun.world.loaded, ?_, ?_⟩
  · rw [Run.disposed_applyAll]
    exact or_iff_right Bool.false_ne_true
  · intro hdisposed
    obtain ⟨hnone, hempty⟩ := hrun.world.released hdisposed
    exact ⟨hnone, congrArg List.length hempty⟩
  · intro hsize
    refine hrun.world.kept fun hempty => hsize ?_
    exact congrArg List.length hempty
  · intro call hcall l hphase
    obtain ⟨caller, hat⟩ := List.getElem?_of_mem hcall
    have hbacked := hrun.calls caller call hat
    rw [hphase] at hbacked
    exact hbacked l rfl

/-- A parser that is disposed while its grammar is fetched.  The fetch still fills the cell. -/
theorem orderly_when_disposed_in_load :
    let events : List Event := [.call .ready, .resume 0, .resume 0, .dispose, .resume 0, .resume 0]
    let run := Run.applyAll (fun _ _ => none) (Run.start ⟨Loader.fresh fun _ _ => .success true,
      LanguageParser.new .rust ⟨1, Binary64.one, 1⟩ .fetched⟩) events
    let p := run.world.parser
    p.grammar = some ⟨.rust, true⟩ ∧ p.disposed = true ∧ p.attached = none ∧ p.trees.size = 0 := by
  intro events run p
  obtain ⟨hdisposed, hreleased, -⟩ := parser_state_is_orderly (fun _ _ => none) .rust
    ⟨1, Binary64.one, 1⟩ .fetched (Loader.fresh fun _ _ => .success true) events
  have hgone : p.disposed = true := hdisposed.mpr (by decide)
  exact ⟨rfl, hgone, hreleased hgone⟩

end CodeBlocks
