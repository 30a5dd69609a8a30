import CodeBlocks.Service
import CodeBlocks.Proofs.Parser.Persistence

/-! # Runs of a service — parsers made, used, removed and disposed

    A run of a service is the service with the calls made on each of its
    parsers.  Its events are those of the service, and those of any
    parser it has handed out: a new call, one step of a call, disposal.
    So calls may be suspended while the service goes on, and a holder may
    dispose a parser behind the back of the service.

    What a parser was made for, and that it was disposed, no event takes
    from it (`LanguageParser.Persists`); so every parser of a service goes
    on as the same parser (`Evolves`).  `Creates` and `Removes` say once
    what the two operations of the registry can do. -/

namespace CodeBlocks

namespace ParserService

/-! ## What the operations can do -/

/-- The later state of a service: every parser is still there. -/
structure Evolves (s s' : ParserService) : Prop where
  config : s'.config = s.config
  parsers : ∀ n p, s.parser? n = some p → ∃ p', s'.parser? n = some p' ∧ p.Persists p'

theorem Evolves.refl (s : ParserService) : s.Evolves s :=
  ⟨rfl, fun _ p hp => ⟨p, hp, .refl p⟩⟩

theorem Evolves.trans {s s' s'' : ParserService} (h : s.Evolves s') (h' : s'.Evolves s'') :
    s.Evolves s'' := by
  refine ⟨h'.config.trans h.config, ?_⟩
  intro n p hp
  obtain ⟨p', hp', hfirst⟩ := h.parsers n p hp
  obtain ⟨p'', hp'', hsecond⟩ := h'.parsers n p' hp'
  exact ⟨p'', hp'', hfirst.trans hsecond⟩

/-- A service with a new registered parser. -/
def enroll (s : ParserService) (language : Language) : ParserService :=
  { s with
    parsers := s.parsers.push (LanguageParser.new language s.config s.source)
    registered := s.registered ++ [(language, s.parsers.size)] }

/-- A service that has forgotten the parser of a language and disposed it. -/
def release (s : ParserService) (language : Language) (n : Nat) : ParserService :=
  { s with registered := s.registered.filter fun entry => entry.1 ≠ language }.disposeParser n

/-- All that asking for a parser can do. -/
inductive Creates (s : ParserService) (id : String) : Option Nat × ParserService → Prop where
  | unknown : Language.ofId? id = none → Creates s id (none, s)
  | found {language : Language} {n : Nat} : Language.ofId? id = some language →
      (language, n) ∈ s.registered → Creates s id (some n, s)
  | made {language : Language} : Language.ofId? id = some language →
      language ∉ s.registered.map Prod.fst →
      Creates s id (some s.parsers.size, s.enroll language)

/-- All that removing a parser can do. -/
inductive Removes (s : ParserService) (id : String) : Bool × ParserService → Prop where
  | absent : (∀ language, Language.ofId? id = some language →
      language ∉ s.registered.map Prod.fst) → Removes s id (false, s)
  | released {language : Language} {n : Nat} : Language.ofId? id = some language →
      (language, n) ∈ s.registered → Removes s id (true, s.release language n)

theorem mem_of_lookup_eq_some {entries : List (Language × Nat)} {language : Language} {n : Nat}
    (h : entries.lookup language = some n) : (language, n) ∈ entries := by
  obtain ⟨front, back, rfl, -⟩ := List.lookup_eq_some_iff.mp h
  exact List.mem_append_right front List.mem_cons_self

theorem not_mem_of_lookup_eq_none {entries : List (Language × Nat)} {language : Language}
    (h : entries.lookup language = none) : language ∉ entries.map Prod.fst := by
  intro hmem
  obtain ⟨entry, hentry, rfl⟩ := List.mem_map.mp hmem
  simpa using List.lookup_eq_none_iff.mp h entry hentry

theorem creates_create? (s : ParserService) (id : String) : Creates s id (s.create? id) := by
  rw [create?]
  cases hid : Language.ofId? id with
  | none => exact .unknown hid
  | some language =>
      dsimp only [parserOf]
      cases hlookup : s.registered.lookup language with
      | some n => exact .found hid (mem_of_lookup_eq_some hlookup)
      | none => exact .made hid (not_mem_of_lookup_eq_none hlookup)

theorem removes_remove (s : ParserService) (id : String) : Removes s id (s.remove id) := by
  rw [remove]
  cases hid : Language.ofId? id with
  | none =>
      refine .absent ?_
      intro language heq
      cases hid.symm.trans heq
  | some language =>
      dsimp only
      cases hlookup : s.registered.lookup language with
      | some n => exact .released hid (mem_of_lookup_eq_some hlookup)
      | none =>
          refine .absent ?_
          intro language' heq
          obtain rfl := Option.some.inj (hid.symm.trans heq)
          exact not_mem_of_lookup_eq_none hlookup

/-! ## The parsers after an operation -/

theorem lt_size_of_parser? {s : ParserService} {n : Nat} {p : LanguageParser}
    (h : s.parser? n = some p) : n < s.parsers.size :=
  (Array.getElem?_eq_some_iff.mp h).1

theorem parser?_enroll (s : ParserService) (language : Language) (n : Nat) :
    (s.enroll language).parser? n
      = if n = s.parsers.size then some (LanguageParser.new language s.config s.source)
        else s.parser? n :=
  Array.getElem?_push

theorem parser?_disposeParser (s : ParserService) (id n : Nat) :
    (s.disposeParser id).parser? n
      = if id = n then (s.parser? n).map LanguageParser.dispose else s.parser? n :=
  Array.getElem?_modify

theorem parser?_disposeAll (entries : List (Language × Nat)) (s : ParserService) (n : Nat) :
    (entries.foldl (fun s entry => s.disposeParser entry.2) s).parser? n
      = if n ∈ entries.map Prod.snd then (s.parser? n).map LanguageParser.dispose
        else s.parser? n := by
  induction entries generalizing s with
  | nil => exact (if_neg List.not_mem_nil).symm
  | cons entry entries ih =>
      rw [List.foldl_cons, ih, parser?_disposeParser, List.map_cons]
      by_cases hfirst : entry.2 = n
      · subst hfirst
        rw [if_pos rfl, if_pos List.mem_cons_self]
        -- a parser that is listed again is disposed once more, and stays as it is
        split
        · cases s.parser? entry.2 with
          | none => rfl
          | some p => exact congrArg some p.dispose_dispose
        · rfl
      · rw [if_neg hfirst]
        simp only [List.mem_cons, Ne.symm hfirst, false_or]

theorem disposeAll_eq (entries : List (Language × Nat)) (s : ParserService) :
    (entries.foldl (fun s entry => s.disposeParser entry.2) s).registered = s.registered ∧
      (entries.foldl (fun s entry => s.disposeParser entry.2) s).config = s.config := by
  induction entries generalizing s with
  | nil => exact ⟨rfl, rfl⟩
  | cons entry entries ih => exact ih (s.disposeParser entry.2)

/-- Disposing the service disposes the parsers that were registered, and no others. -/
theorem parser?_dispose (s : ParserService) (n : Nat) :
    s.dispose.parser? n
      = if n ∈ s.registered.map Prod.snd then (s.parser? n).map LanguageParser.dispose
        else s.parser? n :=
  parser?_disposeAll s.registered { s with registered := [] } n

theorem registered_dispose (s : ParserService) : s.dispose.registered = [] :=
  (disposeAll_eq s.registered { s with registered := [] }).1

theorem parser?_restore {s : ParserService} {id : Nat} {p : LanguageParser}
    (h : s.parser? id = some p) (w : World) (n : Nat) :
    (s.restore id w).parser? n = if id = n then some w.parser else s.parser? n := by
  show (s.parsers.setIfInBounds id w.parser)[n]? = _
  rw [Array.getElem?_setIfInBounds, if_pos (lt_size_of_parser? h)]
  rfl

theorem evolves_enroll (s : ParserService) (language : Language) :
    s.Evolves (s.enroll language) := by
  refine ⟨rfl, ?_⟩
  intro n p hp
  refine ⟨p, ?_, .refl p⟩
  rw [parser?_enroll, if_neg (Nat.ne_of_lt (lt_size_of_parser? hp))]
  exact hp

/-- Parsers that are disposed or left alone go on. -/
theorem Evolves.of_dispose {s s' : ParserService} (hconfig : s'.config = s.config)
    {gone : Nat → Prop} [DecidablePred gone]
    (h : ∀ n, s'.parser? n
      = if gone n then (s.parser? n).map LanguageParser.dispose else s.parser? n) :
    s.Evolves s' := by
  refine ⟨hconfig, ?_⟩
  intro n p hp
  rw [h, hp]
  by_cases hgone : gone n
  · exact ⟨p.dispose, if_pos hgone, p.persists_dispose⟩
  · exact ⟨p, if_neg hgone, .refl p⟩

theorem evolves_release (s : ParserService) (language : Language) (n : Nat) :
    s.Evolves (s.release language n) :=
  .of_dispose rfl (parser?_disposeParser { s with registered := _ } n)

theorem evolves_dispose (s : ParserService) : s.Evolves s.dispose :=
  .of_dispose (disposeAll_eq s.registered { s with registered := [] }).2 s.parser?_dispose

theorem Creates.evolves {s : ParserService} {id : String} {result : Option Nat × ParserService}
    (h : Creates s id result) : s.Evolves result.2 := by
  cases h with
  | unknown _ => exact .refl s
  | found _ _ => exact .refl s
  | made _ _ => exact s.evolves_enroll _

theorem Removes.evolves {s : ParserService} {id : String} {result : Bool × ParserService}
    (h : Removes s id result) : s.Evolves result.2 := by
  cases h with
  | absent _ => exact .refl s
  | released _ _ => exact s.evolves_release _ _

theorem evolves_restore {s : ParserService} {id : Nat} {p : LanguageParser}
    (h : s.parser? id = some p) {w : World} (hw : p.Persists w.parser) :
    s.Evolves (s.restore id w) := by
  refine ⟨rfl, ?_⟩
  intro n q hq
  rw [parser?_restore h]
  by_cases hn : id = n
  · subst hn
    obtain rfl := Option.some.inj (h.symm.trans hq)
    exact ⟨w.parser, if_pos rfl, hw⟩
  · exact ⟨q, (if_neg hn).trans hq, .refl q⟩

end ParserService

/-! ## Runs -/

/-- What can happen next to a service and its parsers. -/
inductive ServiceEvent where
  /-- Someone asks for the parser of a language id. -/
  | create (id : String)
  | remove (id : String)
  /-- The service disposes all its parsers. -/
  | dispose
  /-- Something happens to a parser that was handed out. -/
  | parser (n : Nat) (event : Event)

/-- A service with the calls made on each of its parsers. -/
structure ServiceRun where
  service : ParserService
  calls : Nat → List Call

namespace ServiceRun

/-- A run before the first event. -/
def start (s : ParserService) : ServiceRun := ⟨s, fun _ => []⟩

/-- A parser of the service with the calls made on it. -/
def parserRun? (r : ServiceRun) (n : Nat) : Option Run :=
  (r.service.world? n).map fun w => ⟨w, r.calls n⟩

/-- What an event does; nothing can happen to a parser that there is not. -/
def apply (engine : Engine) (r : ServiceRun) : ServiceEvent → ServiceRun
  | .create id => { r with service := (r.service.create? id).2 }
  | .remove id => { r with service := (r.service.remove id).2 }
  | .dispose   => { r with service := r.service.dispose }
  | .parser n event =>
      match r.parserRun? n with
      | none => r
      | some run =>
          let next := run.apply engine event
          ⟨r.service.restore n next.world, fun m => if m = n then next.calls else r.calls m⟩

/-- What a list of events does. -/
def applyAll (engine : Engine) (r : ServiceRun) (events : List ServiceEvent) : ServiceRun :=
  events.foldl (apply engine) r

theorem applyAll_cons (engine : Engine) (r : ServiceRun) (event : ServiceEvent)
    (events : List ServiceEvent) :
    r.applyAll engine (event :: events) = (r.apply engine event).applyAll engine events := rfl

theorem applyAll_append (engine : Engine) (r : ServiceRun) (events later : List ServiceEvent) :
    r.applyAll engine (events ++ later) = (r.applyAll engine events).applyAll engine later :=
  List.foldl_append ..

/-- An event of a parser changes this parser and no other part of the service that is asked for
    parsers. -/
theorem apply_parser_cases (engine : Engine) (r : ServiceRun) (n : Nat) (event : Event) :
    (r.apply engine (.parser n event)).service = r.service ∨
    ∃ p w, r.service.parser? n = some p ∧ p.Persists w.parser ∧
      (r.apply engine (.parser n event)).service = r.service.restore n w := by
  rw [apply, parserRun?, ParserService.world?]
  cases hp : r.service.parser? n with
  | none => exact .inl rfl
  | some p =>
      have hpersists := Run.persists_apply engine ⟨⟨r.service.loader, p⟩, r.calls n⟩ event
      exact .inr ⟨p, _, rfl, hpersists, rfl⟩

/-- **Every event leaves every parser the same parser.** -/
theorem evolves_apply (engine : Engine) (r : ServiceRun) (event : ServiceEvent) :
    r.service.Evolves (r.apply engine event).service := by
  cases event with
  | create id => exact (r.service.creates_create? id).evolves
  | remove id => exact (r.service.removes_remove id).evolves
  | dispose => exact r.service.evolves_dispose
  | parser n event =>
      rcases r.apply_parser_cases engine n event with heq | ⟨p, w, hp, hpersists, heq⟩
      · rw [heq]
        exact .refl _
      · rw [heq]
        exact ParserService.evolves_restore hp hpersists

theorem evolves_applyAll (engine : Engine) (r : ServiceRun) (events : List ServiceEvent) :
    r.service.Evolves (r.applyAll engine events).service := by
  induction events generalizing r with
  | nil => exact .refl _
  | cons event events ih => exact (r.evolves_apply engine event).trans (ih _)

end ServiceRun

end CodeBlocks
