import CodeBlocks.Proofs.Service.Registry
import Mathlib.Data.List.Induction

/-! # Live and dead entries — a registered parser is disposed only by a holder

    The service disposes a parser only when it forgets it.  So a parser
    that is registered is live, unless someone who holds it has disposed
    it: the registry does not look at that, keeps the entry and goes on
    handing the parser out.

    `DisposedByHolder` is this one way to a dead entry, read off the events
    of a run.  One event is looked at first (`disposed_apply_iff`), then
    runs, from their last event backward. -/

namespace CodeBlocks

namespace ParserService

variable {config : ParserConfig} {s : ParserService} {id : String} {n : Nat}

/-- Asking for a parser disposes none, and a new one is live. -/
theorem Creates.disposed_iff {result : Option Nat × ParserService} (h : Creates s id result)
    {p' : LanguageParser} (hp' : result.2.parser? n = some p') :
    p'.disposed = true ↔ ∃ p, s.parser? n = some p ∧ p.disposed = true := by
  have hsame : s.parser? n = some p' →
      (p'.disposed = true ↔ ∃ p, s.parser? n = some p ∧ p.disposed = true) := by
    intro hp
    simp [hp]
  cases h with
  | unknown _ => exact hsame hp'
  | found _ _ => exact hsame hp'
  | made _ _ =>
      rw [parser?_enroll] at hp'
      split at hp'
      · next hn =>
          obtain rfl := Option.some.inj hp'
          refine iff_of_false Bool.false_ne_true ?_
          rintro ⟨p, hp, -⟩
          exact Nat.ne_of_lt (lt_size_of_parser? hp) hn
      · exact hsame hp'

/-- Removing a parser leaves those that stay registered as they are. -/
theorem Removes.parser?_eq {result : Bool × ParserService} (h : Removes s id result)
    (hkept : s.WellKept config) (hreg : n ∈ result.2.registered.map Prod.snd) :
    result.2.parser? n = s.parser? n := by
  cases h with
  | absent _ => rfl
  | @released language m _ hmem =>
      have hne : m ≠ n := by
        rintro rfl
        obtain ⟨⟨l, m⟩, hentry, rfl⟩ := List.mem_map.mp hreg
        obtain ⟨hold, hother⟩ := List.mem_filter.mp hentry
        -- both entries are of the parser's own language
        obtain ⟨p, hp, hlanguage, -⟩ := hkept.parsers language m hmem
        exact of_decide_eq_true hother ((hkept.language_eq hold hp).symm.trans hlanguage)
      exact (parser?_disposeParser _ m n).trans (if_neg hne)

end ParserService

namespace ServiceRun

open ParserService

variable {engine : Engine} {config : ParserConfig} {r : ServiceRun} {n : Nat}

/-- What an event of a parser does to a parser: it is changed if it is the one. -/
theorem parser?_apply_event (engine : Engine) (r : ServiceRun) (m n : Nat) (event : Event) :
    (r.apply engine (.parser m event)).service.parser? n
      = if m = n then (r.parserRun? n).map fun run => (run.apply engine event).world.parser
        else r.service.parser? n := by
  rw [apply, parserRun?, parserRun?, world?, world?]
  by_cases hn : m = n
  · subst hn
    rw [if_pos rfl]
    cases hp : r.service.parser? m with
    | none => exact hp
    | some p => exact (parser?_restore hp _ m).trans (if_pos rfl)
  · rw [if_neg hn]
    cases hp : r.service.parser? m with
    | none => rfl
    | some p => exact (parser?_restore hp _ n).trans (if_neg hn)

/-- **One event.**  A parser that is registered afterwards is disposed exactly if it was before, or
    if the event is a holder's disposal of it. -/
theorem disposed_apply_iff (hkept : r.service.WellKept config) {event : ServiceEvent}
    (hreg : n ∈ (r.apply engine event).service.registered.map Prod.snd) {p' : LanguageParser}
    (hp' : (r.apply engine event).service.parser? n = some p') :
    p'.disposed = true ↔
      (∃ p, r.service.parser? n = some p ∧ p.disposed = true) ∨
      event = .parser n .dispose ∧ (r.service.parser? n).isSome = true := by
  cases event with
  | create id => simpa using (r.service.creates_create? id).disposed_iff hp'
  | remove id =>
      have heq := (r.service.removes_remove id).parser?_eq hkept hreg
      have hp : r.service.parser? n = some p' := heq.symm.trans hp'
      simp [hp]
  | dispose =>
      have hnone : (r.apply engine .dispose).service.registered = [] := registered_dispose _
      rw [hnone] at hreg
      cases hreg
  | parser m event =>
      rw [parser?_apply_event] at hp'
      split at hp'
      · next hn =>
          subst hn
          obtain ⟨run, hrun, rfl⟩ := Option.map_eq_some_iff.mp hp'
          obtain ⟨w, hw, rfl⟩ := Option.map_eq_some_iff.mp hrun
          obtain ⟨p, hp, rfl⟩ := Option.map_eq_some_iff.mp hw
          rw [Run.disposed_apply]
          simp [hp]
      · next hn => simp [hp', hn]

/-- A holder has disposed a parser along the events, at a moment when it was there. -/
def DisposedByHolder (engine : Engine) (r : ServiceRun) (events : List ServiceEvent) (n : Nat) :
    Prop :=
  ∃ before after, events = before ++ .parser n .dispose :: after ∧
    ((r.applyAll engine before).service.parser? n).isSome = true

/-- A parser that was there is there at the end. -/
theorem DisposedByHolder.exists_parser {events : List ServiceEvent}
    (h : r.DisposedByHolder engine events n) :
    ∃ p, (r.applyAll engine events).service.parser? n = some p := by
  obtain ⟨before, after, rfl, hthere⟩ := h
  obtain ⟨p, hp⟩ := Option.isSome_iff_exists.mp hthere
  have hevolves := (r.applyAll engine before).evolves_applyAll engine (.parser n .dispose :: after)
  obtain ⟨p', hp', -⟩ := hevolves.parsers n p hp
  rw [applyAll_append]
  exact ⟨p', hp'⟩

theorem disposedByHolder_concat {events : List ServiceEvent} {event : ServiceEvent} :
    r.DisposedByHolder engine (events ++ [event]) n ↔
      r.DisposedByHolder engine events n ∨
      event = .parser n .dispose ∧ ((r.applyAll engine events).service.parser? n).isSome = true := by
  constructor
  · rintro ⟨before, after, heq, hthere⟩
    rcases List.eq_nil_or_concat' after with rfl | ⟨front, last, rfl⟩
    · obtain ⟨rfl, hlast⟩ := List.append_inj' heq rfl
      exact .inr ⟨List.singleton_inj.mp hlast, hthere⟩
    · rw [← List.cons_append, ← List.append_assoc] at heq
      obtain ⟨rfl, -⟩ := List.append_inj' heq rfl
      exact .inl ⟨before, front, rfl, hthere⟩
  · rintro (⟨before, after, rfl, hthere⟩ | ⟨rfl, hthere⟩)
    · exact ⟨before, after ++ [event], by simp, hthere⟩
    · exact ⟨events, [], rfl, hthere⟩

/-- **Every run.**  Without entries at its start, a parser that is registered at its end is
    disposed exactly if a holder has disposed it. -/
theorem disposed_iff_disposedByHolder (hkept : r.service.WellKept config)
    (hempty : r.service.registered = []) (events : List ServiceEvent) {p : LanguageParser}
    (hreg : n ∈ (r.applyAll engine events).service.registered.map Prod.snd)
    (hp : (r.applyAll engine events).service.parser? n = some p) :
    p.disposed = true ↔ r.DisposedByHolder engine events n := by
  induction events using List.reverseRecOn generalizing p with
  | nil =>
      have hreg : n ∈ r.service.registered.map Prod.snd := hreg
      simp [hempty] at hreg
  | append_singleton events event ih =>
      rw [applyAll_append] at hreg hp
      rw [disposedByHolder_concat, disposed_apply_iff (wellKept_applyAll hkept events) hreg hp]
      refine or_congr_left ?_
      -- what was there and is registered now was registered before
      have hbefore : ∀ q, (r.applyAll engine events).service.parser? n = some q →
          (q.disposed = true ↔ r.DisposedByHolder engine events n) := by
        intro q hq
        refine ih ?_ hq
        by_contra hnot
        exact unregistered_apply hq hnot event hreg
      constructor
      · rintro ⟨q, hq, hdisposed⟩
        exact (hbefore q hq).mp hdisposed
      · intro hholder
        obtain ⟨q, hq⟩ := hholder.exists_parser
        exact ⟨q, hq, (hbefore q hq).mpr hholder⟩

end ServiceRun

open ParserService in
/-- **An active language has a live parser, and a request gets a live one, unless a holder has
    disposed it.**  Whatever happens to a service and to the parsers it has handed out: of each
    listed language there is a registered parser, and of each known id one is handed out; it is
    live exactly if no holder has disposed it. -/
theorem parser_is_live_unless_disposed_by_holder (engine : Engine) (config : ParserConfig)
    (source : GrammarSource) (loader : Loader) (events : List ServiceEvent) :
    let start := ServiceRun.start (ParserService.bare config source loader)
    let s := (start.applyAll engine events).service
    (∀ language ∈ s.activeLanguages,
      ∃ n p, (language, n) ∈ s.registered ∧ s.parser? n = some p ∧
        (p.disposed = false ↔ ¬ start.DisposedByHolder engine events n)) ∧
    (∀ id language, Language.ofId? id = some language →
      ∃ n p, (s.create? id).1 = some n ∧ (s.create? id).2.parser? n = some p ∧
        (p.disposed = false ↔ ¬ start.DisposedByHolder engine events n)) := by
  intro start s
  have hstart : start.service.WellKept config := wellKept_bare config source loader
  have hkept : s.WellKept config := ServiceRun.wellKept_applyAll hstart events
  constructor
  · intro language hactive
    have hregistered : language ∈ s.registered.map Prod.fst :=
      s.activeLanguages_perm.mem_iff.mp hactive
    obtain ⟨⟨language, n⟩, hmem, rfl⟩ := List.mem_map.mp hregistered
    obtain ⟨p, hp, -⟩ := hkept.parsers language n hmem
    refine ⟨n, p, hmem, hp, ?_⟩
    rw [← Bool.not_eq_true, ServiceRun.disposed_iff_disposedByHolder hstart rfl events
      (List.mem_map_of_mem hmem) hp]
  · intro id language hid
    have hcreates := s.creates_create? id
    obtain ⟨n, hn, hmem⟩ := hcreates.exists_registered hid
    obtain ⟨p, hp⟩ := hcreates.exists_parser hkept hn
    refine ⟨n, p, hn, hp, ?_⟩
    -- the request is one more event, and no disposal
    have hnext : (start.applyAll engine (events ++ [.create id])).service = (s.create? id).2 :=
      congrArg ServiceRun.service (start.applyAll_append engine events [.create id])
    have hholder : p.disposed = true ↔
        start.DisposedByHolder engine (events ++ [.create id]) n := by
      refine ServiceRun.disposed_iff_disposedByHolder hstart rfl _ ?_ ?_
      · rw [hnext]
        exact List.mem_map_of_mem hmem
      · rw [hnext]
        exact hp
    rw [← Bool.not_eq_true, hholder, ServiceRun.disposedByHolder_concat]
    simp

/-- A holder has disposed the first parser for a language; after its removal the next one is
    live. -/
theorem parser_is_live_after_removal :
    let engine : Engine := fun _ _ => none
    let loader := Loader.fresh fun _ _ => .failure
    let start := ServiceRun.start (ParserService.bare .standard .fetched loader)
    let s := (start.applyAll engine [.create "go", .parser 0 .dispose, .remove "go"]).service
    ∃ p, (s.create? "golang").1 = some 1 ∧ (s.create? "golang").2.parser? 1 = some p ∧
      p.disposed = false := by
  intro engine loader start s
  obtain ⟨-, hcreate⟩ := parser_is_live_unless_disposed_by_holder engine .standard .fetched loader
    [.create "go", .parser 0 .dispose, .remove "go"]
  obtain ⟨n, p, hn, hp, hlive⟩ := hcreate "golang" .go (by decide +kernel)
  obtain rfl : n = 1 := Option.some.inj (hn.symm.trans (by decide +kernel))
  refine ⟨p, hn, hp, hlive.mpr ?_⟩
  rintro ⟨before, after, heq, -⟩
  have hmem : ServiceEvent.parser 1 .dispose ∈ before ++ .parser 1 .dispose :: after :=
    List.mem_append_right before List.mem_cons_self
  rw [← heq] at hmem
  simp at hmem

/-- A parser that its holder has disposed stays listed, and the next request gets it. -/
theorem dead_parser_is_handed_out :
    let engine : Engine := fun _ _ => none
    let loader := Loader.fresh fun _ _ => .failure
    let start := ServiceRun.start (ParserService.bare .standard .fetched loader)
    let s := (start.applyAll engine [.create "go", .parser 0 .dispose]).service
    s.activeLanguages = [.go] ∧ s.registered = [(.go, 0)] ∧
      (s.parser? 0).map LanguageParser.disposed = some true ∧
      (s.create? "golang").1 = some 0 ∧
      ((s.create? "golang").2.parser? 0).map LanguageParser.disposed = some true := by
  decide +kernel

end CodeBlocks
