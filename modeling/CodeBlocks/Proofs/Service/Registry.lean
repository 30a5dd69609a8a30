import CodeBlocks.Proofs.Service.Runs
import Mathlib.Data.List.Nodup

/-! # The registry of a service — one live entry for each language

    A parser is handed out as long as it is registered.  `WellKept` is
    what holds of the registry at every moment: each language is there
    once, under a parser that was made for it, and a parser that is not
    there has been disposed.

    Numbers are given out in rising order, and a parser that is no longer
    registered never is again.  So a language has the same parser at two
    moments exactly if its entry was not released between them. -/

namespace CodeBlocks

namespace ParserService

/-- What holds of a service with these settings at every moment. -/
structure WellKept (config : ParserConfig) (s : ParserService) : Prop where
  settings : s.config = config
  languages : (s.registered.map Prod.fst).Nodup
  parsers : ∀ language n, (language, n) ∈ s.registered →
    ∃ p, s.parser? n = some p ∧ p.language = language ∧ p.config = config
  released : ∀ n p, s.parser? n = some p → n ∉ s.registered.map Prod.snd → p.disposed = true

theorem wellKept_bare (config : ParserConfig) (source : GrammarSource) (loader : Loader) :
    (bare config source loader).WellKept config :=
  ⟨rfl, List.nodup_nil, fun _ _ hmem => (nomatch hmem), fun _ _ hp => (nomatch hp)⟩

namespace WellKept

variable {config : ParserConfig} {s : ParserService} (h : s.WellKept config)

include h

theorem number_unique {language : Language} {n m : Nat} (hn : (language, n) ∈ s.registered)
    (hm : (language, m) ∈ s.registered) : n = m :=
  congrArg Prod.snd (List.inj_on_of_nodup_map h.languages hn hm rfl)

theorem language_eq {language : Language} {n : Nat} {p : LanguageParser}
    (hmem : (language, n) ∈ s.registered) (hp : s.parser? n = some p) : p.language = language := by
  obtain ⟨q, hq, hlanguage, -⟩ := h.parsers language n hmem
  obtain rfl := Option.some.inj (hp.symm.trans hq)
  exact hlanguage

/-! ## What every operation keeps -/

/-- A registered parser is still one for its language later on. -/
theorem parsers_of_evolves {s' : ParserService} (hevolves : s.Evolves s') {language : Language}
    {n : Nat} (hmem : (language, n) ∈ s.registered) :
    ∃ p, s'.parser? n = some p ∧ p.language = language ∧ p.config = config := by
  obtain ⟨p, hp, hlanguage, hconfig⟩ := h.parsers language n hmem
  obtain ⟨p', hp', hpersists⟩ := hevolves.parsers n p hp
  exact ⟨p', hp', hpersists.language.trans hlanguage, hpersists.config.trans hconfig⟩

/-- Entries may go if the parsers that lose theirs are disposed. -/
theorem of_sublist {s' : ParserService} (hevolves : s.Evolves s')
    (hsublist : s'.registered.Sublist s.registered)
    (hreleased : ∀ n p, s'.parser? n = some p → n ∉ s'.registered.map Prod.snd →
      p.disposed = true) : s'.WellKept config := by
  refine ⟨hevolves.config.trans h.settings, h.languages.sublist (hsublist.map _), ?_, hreleased⟩
  intro language n hmem
  exact h.parsers_of_evolves hevolves (hsublist.subset hmem)

theorem enroll {language : Language} (hnew : language ∉ s.registered.map Prod.fst) :
    (s.enroll language).WellKept config := by
  refine ⟨h.settings, ?_, ?_, ?_⟩
  · show ((s.registered ++ [(language, s.parsers.size)]).map Prod.fst).Nodup
    rw [List.map_append]
    refine List.nodup_append.mpr ⟨h.languages, List.nodup_singleton _, ?_⟩
    rintro l hl l' hl' rfl
    obtain rfl : l = language := List.mem_singleton.mp hl'
    exact hnew hl
  · intro l n hmem
    rcases List.mem_append.mp hmem with hold | hlast
    · exact h.parsers_of_evolves (s.evolves_enroll language) hold
    · obtain ⟨rfl, rfl⟩ := Prod.mk.inj (List.mem_singleton.mp hlast)
      refine ⟨LanguageParser.new l s.config s.source, ?_, rfl, h.settings⟩
      rw [parser?_enroll, if_pos rfl]
  · intro n p hp hnot
    have hnot : n ∉ s.registered.map Prod.snd ∧ n ≠ s.parsers.size := by
      simpa [ParserService.enroll] using hnot
    rw [parser?_enroll, if_neg hnot.2] at hp
    exact h.released n p hp hnot.1

theorem release {language : Language} {n : Nat} (hmem : (language, n) ∈ s.registered) :
    (s.release language n).WellKept config := by
  refine h.of_sublist (s.evolves_release language n) List.filter_sublist ?_
  intro m p hp hnot
  by_cases hm : n = m
  · subst hm
    obtain ⟨q, -, rfl⟩ := Option.map_eq_some_iff.mp
      (((parser?_disposeParser _ n n).trans (if_pos rfl)).symm.trans hp)
    exact q.disposed_dispose
  · -- another parser without an entry had none before: only the entry of `n` is gone
    have hp : s.parser? m = some p :=
      ((parser?_disposeParser _ n m).trans (if_neg hm)).symm.trans hp
    refine h.released m p hp fun hold => hnot ?_
    obtain ⟨⟨l, m⟩, hentry, rfl⟩ := List.mem_map.mp hold
    refine List.mem_map.mpr ⟨(l, m), List.mem_filter.mpr ⟨hentry, ?_⟩, rfl⟩
    refine decide_eq_true ?_
    rintro rfl
    exact hm (h.number_unique hmem hentry)

theorem dispose : s.dispose.WellKept config := by
  refine h.of_sublist s.evolves_dispose (s.registered_dispose ▸ List.nil_sublist _) ?_
  intro n p hp _
  rw [parser?_dispose] at hp
  split at hp
  · obtain ⟨q, -, rfl⟩ := Option.map_eq_some_iff.mp hp
    exact q.disposed_dispose
  · next hnot => exact h.released n p hp hnot

theorem restore {id : Nat} {p : LanguageParser} (hp : s.parser? id = some p) {w : World}
    (hw : p.Persists w.parser) : (s.restore id w).WellKept config := by
  refine h.of_sublist (evolves_restore hp hw) (List.Sublist.refl _) ?_
  intro n q hq hnot
  rw [parser?_restore hp] at hq
  split at hq
  · next hn =>
      subst hn
      obtain rfl := Option.some.inj hq
      exact hw.disposed (h.released id p hp hnot)
  · exact h.released n q hq hnot

theorem creates {id : String} {result : Option Nat × ParserService}
    (hcreates : Creates s id result) : result.2.WellKept config := by
  cases hcreates with
  | unknown _ => exact h
  | found _ _ => exact h
  | made _ hnew => exact h.enroll hnew

theorem removes {id : String} {result : Bool × ParserService} (hremoves : Removes s id result) :
    result.2.WellKept config := by
  cases hremoves with
  | absent _ => exact h
  | released _ hmem => exact h.release hmem

end WellKept

/-! ## Whose entry stays -/

section Entries

variable {config : ParserConfig} {s : ParserService} {id : String} {language : Language} {n : Nat}

/-- Whoever asks by a known id gets a number that is registered. -/
theorem Creates.exists_registered {result : Option Nat × ParserService}
    (h : Creates s id result) (hid : Language.ofId? id = some language) :
    ∃ n, result.1 = some n ∧ (language, n) ∈ result.2.registered := by
  cases h with
  | unknown hnone => cases hid.symm.trans hnone
  | @found language' n hid' hmem =>
      obtain rfl := Option.some.inj (hid.symm.trans hid')
      exact ⟨n, rfl, hmem⟩
  | @made language' hid' _ =>
      obtain rfl := Option.some.inj (hid.symm.trans hid')
      exact ⟨_, rfl, List.mem_append_right _ List.mem_cons_self⟩

/-- A number that is given out is in use. -/
theorem Creates.exists_parser {result : Option Nat × ParserService} (h : Creates s id result)
    (hkept : s.WellKept config) (hn : result.1 = some n) : ∃ p, result.2.parser? n = some p := by
  cases h with
  | unknown _ => cases hn
  | found _ hmem =>
      obtain rfl := Option.some.inj hn
      obtain ⟨p, hp, -⟩ := hkept.parsers _ _ hmem
      exact ⟨p, hp⟩
  | made _ _ =>
      obtain rfl := Option.some.inj hn
      exact ⟨_, (parser?_enroll ..).trans (if_pos rfl)⟩

theorem Creates.mem_registered {result : Option Nat × ParserService} (h : Creates s id result)
    (hmem : (language, n) ∈ s.registered) : (language, n) ∈ result.2.registered := by
  cases h with
  | unknown _ => exact hmem
  | found _ _ => exact hmem
  | made _ _ => exact List.mem_append_left _ hmem

/-- A language that is registered is answered with its number. -/
theorem Creates.eq_registered {result : Option Nat × ParserService} (h : Creates s id result)
    (hkept : s.WellKept config) (hid : Language.ofId? id = some language)
    (hmem : (language, n) ∈ s.registered) : result.1 = some n := by
  obtain ⟨m, hm, hlast⟩ := h.exists_registered hid
  rw [hm, (hkept.creates h).number_unique (h.mem_registered hmem) hlast]

theorem Removes.mem_registered {result : Bool × ParserService} (h : Removes s id result)
    (hmem : (language, n) ∈ s.registered)
    (hnot : ¬ (Language.ofId? id = some language ∧ result.1 = true)) :
    (language, n) ∈ result.2.registered := by
  cases h with
  | absent _ => exact hmem
  | @released language' m hid _ =>
      refine List.mem_filter.mpr ⟨hmem, decide_eq_true ?_⟩
      rintro rfl
      exact hnot ⟨hid, rfl⟩

theorem Removes.sublist {result : Bool × ParserService} (h : Removes s id result) :
    result.2.registered.Sublist s.registered := by
  cases h with
  | absent _ => exact List.Sublist.refl _
  | released _ _ => exact List.filter_sublist

/-- A number in use without an entry is neither given out nor registered again: new ones are
    greater. -/
theorem Creates.not_registered {result : Option Nat × ParserService} (h : Creates s id result)
    {p : LanguageParser} (hp : s.parser? n = some p) (hnot : n ∉ s.registered.map Prod.snd) :
    result.1 ≠ some n ∧ n ∉ result.2.registered.map Prod.snd := by
  cases h with
  | unknown _ => exact ⟨nofun, hnot⟩
  | @found language' m _ hmem =>
      refine ⟨?_, hnot⟩
      intro heq
      obtain rfl := Option.some.inj heq
      exact hnot (List.mem_map_of_mem hmem)
  | made _ _ =>
      have hlt := lt_size_of_parser? hp
      refine ⟨?_, ?_⟩
      · intro heq
        exact Nat.ne_of_gt hlt (Option.some.inj heq)
      · simpa [ParserService.enroll, hnot] using Nat.ne_of_lt hlt

/-- A parser whose language is removed has no entry afterwards. -/
theorem Removes.not_registered {result : Bool × ParserService} (h : Removes s id result)
    (hkept : s.WellKept config) (hid : Language.ofId? id = some language)
    (htrue : result.1 = true) {p : LanguageParser} (hp : s.parser? n = some p)
    (hlanguage : p.language = language) : n ∉ result.2.registered.map Prod.snd := by
  cases h with
  | absent _ => cases htrue
  | @released language' m hid' _ =>
      obtain rfl := Option.some.inj (hid.symm.trans hid')
      intro hold
      obtain ⟨⟨l, n⟩, hentry, rfl⟩ := List.mem_map.mp hold
      obtain ⟨hmem, hne⟩ := List.mem_filter.mp hentry
      exact of_decide_eq_true hne ((hkept.language_eq hmem hp).symm.trans hlanguage)

theorem Removes.eq_true_iff {result : Bool × ParserService} (h : Removes s id result) :
    result.1 = true ↔
      ∃ language, Language.ofId? id = some language ∧ language ∈ s.registered.map Prod.fst := by
  cases h with
  | absent hnone =>
      refine iff_of_false Bool.false_ne_true ?_
      rintro ⟨language, hid, hmem⟩
      exact hnone language hid hmem
  | released hid hmem => exact iff_of_true rfl ⟨_, hid, List.mem_map_of_mem hmem⟩

end Entries

/-! ## The listing of languages -/

theorem activeLanguages_perm (s : ParserService) :
    s.activeLanguages.Perm (s.registered.map Prod.fst) :=
  List.mergeSort_perm ..

theorem pairwise_activeLanguages (s : ParserService) :
    s.activeLanguages.Pairwise fun a b => a.name ≤ b.name := by
  have htrans : ∀ a b c : Language, decide (a.name ≤ b.name) = true →
      decide (b.name ≤ c.name) = true → decide (a.name ≤ c.name) = true := by
    intro a b c hab hbc
    exact decide_eq_true (String.le_trans (of_decide_eq_true hab) (of_decide_eq_true hbc))
  have htotal : ∀ a b : Language,
      (decide (a.name ≤ b.name) || decide (b.name ≤ a.name)) = true := by
    intro a b
    simpa using String.le_total a.name b.name
  exact (List.pairwise_mergeSort htrans htotal _).imp of_decide_eq_true

end ParserService

/-! ## Along a run -/

namespace ServiceRun

open ParserService

variable {engine : Engine} {config : ParserConfig} {r : ServiceRun} {language : Language} {n : Nat}

/-- **Every event keeps the registry.** -/
theorem wellKept_apply (h : r.service.WellKept config) (event : ServiceEvent) :
    (r.apply engine event).service.WellKept config := by
  cases event with
  | create id => exact h.creates (r.service.creates_create? id)
  | remove id => exact h.removes (r.service.removes_remove id)
  | dispose => exact h.dispose
  | parser n event =>
      rcases r.apply_parser_cases engine n event with heq | ⟨p, w, hp, hpersists, heq⟩
      · rw [heq]
        exact h
      · rw [heq]
        exact h.restore hp hpersists

theorem wellKept_applyAll (h : r.service.WellKept config) (events : List ServiceEvent) :
    (r.applyAll engine events).service.WellKept config := by
  induction events generalizing r with
  | nil => exact h
  | cons event events ih => exact ih (wellKept_apply h event)

/-- The event releases the parser of a language: a removal that finds it, or disposal. -/
def Releases (r : ServiceRun) (language : Language) : ServiceEvent → Prop
  | .dispose   => True
  | .remove id => Language.ofId? id = some language ∧ (r.service.remove id).1 = true
  | _          => False

/-- The event hands out a parser. -/
def handsOut? (r : ServiceRun) : ServiceEvent → Option Nat
  | .create id => (r.service.create? id).1
  | _          => none

/-- The parsers handed out along a list of events. -/
def handedOut (engine : Engine) (r : ServiceRun) : List ServiceEvent → List Nat
  | [] => []
  | event :: events => (r.handsOut? event).toList ++ handedOut engine (r.apply engine event) events

theorem registered_apply_parser_event (engine : Engine) (r : ServiceRun) (n : Nat)
    (event : Event) :
    (r.apply engine (.parser n event)).service.registered = r.service.registered := by
  rcases r.apply_parser_cases engine n event with heq | ⟨p, w, -, -, heq⟩
  · rw [heq]
  · rw [heq]
    rfl

/-- An entry stays until it is released. -/
theorem registered_apply (hmem : (language, n) ∈ r.service.registered) {event : ServiceEvent}
    (hnot : ¬ r.Releases language event) :
    (language, n) ∈ (r.apply engine event).service.registered := by
  cases event with
  | create id => exact (r.service.creates_create? id).mem_registered hmem
  | remove id => exact (r.service.removes_remove id).mem_registered hmem hnot
  | dispose => exact absurd trivial hnot
  | parser m event => exact registered_apply_parser_event engine r m event ▸ hmem

theorem registered_applyAll (hmem : (language, n) ∈ r.service.registered)
    {events : List ServiceEvent}
    (hnone : ∀ before event after, events = before ++ event :: after →
      ¬ (r.applyAll engine before).Releases language event) :
    (language, n) ∈ (r.applyAll engine events).service.registered := by
  induction events generalizing r with
  | nil => exact hmem
  | cons event events ih =>
      refine ih (registered_apply hmem (hnone [] event events rfl)) ?_
      intro before event' after heq
      exact hnone (event :: before) event' after (by rw [heq]; rfl)

/-- A parser whose language is released has no entry afterwards. -/
theorem unregistered_of_releases (hkept : r.service.WellKept config) {p : LanguageParser}
    (hp : r.service.parser? n = some p) {event : ServiceEvent}
    (hreleases : r.Releases p.language event) :
    n ∉ (r.apply engine event).service.registered.map Prod.snd := by
  cases event with
  | create id => cases hreleases
  | remove id =>
      obtain ⟨hid, htrue⟩ := hreleases
      exact (r.service.removes_remove id).not_registered hkept hid htrue hp rfl
  | dispose =>
      show n ∉ r.service.dispose.registered.map Prod.snd
      simp [registered_dispose]
  | parser m event => cases hreleases

/-- A parser without an entry never has one again. -/
theorem unregistered_apply {p : LanguageParser} (hp : r.service.parser? n = some p)
    (hnot : n ∉ r.service.registered.map Prod.snd) (event : ServiceEvent) :
    n ∉ (r.apply engine event).service.registered.map Prod.snd := by
  cases event with
  | create id => exact ((r.service.creates_create? id).not_registered hp hnot).2
  | remove id =>
      intro hmem
      exact hnot (((r.service.removes_remove id).sublist.map Prod.snd).subset hmem)
  | dispose =>
      show n ∉ r.service.dispose.registered.map Prod.snd
      simp [registered_dispose]
  | parser m event => exact registered_apply_parser_event engine r m event ▸ hnot

theorem unregistered_applyAll {p : LanguageParser} (hp : r.service.parser? n = some p)
    (hnot : n ∉ r.service.registered.map Prod.snd) (events : List ServiceEvent) :
    n ∉ (r.applyAll engine events).service.registered.map Prod.snd := by
  induction events generalizing r p with
  | nil => exact hnot
  | cons event events ih =>
      obtain ⟨p', hp', -⟩ := (r.evolves_apply engine event).parsers n p hp
      exact ih hp' (unregistered_apply hp hnot event)

/-- What was handed out is in use to the end. -/
theorem exists_parser_of_mem_handedOut (hkept : r.service.WellKept config)
    {events : List ServiceEvent} (hmem : n ∈ r.handedOut engine events) :
    ∃ p, (r.applyAll engine events).service.parser? n = some p := by
  induction events generalizing r with
  | nil => cases hmem
  | cons event events ih =>
      rcases List.mem_append.mp hmem with hnow | hlater
      · have hhands : r.handsOut? event = some n := Option.mem_toList.mp hnow
        obtain ⟨p, hp⟩ : ∃ p, (r.apply engine event).service.parser? n = some p := by
          cases event with
          | create id =>
              have hcreates := r.service.creates_create? id
              exact hcreates.exists_parser hkept hhands
          | remove id => cases hhands
          | dispose => cases hhands
          | parser m event => cases hhands
        have hevolves := (r.apply engine event).evolves_applyAll engine events
        obtain ⟨p', hp', -⟩ := hevolves.parsers n p hp
        exact ⟨p', hp'⟩
      · exact ih (wellKept_apply hkept event) hlater

/-- A parser whose language is released along a run has no entry at its end. -/
theorem unregistered_of_released (hkept : r.service.WellKept config) {p : LanguageParser}
    (hp : r.service.parser? n = some p) {before : List ServiceEvent} {event : ServiceEvent}
    (hreleases : (r.applyAll engine before).Releases p.language event)
    (after : List ServiceEvent) :
    n ∉ (r.applyAll engine (before ++ event :: after)).service.registered.map Prod.snd := by
  obtain ⟨p', hp', hpersists⟩ := (r.evolves_applyAll engine before).parsers n p hp
  rw [← hpersists.language] at hreleases
  have hnot : n ∉ ((r.applyAll engine before).apply engine event).service.registered.map Prod.snd :=
    unregistered_of_releases (wellKept_applyAll hkept before) hp' hreleases
  obtain ⟨p'', hp'', -⟩ := ((r.applyAll engine before).evolves_apply engine event).parsers n p' hp'
  rw [applyAll_append, applyAll_cons]
  exact unregistered_applyAll hp'' hnot after

/-- **Two requests get the same parser exactly if they name the same language and its parser is
    not released between them.** -/
theorem same_parser_iff (hkept : r.service.WellKept config)
    (hmem : (language, n) ∈ r.service.registered) (events : List ServiceEvent) {id : String}
    {language' : Language} (hid : Language.ofId? id = some language') :
    ((r.applyAll engine events).service.create? id).1 = some n ↔
      language = language' ∧ ∀ before event after, events = before ++ event :: after →
        ¬ (r.applyAll engine before).Releases language event := by
  have hlater : (r.applyAll engine events).service.WellKept config :=
    wellKept_applyAll hkept events
  have hcreates := (r.applyAll engine events).service.creates_create? id
  constructor
  · intro hsame
    obtain ⟨p, hp, hlanguage, -⟩ := hkept.parsers language n hmem
    obtain ⟨p', hp', hpersists⟩ := (r.evolves_applyAll engine events).parsers n p hp
    refine ⟨?_, ?_⟩
    · -- the parser was made for one language, and is registered under the other
      obtain ⟨m, hm, hlast⟩ := hcreates.exists_registered hid
      obtain rfl := Option.some.inj (hsame.symm.trans hm)
      obtain ⟨p'', hp'', hpersists'⟩ := hcreates.evolves.parsers n p' hp'
      calc language = p.language := hlanguage.symm
        _ = p''.language := (hpersists.trans hpersists').language.symm
        _ = language' := (hlater.creates hcreates).language_eq hlast hp''
    · rintro before event after rfl hreleases
      have hnot := unregistered_of_released hkept hp (hlanguage ▸ hreleases) after
      exact (hcreates.not_registered hp' hnot).1 hsame
  · rintro ⟨rfl, hnone⟩
    exact hcreates.eq_registered hlater hid (registered_applyAll hmem hnone)

end ServiceRun

open ParserService in
/-- **The registry of a service.**  Whatever happens to a service and to the parsers it has handed
    out, at every moment

    * each language is registered at most once, under a parser for that language with the settings
      of the service;
    * every parser that was handed out and is not registered is disposed;
    * removing a language id finds a parser exactly if its language is registered;
    * the listing has the registered languages, each once, sorted by name;
    * known ids are answered with a parser, and two requests with the same one exactly if they
      name the same language and its parser was not released between them: by a removal that
      found it, or with all others. -/
theorem registry_is_well_kept (engine : Engine) (config : ParserConfig) (source : GrammarSource)
    (loader : Loader) (events : List ServiceEvent) :
    let start := ServiceRun.start (ParserService.bare config source loader)
    let r := start.applyAll engine events
    let s := r.service
    (s.registered.map Prod.fst).Nodup ∧
    (∀ language n, (language, n) ∈ s.registered →
      ∃ p, s.parser? n = some p ∧ p.language = language ∧ p.config = config) ∧
    s.config = config ∧
    (∀ n ∈ start.handedOut engine events, n ∉ s.registered.map Prod.snd →
      ∃ p, s.parser? n = some p ∧ p.disposed = true) ∧
    (∀ id, (s.remove id).1 = true ↔
      ∃ language, Language.ofId? id = some language ∧ language ∈ s.registered.map Prod.fst) ∧
    (s.activeLanguages.Nodup ∧ s.activeLanguages.Pairwise (fun a b => a.name ≤ b.name) ∧
      ∀ language, language ∈ s.activeLanguages ↔ language ∈ s.registered.map Prod.fst) ∧
    (∀ id language, Language.ofId? id = some language → ∃ n, (s.create? id).1 = some n ∧
      ∀ between id' language', Language.ofId? id' = some language' →
        let later := (r.apply engine (.create id)).applyAll engine
        ((later between).service.create? id').1.isSome = true ∧
        (((later between).service.create? id').1 = some n ↔
          language = language' ∧ ∀ before event after, between = before ++ event :: after →
            ¬ (later before).Releases language event)) := by
  intro start r s
  have hstart : start.service.WellKept config := wellKept_bare config source loader
  have hkept : s.WellKept config := ServiceRun.wellKept_applyAll hstart events
  refine ⟨hkept.languages, hkept.parsers, hkept.settings, ?_,
    fun id => (s.removes_remove id).eq_true_iff, ⟨?_, s.pairwise_activeLanguages, ?_⟩, ?_⟩
  · intro n hmem hnot
    obtain ⟨p, hp⟩ := ServiceRun.exists_parser_of_mem_handedOut hstart hmem
    exact ⟨p, hp, hkept.released n p hp hnot⟩
  · exact s.activeLanguages_perm.nodup_iff.mpr hkept.languages
  · intro language
    exact s.activeLanguages_perm.mem_iff
  · intro id language hid
    obtain ⟨n, hn, hmem⟩ := (s.creates_create? id).exists_registered hid
    refine ⟨n, hn, ?_⟩
    intro between id' language' hid' later
    obtain ⟨m, hm, -⟩ := ((later between).service.creates_create? id').exists_registered hid'
    refine ⟨Option.isSome_of_mem hm, ?_⟩
    have hnext : (r.apply engine (.create id)).service.WellKept config :=
      ServiceRun.wellKept_apply hkept (.create id)
    exact ServiceRun.same_parser_iff hnext hmem between hid'

/-- A holder has disposed a parser, and it is handed out all the same until it is removed. -/
theorem registry_is_well_kept_aliases :
    let engine : Engine := fun _ _ => none
    let loader := Loader.fresh fun _ _ => .failure
    let r := (ServiceRun.start (ParserService.bare .standard .fetched loader)).applyAll engine
      [.create "go", .create "tsx", .parser 1 .dispose]
    let later := (r.apply engine (.create "typescriptreact")).applyAll engine
    Language.ofId? "typescriptreact" = some .tsx ∧ Language.ofId? "TSX" = some .tsx ∧
      ((later [.parser 0 (.call .ready), .remove "js"]).service.create? "TSX").1 = some 1 ∧
      ((later [.remove "tsx"]).service.create? "TSX").1 ≠ some 1 := by
  intro engine loader r later
  have hid : Language.ofId? "typescriptreact" = some .tsx := by decide +kernel
  have hid' : Language.ofId? "TSX" = some .tsx := by decide +kernel
  obtain ⟨-, -, -, -, -, -, hcreate⟩ := registry_is_well_kept engine .standard .fetched loader
    [.create "go", .create "tsx", .parser 1 .dispose]
  obtain ⟨n, hn, hsame⟩ := hcreate "typescriptreact" .tsx hid
  obtain rfl : n = 1 := Option.some.inj (hn.symm.trans (by decide +kernel))
  refine ⟨hid, hid', ?_, ?_⟩
  · refine (hsame _ "TSX" .tsx hid').2.mpr ⟨rfl, ?_⟩
    intro before event after heq
    rcases before with _ | ⟨first, _ | ⟨second, rest⟩⟩
    · obtain ⟨rfl, -⟩ := List.cons.inj heq
      exact id
    · obtain ⟨rfl, -⟩ := List.cons.inj (List.cons.inj heq).2
      rintro ⟨hjs, -⟩
      exact absurd hjs (by decide +kernel)
    · exact absurd (List.cons.inj (List.cons.inj heq).2).2.symm (by simp)
  · intro hagain
    obtain ⟨-, hnone⟩ := (hsame [.remove "tsx"] "TSX" .tsx hid').2.mp hagain
    exact hnone [] (.remove "tsx") [] rfl ⟨by decide +kernel, by decide +kernel⟩

end CodeBlocks
