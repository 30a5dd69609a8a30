import CodeBlocks.Proofs.Parser.Deliveries
import CodeBlocks.Proofs.Parser.Loads
import CodeBlocks.Proofs.RecencyCache.Latest

/-! # Hits — which documents are found and which are parsed again

    `Run.deliveries` lists the trees that a run has delivered, each under
    the key of its document, in the order in which the calls were given
    them.  Calls that fail are not in it, and neither are questions about
    plain texts.

    A parser of ratio one keeps the trees of the keys delivered last, as
    many as its capacity allows (`LanguageParser.Stocks`), and every
    delivery keeps it so.  A call about a document is then decided by the
    list alone: it is given the tree of the last delivery under its key
    if fewer other keys than the capacity were delivered since
    (`RecentDelivery`), and otherwise the engine parses its text. -/

namespace CodeBlocks

namespace Run

/-- The tree that an event delivers, under the key of its document. -/
def delivery? (engine : Engine) (r : Run) : Event → Option (String × SharedTree)
  | .resume caller =>
      (r.calls[caller]?).bind fun call => r.world.delivery? engine call.query call.phase
  | _ => none

/-- The trees that are delivered along a list of events. -/
def deliveries (engine : Engine) (r : Run) : List Event → List (String × SharedTree)
  | [] => []
  | event :: events =>
      (r.delivery? engine event).toList ++ (r.apply engine event).deliveries engine events

end Run

/-- The last delivery under a key was this tree, and fewer other keys than the capacity were
    delivered since. -/
def RecentDelivery (capacity : Nat) (history : List (String × SharedTree)) (key : String)
    (tree : SharedTree) : Prop :=
  ∃ earlier since, history = earlier ++ (key, tree) :: since ∧ key ∉ since.map Prod.fst ∧
    (since.map Prod.fst).dedup.length < capacity

/-! ## The last delivery under a key -/

section Last

variable {history : List (String × SharedTree)} {key : String} {tree : SharedTree}

theorem lookup_reverse_concat (history : List (String × SharedTree)) (entry : String × SharedTree)
    (key : String) : (history ++ [entry]).reverse.lookup key
      = if key = entry.1 then some entry.2 else history.reverse.lookup key := by
  rw [List.reverse_concat, List.lookup_cons]
  by_cases h : key = entry.1
  · rw [if_pos h, beq_iff_eq.mpr h]
  · rw [if_neg h, beq_eq_false_iff_ne.mpr h]

theorem lookup_reverse_eq_some_iff : history.reverse.lookup key = some tree ↔
    ∃ earlier since, history = earlier ++ (key, tree) :: since ∧ key ∉ since.map Prod.fst := by
  rw [List.lookup_eq_some_iff]
  constructor
  · rintro ⟨since, earlier, hsplit, hnot⟩
    refine ⟨earlier.reverse, since.reverse, ?_, ?_⟩
    · rw [← List.reverse_reverse history, hsplit]
      simp
    · simp only [List.mem_map, List.mem_reverse, not_exists, not_and]
      intro entry hentry heq
      simpa [heq] using hnot entry hentry
  · rintro ⟨earlier, since, rfl, hnot⟩
    refine ⟨since.reverse, earlier.reverse, by simp, ?_⟩
    intro entry hentry
    refine bne_iff_ne.mpr fun heq => hnot ?_
    exact heq ▸ List.mem_map_of_mem (List.mem_reverse.mp hentry)

end Last

/-! ## What a parser keeps -/

namespace LanguageParser

/-- The parser keeps the trees of the keys delivered last, and no parse to come has made one of
    the trees delivered so far. -/
structure Stocks (capacity : Nat) (history : List (String × SharedTree)) (p : LanguageParser) :
    Prop where
  limit : p.trees.limit = capacity
  stepwise : p.trees.Stepwise
  latest : p.trees.HoldsLatest (history.map Prod.fst)
  values : ∀ entry ∈ p.trees.entries, history.reverse.lookup entry.1 = some entry.2
  stamped : ∀ entry ∈ history, entry.2.stamp < p.parses

section Parsing

variable {engine : Engine} {p : LanguageParser} {d : Document} (hlive : p.disposed = false)

include hlive

theorem parseDocument_of_found {shared : SharedTree} (h : p.trees.peek? d.key = some shared) :
    p.parseDocument engine d = (.ok shared, { p with trees := (p.trees.get? d.key).2 }) := by
  have hget := (p.trees.get?_fst d.key).trans h
  rw [parseDocument, if_neg (Bool.eq_false_iff.mp hlive)]
  generalize p.trees.get? d.key = got at hget
  obtain ⟨value, trees⟩ := got
  obtain rfl : value = some shared := hget
  rfl

theorem parseDocument_of_absent (h : p.trees.peek? d.key = none) :
    p.parseDocument engine d =
      match p.parse engine d.text with
      | .error e => (.error e, p)
      | .ok tree => (.ok ⟨p.parses, tree⟩,
          { p with trees := p.trees.set d.key ⟨p.parses, tree⟩, parses := p.parses + 1 }) := by
  have hget := (p.trees.get?_fst d.key).trans h
  rw [parseDocument, if_neg (Bool.eq_false_iff.mp hlive)]
  generalize p.trees.get? d.key = got at hget
  obtain ⟨value, trees⟩ := got
  obtain rfl : value = none := hget
  rfl

end Parsing

namespace Stocks

variable {capacity : Nat} {history : List (String × SharedTree)} {p : LanguageParser}

theorem new {config : ParserConfig} (hratio : config.cacheRatio = Binary64.one)
    (hlimit : config.cacheCapacity ≤ Binary64.powerOfTwo 53) (language : Language)
    (source : GrammarSource) : (new language config source).Stocks config.cacheCapacity [] where
  limit := rfl
  stepwise := by
    refine ⟨?_, hlimit⟩
    show config.cacheRatio.clampUnit = Binary64.one
    rw [hratio]
    decide +kernel
  latest := by
    show [] = ([] : List String).rtake config.cacheCapacity
    rw [List.rtake_nil]
  values _ h := nomatch h
  stamped _ h := nomatch h

theorem sameStore {p' : LanguageParser} (h : p.Stocks capacity history) (hsame : p.SameStore p') :
    p'.Stocks capacity history := by
  obtain ⟨hlimit, hstepwise, hlatest, hvalues, hstamped⟩ := h
  rw [← hsame.trees] at hlimit hstepwise hlatest hvalues
  rw [← hsame.parses] at hstamped
  exact ⟨hlimit, hstepwise, hlatest, hvalues, hstamped⟩

variable (h : p.Stocks capacity history) {key : String} {shared : SharedTree}

include h

/-- A tree that is found is delivered under its key once more. -/
theorem found (hfound : p.trees.peek? key = some shared) :
    { p with trees := (p.trees.get? key).2 }.Stocks capacity (history ++ [(key, shared)]) where
  limit := (p.trees.limit_get? key).trans h.limit
  stepwise := ⟨(p.trees.ratio_get? key).trans h.stepwise.ratio,
    (p.trees.limit_get? key).trans_le h.stepwise.limit⟩
  latest := by
    have hkey : key ∈ p.trees.keys :=
      List.mem_map_of_mem (RecencyCache.mem_entries_of_peek? hfound)
    rw [List.map_append]
    exact h.latest.get? hkey
  values entry hentry := by
    have hentry := h.values entry (RecencyCache.mem_entries_of_mem_get? hentry)
    rw [lookup_reverse_concat]
    split
    · next heq =>
        -- the last delivery under this key was this tree before
        rw [heq, h.values _ (RecencyCache.mem_entries_of_peek? hfound)] at hentry
        exact hentry
    · exact hentry
  stamped entry hentry := by
    rcases List.mem_append.mp hentry with hentry | hnew
    · exact h.stamped entry hentry
    · obtain rfl := List.mem_singleton.mp hnew
      have hlast := h.values _ (RecencyCache.mem_entries_of_peek? hfound)
      obtain ⟨earlier, since, hsplit, -⟩ := lookup_reverse_eq_some_iff.mp hlast
      refine h.stamped _ ?_
      rw [hsplit]
      exact List.mem_append_right earlier List.mem_cons_self

/-- A tree that is parsed is delivered under a key that was not kept. -/
theorem parsed (habsent : p.trees.peek? key = none) (hstamp : shared.stamp = p.parses) :
    { p with trees := p.trees.set key shared, parses := p.parses + 1 }.Stocks capacity
      (history ++ [(key, shared)]) where
  limit := (RecencyCache.limit_set ..).trans h.limit
  stepwise := ⟨(RecencyCache.ratio_set ..).trans h.stepwise.ratio,
    (RecencyCache.limit_set ..).trans_le h.stepwise.limit⟩
  latest := by
    rw [List.map_append]
    exact h.latest.set h.stepwise key shared
  values entry hentry := by
    rw [lookup_reverse_concat]
    rcases RecencyCache.mem_entries_of_mem_set hentry with hold | rfl
    · have hne : entry.1 ≠ key := by
        rintro rfl
        have hkey : p.trees.contains entry.1 = true :=
          RecencyCache.contains_iff.mpr (List.mem_map_of_mem hold)
        rw [RecencyCache.contains, habsent] at hkey
        cases hkey
      rw [if_neg hne]
      exact h.values entry hold
    · exact if_pos rfl
  stamped entry hentry := by
    rcases List.mem_append.mp hentry with hentry | hnew
    · exact Nat.lt_succ_of_lt (h.stamped entry hentry)
    · obtain rfl := List.mem_singleton.mp hnew
      exact hstamp ▸ Nat.lt_succ_self p.parses

/-- **A delivery keeps the stock.** -/
theorem deliver {engine : Engine} {d : Document} {p' : LanguageParser}
    (hdelivered : p.parseDocument engine d = (.ok shared, p')) :
    p'.Stocks capacity (history ++ [(d.key, shared)]) := by
  have hlive : p.disposed = false := by
    have hobtains := obtains_parseDocument engine p d
    rw [hdelivered] at hobtains
    cases hobtains with
    | found hlive _ => exact hlive
    | stored hlive _ => exact hlive
  cases hpeek : p.trees.peek? d.key with
  | some kept =>
      rw [parseDocument_of_found hlive hpeek] at hdelivered
      cases hdelivered
      exact h.found hpeek
  | none =>
      rw [parseDocument_of_absent hlive hpeek] at hdelivered
      split at hdelivered
      · cases hdelivered
      · cases hdelivered
        exact h.parsed hpeek rfl

/-- The trees that are kept are those of the recent deliveries. -/
theorem peek?_eq_some_iff : p.trees.peek? key = some shared ↔
    RecentDelivery capacity history key shared := by
  have hmem : ∀ earlier tree since, history = earlier ++ (key, tree) :: since →
      key ∉ since.map Prod.fst →
      (key ∈ p.trees.keys ↔ (since.map Prod.fst).dedup.length < capacity) := by
    rintro earlier tree since rfl hnot
    have hlatest := h.latest
    rw [List.map_append, List.map_cons] at hlatest
    rw [hlatest.mem_keys_iff hnot, h.limit]
  constructor
  · intro hpeek
    have hentry := RecencyCache.mem_entries_of_peek? hpeek
    obtain ⟨earlier, since, hsplit, hnot⟩ := lookup_reverse_eq_some_iff.mp (h.values _ hentry)
    exact ⟨earlier, since, hsplit, hnot,
      (hmem earlier shared since hsplit hnot).mp (List.mem_map_of_mem hentry)⟩
  · rintro ⟨earlier, since, hsplit, hnot, hrecent⟩
    have hkey := RecencyCache.contains_iff.mpr ((hmem earlier shared since hsplit hnot).mpr hrecent)
    obtain ⟨kept, hkept⟩ := Option.isSome_iff_exists.mp hkey
    have hlast := h.values _ (RecencyCache.mem_entries_of_peek? hkept)
    rw [lookup_reverse_eq_some_iff.mpr ⟨earlier, since, hsplit, hnot⟩] at hlast
    rw [hkept, ← hlast]

section Obtained

variable {engine : Engine} {d : Document} (hlive : p.disposed = false)

include hlive

/-- A recent document is found. -/
theorem obtained_of_recent (hrecent : RecentDelivery capacity history d.key shared) :
    (p.parseDocument engine d).1 = .ok shared ∧ (p.parseDocument engine d).2.parses = p.parses := by
  rw [parseDocument_of_found hlive (h.peek?_eq_some_iff.mpr hrecent)]
  exact ⟨rfl, rfl⟩

/-- A document that is not recent is parsed. -/
theorem obtained_of_not_recent
    (hold : ¬ ∃ tree, RecentDelivery capacity history d.key tree) :
    (p.parseDocument engine d).1 = (p.parse engine d.text).map (SharedTree.mk p.parses) ∧
      (p.parseDocument engine d).2.parses
        = p.parses + if (p.parse engine d.text).toOption.isSome then 1 else 0 := by
  have habsent : p.trees.peek? d.key = none :=
    Option.eq_none_iff_forall_ne_some.mpr fun tree hpeek =>
      hold ⟨tree, h.peek?_eq_some_iff.mp hpeek⟩
  rw [parseDocument_of_absent hlive habsent]
  cases p.parse engine d.text with
  | error e => exact ⟨rfl, rfl⟩
  | ok tree => exact ⟨rfl, rfl⟩

/-- **A tree that was delivered before is obtained if and only if it is recent.** -/
theorem obtained_iff (hdelivered : (d.key, shared) ∈ history) :
    (p.parseDocument engine d).1 = .ok shared ↔ RecentDelivery capacity history d.key shared := by
  refine ⟨?_, fun hrecent => (h.obtained_of_recent hlive hrecent).1⟩
  intro hobtained
  by_cases hold : ∃ tree, RecentDelivery capacity history d.key tree
  · obtain ⟨tree, hrecent⟩ := hold
    rw [(h.obtained_of_recent hlive hrecent).1] at hobtained
    exact Except.ok.inj hobtained ▸ hrecent
  · -- the tree of a new parse carries a number that no delivered tree has
    rw [(h.obtained_of_not_recent hlive hold).1] at hobtained
    cases hparse : p.parse engine d.text with
    | error e =>
        rw [hparse] at hobtained
        cases hobtained
    | ok tree =>
        rw [hparse] at hobtained
        have hstamp : p.parses = shared.stamp :=
          congrArg SharedTree.stamp (Except.ok.inj hobtained)
        exact absurd hstamp (h.stamped _ hdelivered).ne'

end Obtained

end Stocks

end LanguageParser

namespace Run

variable {engine : Engine} {capacity : Nat} {history : List (String × SharedTree)} {r : Run}

theorem delivery?_resume {caller : Caller} {call : Call} (hcall : r.calls[caller]? = some call) :
    r.delivery? engine (.resume caller) = r.world.delivery? engine call.query call.phase := by
  rw [delivery?, hcall, Option.bind_some]

/-- Every event but disposal keeps the stock. -/
theorem stocks_apply (h : r.world.parser.Stocks capacity history) {event : Event}
    (hlive : event ≠ .dispose) : (r.apply engine event).world.parser.Stocks capacity
      (history ++ (r.delivery? engine event).toList) := by
  cases event with
  | call q =>
      show r.world.parser.Stocks capacity (history ++ [])
      rw [List.append_nil]
      exact h
  | dispose => exact absurd rfl hlive
  | resume caller =>
      rw [apply]
      cases hcall : r.calls[caller]? with
      | none =>
          rw [resume, delivery?, hcall]
          simpa using h
      | some call =>
          rw [resume_eq hcall, delivery?_resume hcall]
          have hstep := World.storeStep_step engine caller call.query r.world call.phase
          generalize r.world.step engine caller call.query call.phase = next at hstep
          generalize r.world.delivery? engine call.query call.phase = delivery at hstep
          cases hstep with
          | pass hsame _ =>
              rw [Option.toList_none, List.append_nil]
              exact h.sameStore hsame
          | deliver _ _ hdelivered => exact h.deliver hdelivered

/-- Every list of events without disposal keeps the stock. -/
theorem stocks_applyAll (h : r.world.parser.Stocks capacity history) {events : List Event}
    (hlive : .dispose ∉ events) : (r.applyAll engine events).world.parser.Stocks capacity
      (history ++ r.deliveries engine events) := by
  induction events generalizing r history with
  | nil =>
      rw [deliveries, List.append_nil]
      exact h
  | cons event events ih =>
      obtain ⟨hfirst, hrest⟩ := List.ne_and_not_mem_of_not_mem_cons hlive
      rw [deliveries, ← List.append_assoc]
      exact ih (stocks_apply h (Ne.symm hfirst)) hrest

end Run

/-! ## How a call about a document ends -/

section Ending

variable {engine : Engine} {w w' : World} {q : Query} {d : Document} {phase : Phase}

/-- A parser without an engine has no documents and parses none. -/
theorem LanguageParser.Orderly.parseDocument_of_detached {p : LanguageParser} (h : p.Orderly)
    (hdetached : p.attached = none) (d : Document) :
    ∃ e, p.parseDocument engine d = (.error e, p) := by
  have hobtains := obtains_parseDocument engine p d
  generalize p.parseDocument engine d = result at hobtains
  cases hobtains with
  | refused _ => exact ⟨_, rfl⟩
  | failed _ _ => exact ⟨_, rfl⟩
  | @found shared trees _ hget =>
      have hpeek : p.trees.peek? d.key = some shared := by
        rw [← RecencyCache.get?_fst, hget]
      have hattached := h.kept (List.ne_nil_of_mem (RecencyCache.mem_entries_of_peek? hpeek))
      rw [hdetached] at hattached
      cases hattached
  | stored _ hok =>
      have hattached := attached_of_parse_ok hok
      rw [hdetached] at hattached
      cases hattached

/-- A call about a document on a live parser ends with its last phase, or for want of an engine
    before it. -/
theorem World.prepared_or_detached (h : w.parser.Orderly) (hlive : w.parser.disposed = false)
    {caller : Caller} (hturn : phase.InTurn w caller) (hsubject : q.subject = .document d)
    (hgoing : ∀ earlier, phase ≠ .done earlier) {result : Except Error Answer}
    (hdone : (w.step engine caller q phase).2 = .done result) :
    phase = .prepared ∨ w.parser.attached = none ∧ ∃ e, result = .error e := by
  cases phase with
  | prepared => exact .inl rfl
  | done earlier => exact absurd rfl (hgoing earlier)
  | entering =>
      simp only [step, Query.immediate?_of_document hsubject, hlive] at hdone
      cases hdone
  | atCell =>
      simp only [step, enterCell, load] at hdone
      split at hdone
      · cases hdone
      · split at hdone <;> cases hdone
  | waiting =>
      simp only [step, keepWaiting, load] at hdone
      split at hdone
      · cases hdone
      · split at hdone <;> cases hdone
  | loading outcome =>
      obtain ⟨-, hempty, -⟩ := hturn
      -- while a load is running the cell is empty, and so the engine has no grammar
      have hdetached : w.parser.attached = none := by
        refine Option.not_isSome_iff_eq_none.mp fun hattached => ?_
        have hfilled := h.loaded hattached
        rw [hempty] at hfilled
        cases hfilled
      cases outcome with
      | ok grammar => cases hdone
      | error e =>
          cases hdone
          exact .inr ⟨hdetached, e, rfl⟩
  | admitted grammar =>
      simp only [step, attach, hlive] at hdone
      split at hdone
      · next hdisposed => cases hdisposed
      · split at hdone
        · cases hdone
        · next hdetached =>
            split at hdone
            · cases hdone
            · cases hdone
              exact .inr ⟨Option.not_isSome_iff_eq_none.mp hdetached, _, rfl⟩

/-- **Asking for the document is what ends a call about it.** -/
theorem World.ends_with_document (h : w.parser.Orderly) (hlive : w.parser.disposed = false)
    {caller : Caller} (hturn : phase.InTurn w caller) (hsubject : q.subject = .document d)
    (hgoing : ∀ earlier, phase ≠ .done earlier) {result : Except Error Answer}
    (hstep : w.step engine caller q phase = (w', .done result)) :
    let obtained := w.parser.parseDocument engine d
    w.delivery? engine q phase = obtained.1.toOption.map (fun shared => (d.key, shared)) ∧
    result.toOption = obtained.1.toOption.map (q.answer w.parser) ∧
    w'.parser.parses = obtained.2.parses := by
  intro obtained
  rcases prepared_or_detached h hlive hturn hsubject hgoing (congrArg Prod.snd hstep) with
    rfl | ⟨hdetached, e, rfl⟩
  · simp only [step, respond, hsubject] at hstep
    cases hstep
    refine ⟨?_, ?_, rfl⟩
    · simp only [delivery?, hsubject]
      rfl
    · show (obtained.1.map _).toOption = _
      cases obtained.1 <;> rfl
  · obtain ⟨e', hobtained⟩ : ∃ e', obtained = (.error e', w.parser) :=
      h.parseDocument_of_detached hdetached d
    have hstore := storeStep_step engine caller q w phase
    rw [hstep] at hstore
    rw [hobtained]
    generalize w.delivery? engine q phase = delivery at hstore
    cases hstore with
    | pass hsame _ => exact ⟨rfl, rfl, hsame.parses⟩

theorem Run.ends_with_document {r : Run} (h : r.world.parser.Orderly)
    (hlive : r.world.parser.disposed = false) {caller : Caller}
    (hturn : phase.InTurn r.world caller) (hcall : r.calls[caller]? = some ⟨q, phase⟩)
    (hsubject : q.subject = .document d) (hgoing : ∀ earlier, phase ≠ .done earlier)
    {result : Except Error Answer}
    (hdone : (r.resume engine caller).calls[caller]? = some ⟨q, .done result⟩) :
    let obtained := r.world.parser.parseDocument engine d
    r.delivery? engine (.resume caller) = obtained.1.toOption.map (fun shared => (d.key, shared)) ∧
    result.toOption = obtained.1.toOption.map (q.answer r.world.parser) ∧
    (r.resume engine caller).world.parser.parses = obtained.2.parses := by
  have hlt : caller < r.calls.length := (List.getElem?_eq_some_iff.mp hcall).1
  have hstep : r.world.step engine caller q phase
      = ((r.resume engine caller).world, .done result) := by
    rw [resume_eq hcall, List.getElem?_set_self hlt] at hdone
    rw [resume_eq hcall]
    exact Prod.ext rfl (congrArg Call.phase (Option.some.inj hdone))
  rw [delivery?_resume hcall]
  exact World.ends_with_document h hlive hturn hsubject hgoing hstep

/-- On a parser whose engine is attached, a call about a document is not held up. -/
theorem World.call?_of_attached (h : w.parser.Orderly) (hlive : w.parser.disposed = false)
    (hattached : w.parser.attached.isSome = true) (hsubject : q.subject = .document d) :
    (w.call? engine q).2
      = some ((w.parser.parseDocument engine d).1.map (q.answer w.parser)) := by
  obtain ⟨grammar, hgrammar⟩ := Option.isSome_iff_exists.mp (h.loaded hattached)
  have hentering : w.step engine 0 q .entering = (w, .atCell) := by
    simp [step, Query.immediate?_of_document hsubject, hlive]
  have hatCell : w.step engine 0 q .atCell = (w, .admitted grammar) := by
    simp [step, enterCell, hgrammar]
  have hadmitted : w.step engine 0 q (.admitted grammar) = (w, .prepared) := by
    simp [step, attach, hlive, hattached]
  have hprepared : w.step engine 0 q .prepared
      = ({ w with parser := (w.parser.parseDocument engine d).2 },
          .done ((w.parser.parseDocument engine d).1.map (q.answer w.parser))) := by
    simp only [step, respond, hsubject]
  rw [call?, callLength, steps, hentering, steps, hatCell, steps, hadmitted, steps, hprepared,
    steps_done]

end Ending

/-- **A document is found as long as it is recent.**  Along every run of a live parser of ratio
    one, a call about a document that ends is given a tree that was delivered under its key before
    if and only if that was the last one and fewer other keys than the capacity were delivered
    since; then the engine parses nothing, and a call that is made alone does end so.  In all other
    cases the engine parses the document's text once more, and what the call is given is the tree
    of that parse. -/
theorem document_is_found_while_recent (engine : Engine) (language : Language)
    (config : ParserConfig) (source : GrammarSource) (loader : Loader) (events : List Event)
    (hratio : config.cacheRatio = Binary64.one)
    (hcapacity : config.cacheCapacity ≤ Binary64.powerOfTwo 53) (hlive : .dispose ∉ events) :
    let start := Run.start ⟨loader, LanguageParser.new language config source⟩
    let run := start.applyAll engine events
    let history := start.deliveries engine events
    let before := run.world.parser
    let Recent := RecentDelivery config.cacheCapacity history
    (∀ q d tree, q.subject = .document d → Recent d.key tree →
      (run.world.call? engine q).2 = some (.ok (q.answer before tree))) ∧
    ∀ caller q phase d result,
      run.calls[caller]? = some ⟨q, phase⟩ → q.subject = .document d →
      (∀ earlier, phase ≠ .done earlier) →
      (run.resume engine caller).calls[caller]? = some ⟨q, .done result⟩ →
      let delivery := run.delivery? engine (.resume caller)
      let after := (run.resume engine caller).world.parser
      result.toOption = delivery.map (fun entry => q.answer before entry.2) ∧
      (∀ tree, (d.key, tree) ∈ history →
        (delivery = some (d.key, tree) ↔ Recent d.key tree)) ∧
      ((∃ tree, Recent d.key tree) → after.parses = before.parses) ∧
      ((¬ ∃ tree, Recent d.key tree) →
        delivery = (before.parse engine d.text).toOption.map
          (fun tree => (d.key, ⟨before.parses, tree⟩)) ∧
        after.parses = before.parses + if delivery.isSome then 1 else 0) := by
  intro start run history before Recent
  have hnew : start.world.parser.Stocks config.cacheCapacity [] :=
    LanguageParser.Stocks.new hratio hcapacity language source
  have hstocks : before.Stocks config.cacheCapacity history := Run.stocks_applyAll hnew hlive
  have horderly : start.Upholds (fun w => w.parser.Orderly)
      (fun w _ _ phase => phase.Backed w.parser) :=
    Run.upholds_start (LanguageParser.orderly_new language config source)
  have hrun := horderly.applyAll (Run.preserved_orderly engine) events fun _ _ => trivial
  have hturn := (Run.preserved_inTurn engine).upholds start.world trivial
    fun _ (_ : _ ∈ events) => trivial
  have hundisposed : before.disposed = false := by
    refine Bool.eq_false_iff.mpr fun hdisposed => ?_
    rcases (Run.disposed_applyAll engine start events).mp hdisposed with hstart | hmem
    · cases hstart
    · exact hlive hmem
  constructor
  · intro q d tree hsubject hrecent
    have hentry := RecencyCache.mem_entries_of_peek? (hstocks.peek?_eq_some_iff.mpr hrecent)
    have hattached := hrun.world.kept (List.ne_nil_of_mem hentry)
    rw [World.call?_of_attached hrun.world hundisposed hattached hsubject]
    show some ((before.parseDocument engine d).1.map _) = _
    rw [(hstocks.obtained_of_recent hundisposed hrecent).1]
    rfl
  · intro caller q phase d result hcall hsubject hgoing hdone delivery after
    obtain ⟨hdelivery, hresult, hparses⟩ :
        delivery = (before.parseDocument engine d).1.toOption.map (fun shared => (d.key, shared)) ∧
        result.toOption = (before.parseDocument engine d).1.toOption.map (q.answer before) ∧
        after.parses = (before.parseDocument engine d).2.parses :=
      Run.ends_with_document hrun.world hundisposed (hturn.calls caller _ hcall) hcall hsubject
        hgoing hdone
    refine ⟨?_, ?_, ?_, ?_⟩
    · rw [hresult, hdelivery, Option.map_map]
      rfl
    · intro tree hdelivered
      have hfound : (before.parseDocument engine d).1 = .ok tree ↔ Recent d.key tree :=
        hstocks.obtained_iff hundisposed hdelivered
      rw [hdelivery, ← hfound]
      cases (before.parseDocument engine d).1 <;> simp [Except.toOption]
    · rintro ⟨tree, hrecent⟩
      exact hparses.trans (hstocks.obtained_of_recent hundisposed hrecent).2
    · intro hold
      obtain ⟨hfresh, hcount⟩ := hstocks.obtained_of_not_recent hundisposed hold
      rw [hdelivery, hparses, hcount, hfresh]
      cases before.parse engine d.text with
      | error e => exact ⟨rfl, rfl⟩
      | ok tree => exact ⟨rfl, rfl⟩

/-- Room for two documents, and three were delivered when two more calls come to their last step.
    The second document is found, as only the third was delivered after it; the first is not recent
    any more, and is parsed again. -/
theorem second_of_three_is_found :
    let a : Document := ⟨"a", 1, "x"⟩
    let b : Document := ⟨"b", 1, "y"⟩
    let c : Document := ⟨"c", 1, "z"⟩
    let events := Event.whole 0 (.document a) ++ Event.whole 1 (.symbols b)
      ++ Event.whole 2 (.blocks c)
      ++ [.call (.document b), .resume 3, .resume 3, .resume 3]
      ++ [.call (.document a), .resume 4, .resume 4, .resume 4]
    let run := Run.applyAll Engine.single (Run.start ⟨Loader.fresh fun _ _ => .failure,
      LanguageParser.new .python ⟨2, Binary64.one, 1⟩ .builtin⟩) events
    let tree := fun text => SyntaxTree.ofParse text
      ⟨⟨"program", none, true, false, ⟨0, 1, ⟨0, 0⟩, ⟨0, 1⟩⟩⟩, .nil⟩
    run.delivery? Engine.single (.resume 3) = some (b.key, ⟨1, tree "y"⟩) ∧
    run.delivery? Engine.single (.resume 4) = some (a.key, ⟨3, tree "x"⟩) ∧
    ¬ RecentDelivery 2 [(a.key, ⟨0, tree "x"⟩), (b.key, ⟨1, tree "y"⟩), (c.key, ⟨2, tree "z"⟩)]
      a.key ⟨0, tree "x"⟩ := by
  intro a b c events run tree
  have hhistory : Run.deliveries Engine.single (Run.start ⟨Loader.fresh fun _ _ => .failure,
      LanguageParser.new .python ⟨2, Binary64.one, 1⟩ .builtin⟩) events
      = [(a.key, ⟨0, tree "x"⟩), (b.key, ⟨1, tree "y"⟩), (c.key, ⟨2, tree "z"⟩)] := by
    decide +kernel
  have hparsed : run.delivery? Engine.single (.resume 4) = some (a.key, ⟨3, tree "x"⟩) := by
    decide +kernel
  have hends := document_is_found_while_recent Engine.single .python ⟨2, Binary64.one, 1⟩ .builtin
    (Loader.fresh fun _ _ => .failure) events rfl (by decide +kernel) (by decide)
  dsimp only at hends
  rw [hhistory] at hends
  obtain ⟨-, hfound, -⟩ := hends.2 3 (.document b) .prepared b (.ok (.shared ⟨1, tree "y"⟩))
    (by decide +kernel) rfl nofun (by decide +kernel)
  obtain ⟨-, hagain, -⟩ := hends.2 4 (.document a) .prepared a (.ok (.shared ⟨3, tree "x"⟩))
    (by decide +kernel) rfl nofun (by decide +kernel)
  refine ⟨(hfound _ (by simp)).mpr ⟨[_], [_], rfl, ?_, ?_⟩, hparsed, ?_⟩
  · decide +kernel
  · decide +kernel
  · intro hrecent
    have hstamps := hparsed.symm.trans ((hagain _ (by simp)).mpr hrecent)
    simp at hstamps

end CodeBlocks
