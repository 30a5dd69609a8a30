import CodeBlocks.Proofs.Parser.Invariant
import CodeBlocks.Proofs.Parser.Refusal

/-! # Callers in line — what becomes of those who wait for a load

    A number of callers ask for a parser that has no grammar yet.  The
    first of them loads, the others stand in line.  From then on the run
    is decided by the loader alone, whoever is resumed:

    * `Run.inLine`: callers fail one after the other.  The first `failed`
      of them have their error and the first `started` have begun a load;
      a step moves one of these two numbers on or does nothing.
    * `Run.Released`: a load has succeeded, and no other is started.  Each
      caller who is left goes its own way to its end, in a few steps.

    `World.Awaits` is what this needs of the parser at the beginning. -/

namespace CodeBlocks

/-! ## The loader -/

namespace Loader

/-- The next `failures` fetches of a language fail and the one after them succeeds. -/
structure FailsNext (loader : Loader) (language : Language) (failures : Nat) (usable : Bool) :
    Prop where
  failure : ∀ i < failures,
    loader.outcome language (loader.log.count language + i) = .failure
  success : loader.outcome language (loader.log.count language + failures) = .success usable

/-- The loader when it has started some more fetches of a language. -/
def after (loader : Loader) (language : Language) (count : Nat) : Loader :=
  { loader with log := List.replicate count language ++ loader.log }

variable {loader : Loader} {language : Language} {failures : Nat} {usable : Bool}

theorem start_after (count : Nat) :
    (loader.after language count).start .fetched language = loader.after language (count + 1) :=
  rfl

theorem loads_after (count : Nat) :
    (loader.after language count).loads = loader.loads + count := by
  simp [loads, after, Nat.add_comm]

theorem outcome_after (count : Nat) :
    (loader.after language count).outcome language
        ((loader.after language count).log.count language)
      = loader.outcome language (loader.log.count language + count) := by
  simp [after, Nat.add_comm]

theorem FailsNext.result_of_lt (h : loader.FailsNext language failures usable) {count : Nat}
    (hlt : count < failures) :
    (loader.after language count).result .fetched language
      = .error (.grammar language .unavailable) := by
  simp only [result, outcome_after, h.failure count hlt]

theorem FailsNext.result_last (h : loader.FailsNext language failures usable) :
    (loader.after language failures).result .fetched language
      = .ok ⟨language.grammar, usable⟩ := by
  simp only [result, outcome_after, h.success]

end Loader

/-! ## The parser while callers stand in line -/

namespace World

/-- A parser that fetches its grammar and has none yet.  The next fetches fail and the one after
    them succeeds. -/
structure Awaits (w : World) (failures : Nat) (usable : Bool) : Prop where
  fetched : w.parser.source = .fetched
  empty : w.parser.grammar = none
  detached : w.parser.attached = none
  next : w.loader.FailsNext w.parser.language failures usable

/-- The world when `failed` of `n` callers have their error and `started` loads have begun. -/
def lined (w : World) (n failed started : Nat) : World :=
  ⟨w.loader.after w.parser.language started,
   { w.parser with
     turn := if failed < n then some failed else none
     line := List.range' (failed + 1) (n - (failed + 1)) }⟩

/-- Where a caller stands then: it has its error, it loads or it waits. -/
def linedPhase (w : World) (failed started caller : Nat) : Phase :=
  if caller < failed then .done (.error (.grammar w.parser.language .unavailable))
  else if caller < started then
    .loading ((w.loader.after w.parser.language failed).result .fetched w.parser.language)
  else .waiting

variable {engine : Engine} {w : World} {n failures failed started caller : Nat} {usable : Bool}

theorem linedPhase_of_failed (h : caller < failed) :
    w.linedPhase failed started caller
      = .done (.error (.grammar w.parser.language .unavailable)) :=
  if_pos h

theorem linedPhase_of_loading (h : failed ≤ caller) (h' : caller < started) :
    w.linedPhase failed started caller = .loading
      ((w.loader.after w.parser.language failed).result .fetched w.parser.language) := by
  rw [linedPhase, if_neg (Nat.not_lt.mpr h), if_pos h']

theorem linedPhase_of_waiting (h : failed ≤ caller) (h' : started ≤ caller) :
    w.linedPhase failed started caller = .waiting := by
  rw [linedPhase, if_neg (Nat.not_lt.mpr h), if_neg (Nat.not_lt.mpr h')]

section Awaits

variable (hw : w.Awaits failures usable)

include hw

/-- In line, nothing is attached. -/
theorem Awaits.usable_of_attached
    (hattached : (w.lined n failed started).parser.attached.isSome = true) : usable = true := by
  have hattached : w.parser.attached.isSome = true := hattached
  rw [hw.detached] at hattached
  cases hattached

theorem Awaits.dispose : Awaits { w with parser := w.parser.dispose } failures usable := by
  dsimp only [LanguageParser.dispose]
  split
  · exact hw
  · exact ⟨hw.fetched, hw.empty, rfl, hw.next⟩

/-- A caller who comes to the cell loads if it is the first, and gets in line if not. -/
theorem enterCell_lined (j : Nat) :
    (w.lined j 0 (min j 1)).enterCell j = (w.lined (j + 1) 0 1, w.linedPhase 0 1 j) := by
  have hempty : (w.lined j 0 (min j 1)).parser.grammar = none := hw.empty
  rw [enterCell, hempty]
  cases j with
  | zero =>
      show (w.lined 0 0 0).load 0 = _
      simp only [load, lined, hw.fetched]
      rfl
  | succ j =>
      have hline : List.range' 1 j ++ [j + 1] = List.range' 1 (j + 1) := by
        rw [List.range'_concat, Nat.one_mul, Nat.add_comm]
      have hloads : min (j + 1) 1 = 1 := by omega
      rw [hloads]
      show (World.mk _ { w.parser with turn := some 0, line := List.range' 1 j ++ [j + 1] }, _) = _
      rw [hline]
      rfl

/-- Whose turn it is starts a load. -/
theorem step_lined_of_turn (hlt : failed < n) :
    (w.lined n failed failed).step engine failed .ready .waiting
      = (w.lined n failed (failed + 1),
          .loading ((w.loader.after w.parser.language failed).result .fetched
            w.parser.language)) := by
  have hempty : (w.lined n failed failed).parser.grammar = none := hw.empty
  have hturn : (w.lined n failed failed).parser.turn = some failed := if_pos hlt
  show (w.lined n failed failed).keepWaiting failed = _
  rw [keepWaiting, hempty]
  dsimp only
  rw [if_pos hturn, load]
  simp only [lined, hw.fetched, Loader.start_after, if_pos hlt]

/-- Everybody else in line goes on waiting. -/
theorem step_lined_of_ne (hne : caller ≠ failed) :
    (w.lined n failed started).step engine caller .ready .waiting
      = (w.lined n failed started, .waiting) := by
  have hempty : (w.lined n failed started).parser.grammar = none := hw.empty
  have hturn : (w.lined n failed started).parser.turn ≠ some caller := by
    simp only [lined]
    split
    · exact fun heq => hne (Option.some.inj heq).symm
    · exact nofun
  show (w.lined n failed started).keepWaiting caller = _
  rw [keepWaiting, hempty]
  dsimp only
  rw [if_neg hturn]

end Awaits

/-- A load that fails passes the turn on to the next in line. -/
theorem step_lined_of_failure (e : Error) :
    (w.lined n failed started).step engine caller .ready (.loading (.error e))
      = (w.lined n (failed + 1) started, .done (.error e)) := by
  have hturn : (List.range' (failed + 1) (n - (failed + 1))).head?
      = if failed + 1 < n then some (failed + 1) else none := by
    by_cases hlast : failed + 1 < n
    · rw [List.head?_range', if_neg (by omega), if_pos hlast]
    · rw [List.head?_range', if_pos (by omega), if_neg hlast]
  have hline : (List.range' (failed + 1) (n - (failed + 1))).tail
      = List.range' (failed + 1 + 1) (n - (failed + 1 + 1)) := by
    rw [List.tail_range', Nat.sub_sub]
  show (w.lined n failed started).finishLoad (.error e) = _
  simp only [finishLoad, lined, hturn, hline]

/-! ## The parser after a load has succeeded -/

/-- The world when the load after `failures` others has succeeded. -/
def released (w : World) (failures : Nat) (usable : Bool) (attached : Option LoadedGrammar) :
    World :=
  ⟨w.loader.after w.parser.language (failures + 1),
   { w.parser with
     grammar := some ⟨w.parser.language.grammar, usable⟩
     turn := none
     line := []
     attached }⟩

/-- A load has succeeded.  If a grammar is attached, it is usable and the parser is live. -/
def IsReleased (w : World) (failures : Nat) (usable : Bool) (v : World) : Prop :=
  ∃ attached, (attached.isSome = true → w.parser.disposed = false ∧ usable = true) ∧
    v = w.released failures usable attached

/-- How calls end at a grammar that has been loaded. -/
def ending (w : World) (usable : Bool) : Except Error Answer :=
  if w.parser.disposed then .error .disposed
  else if usable then .ok .ready
  else .error (.grammar w.parser.language .incompatible)

/-- How the call of a caller ends: the first callers get the error of their own load, all others
    share one ending. -/
def firstUse (w : World) (failures : Nat) (usable : Bool) (caller : Nat) :
    Except Error Answer :=
  if caller < failures then .error (.grammar w.parser.language .unavailable)
  else w.ending usable

/-- Where a caller can stand once the load has succeeded. -/
def Serves (w : World) (failures : Nat) (usable : Bool) (caller : Nat) : Phase → Prop
  | .waiting => failures ≤ caller
  | .admitted grammar => failures ≤ caller ∧ grammar = ⟨w.parser.language.grammar, usable⟩
  | .prepared => failures ≤ caller ∧ w.parser.disposed = false ∧ usable = true
  | .done result => result = w.firstUse failures usable caller
  | _ => False

end World

/-- How many steps a call has left at most, once the grammar is there. -/
def Phase.stepsLeft : Phase → Nat
  | .waiting => 3
  | .admitted _ => 2
  | .prepared => 1
  | _ => 0

theorem Phase.stepsLeft_le (phase : Phase) : phase.stepsLeft ≤ World.callLength := by
  cases phase <;> simp [stepsLeft, World.callLength]

namespace World

variable {engine : Engine} {w : World} {n failures caller : Nat} {usable : Bool}

/-- A load that succeeds releases all who wait. -/
theorem step_lined_of_success (hw : w.Awaits failures usable) :
    (w.lined n failures (failures + 1)).step engine caller .ready
        (.loading (.ok ⟨w.parser.language.grammar, usable⟩))
      = (w.released failures usable none, .admitted ⟨w.parser.language.grammar, usable⟩) := by
  show (w.lined n failures (failures + 1)).finishLoad (.ok ⟨w.parser.language.grammar, usable⟩) = _
  simp only [finishLoad, lined, released, hw.detached]

theorem firstUse_of_le (hle : failures ≤ caller) :
    w.firstUse failures usable caller = w.ending usable :=
  if_neg (Nat.not_lt.mpr hle)

/-- **Once the grammar is there, every step of a caller brings its call closer to the end.** -/
theorem serves_step (engine : Engine) {v : World} (hv : w.IsReleased failures usable v)
    {phase : Phase} (hphase : w.Serves failures usable caller phase) :
    let next := v.step engine caller .ready phase
    w.IsReleased failures usable next.1 ∧ w.Serves failures usable caller next.2 ∧
      next.2.stepsLeft ≤ phase.stepsLeft - 1 := by
  obtain ⟨attached, hattached, rfl⟩ := hv
  have hsame : w.IsReleased failures usable (w.released failures usable attached) :=
    ⟨attached, hattached, rfl⟩
  cases phase with
  | entering | atCell | loading => exact hphase.elim
  | waiting => exact ⟨hsame, ⟨hphase, rfl⟩, Nat.le_refl _⟩
  | admitted grammar =>
      obtain ⟨hle, rfl⟩ := hphase
      show w.IsReleased _ _ (attach _ _).1 ∧ w.Serves _ _ _ (attach _ _).2 ∧
        (attach _ _).2.stepsLeft ≤ 1
      dsimp only [attach]
      split
      · next hdisposed =>
          have hdisposed : w.parser.disposed = true := hdisposed
          refine ⟨hsame, ?_, Nat.zero_le 1⟩
          rw [Serves, firstUse_of_le hle, ending, if_pos hdisposed]
      · next hlive =>
          have hlive : ¬ w.parser.disposed = true := hlive
          have hlive' : w.parser.disposed = false := Bool.eq_false_iff.mpr hlive
          split
          · next hsome => exact ⟨hsame, ⟨hle, hattached hsome⟩, Nat.le_refl 1⟩
          · split
            · next husable =>
                exact ⟨⟨some _, fun _ => ⟨hlive', husable⟩, rfl⟩, ⟨hle, hlive', husable⟩,
                  Nat.le_refl 1⟩
            · next husable =>
                have husable : ¬ usable = true := husable
                refine ⟨hsame, ?_, Nat.zero_le 1⟩
                rw [Serves, firstUse_of_le hle, ending, if_neg hlive, if_neg husable]
                rfl
  | prepared =>
      obtain ⟨hle, hlive, husable⟩ := hphase
      refine ⟨hsame, ?_, Nat.zero_le 0⟩
      show Except.ok Answer.ready = w.firstUse failures usable caller
      rw [firstUse_of_le hle, ending, hlive, husable]
      rfl
  | done result => exact ⟨hsame, hphase, Nat.zero_le _⟩

/-- Who has no step left has ended. -/
theorem Serves.eq_done {phase : Phase} (h : w.Serves failures usable caller phase)
    (hleft : phase.stepsLeft = 0) : phase = .done (w.firstUse failures usable caller) := by
  cases phase with
  | waiting | admitted | prepared => cases hleft
  | entering | atCell | loading => exact h.elim
  | done result => exact congrArg Phase.done h

/-- The first callers have their error and no step left. -/
theorem Serves.stepsLeft_of_lt {phase : Phase} (h : w.Serves failures usable caller phase)
    (hlt : caller < failures) : phase.stepsLeft = 0 := by
  cases phase with
  | waiting => exact absurd h (Nat.not_le.mpr hlt)
  | admitted | prepared => exact absurd h.1 (Nat.not_le.mpr hlt)
  | _ => rfl

end World

/-! ## Runs of callers in line -/

namespace Run

/-- The run of `n` callers who stand in line. -/
def inLine (w : World) (n failed started : Nat) : Run :=
  ⟨w.lined n failed started,
   (List.range n).map fun c => ⟨.ready, w.linedPhase failed started c⟩⟩

/-- A load has succeeded, and each caller is on its own way to its end. -/
structure Released (w : World) (n failures : Nat) (usable : Bool) (r : Run) : Prop where
  reached : failures < n
  length : r.calls.length = n
  upholds : Upholds (w.IsReleased failures usable)
    (fun _ caller q phase => q = .ready ∧ w.Serves failures usable caller phase) r

/-- The call of a caller has ended as it should. -/
def Ended (w : World) (failures : Nat) (usable : Bool) (caller : Nat) (r : Run) : Prop :=
  r.calls[caller]? = some ⟨.ready, .done (w.firstUse failures usable caller)⟩

theorem resume_of_absent {engine : Engine} {r : Run} {caller : Caller}
    (hcall : r.calls[caller]? = none) : r.resume engine caller = r := by
  rw [resume, hcall]

theorem length_resume (engine : Engine) (r : Run) (caller : Caller) :
    (r.resume engine caller).calls.length = r.calls.length := by
  rw [resume]
  split
  · rfl
  · exact List.length_set

/-- One entry of a listed function is replaced. -/
theorem set_map_range {α : Type} {f g : Nat → α} {i : Nat} (h : ∀ c, c ≠ i → g c = f c)
    (n : Nat) : ((List.range n).map f).set i (g i) = (List.range n).map g := by
  refine List.ext_getElem (by simp) fun c hc _ => ?_
  rw [List.getElem_set]
  simp only [List.getElem_map, List.getElem_range]
  split
  · next heq => rw [heq]
  · next hne => exact (h c (Ne.symm hne)).symm

section InLine

variable {engine : Engine} {w : World} {n failures failed started caller : Nat} {usable : Bool}
variable {r : Run}

theorem length_inLine : (inLine w n failed started).calls.length = n := by simp [inLine]

theorem call_inLine (hlt : caller < n) :
    (inLine w n failed started).calls[caller]?
      = some ⟨.ready, w.linedPhase failed started caller⟩ := by
  simp [inLine, hlt]

theorem call_inLine_of_le (hle : n ≤ caller) :
    (inLine w n failed started).calls[caller]? = none := by
  simp [inLine, hle]

/-- A step of a caller in line takes all to where they stand next. -/
theorem resume_inLine {failed' started' : Nat} (hlt : caller < n)
    (hstep : (w.lined n failed started).step engine caller .ready
        (w.linedPhase failed started caller)
      = (w.lined n failed' started', w.linedPhase failed' started' caller))
    (hothers : ∀ c, c ≠ caller → w.linedPhase failed' started' c = w.linedPhase failed started c) :
    (inLine w n failed started).resume engine caller = inLine w n failed' started' := by
  rw [resume_eq (call_inLine hlt)]
  dsimp only [inLine]
  rw [hstep]
  congr 1
  exact set_map_range (g := fun c => (⟨.ready, w.linedPhase failed' started' c⟩ : Call))
    (fun c hc => congrArg (Call.mk .ready) (hothers c hc)) n

variable (hw : w.Awaits failures usable)

include hw

/-- Who has not the turn, or is loading, is suspended. -/
theorem suspended_of_lined (hworld : r.world = w.lined n failed started)
    (hcall : r.calls[caller]? = some ⟨.ready, w.linedPhase failed started caller⟩)
    (hturn : caller ≠ failed ∨ failed < started) : r.isSuspended caller = true := by
  rcases Nat.lt_or_ge caller failed with hfailed | hleft
  · rw [World.linedPhase_of_failed hfailed] at hcall
    rw [isSuspended, hcall]
  · rcases Nat.lt_or_ge caller started with hstarted | hwaits
    · rw [World.linedPhase_of_loading hleft hstarted] at hcall
      rw [isSuspended, hcall, hworld]
      show (w.parser.source == .fetched) = true
      rw [hw.fetched]
      rfl
    · have hne : caller ≠ failed := by omega
      rw [World.linedPhase_of_waiting hleft hwaits] at hcall
      rw [isSuspended, hcall, hworld]
      show (w.parser.grammar.isNone && (if failed < n then some failed else none) != some caller)
        = true
      rw [hw.empty]
      split
      · simpa using Ne.symm hne
      · rfl

/-- In line, a step of a caller who has not the turn does nothing. -/
theorem resume_inLine_of_ne (hle : started ≤ failed + 1) (hne : caller ≠ failed) :
    (inLine w n failed started).resume engine caller = inLine w n failed started := by
  rcases Nat.lt_or_ge caller n with hlt | hge
  · refine resume_inLine hlt ?_ fun _ _ => rfl
    rcases Nat.lt_or_gt_of_ne hne with hfailed | hwaits
    · rw [World.linedPhase_of_failed hfailed]
      rfl
    · rw [World.linedPhase_of_waiting (Nat.le_of_lt hwaits) (Nat.le_trans hle hwaits)]
      exact World.step_lined_of_ne hw hne
  · exact resume_of_absent (call_inLine_of_le hge)

/-- Whose turn it is starts its load. -/
theorem resume_inLine_start (hlt : failed < n) :
    (inLine w n failed failed).resume engine failed = inLine w n failed (failed + 1) := by
  refine resume_inLine hlt ?_ ?_
  · rw [World.linedPhase_of_waiting (Nat.le_refl _) (Nat.le_refl _),
      World.linedPhase_of_loading (Nat.le_refl _) (Nat.lt_succ_self _)]
    exact World.step_lined_of_turn hw hlt
  · intro c hc
    have hiff : c < failed + 1 ↔ c < failed := by omega
    simp only [World.linedPhase, hiff]

/-- A load that fails is the error of its caller alone. -/
theorem resume_inLine_fail (hlt : failed < n) (hfails : failed < failures) :
    (inLine w n failed (failed + 1)).resume engine failed
      = inLine w n (failed + 1) (failed + 1) := by
  refine resume_inLine hlt ?_ ?_
  · rw [World.linedPhase_of_loading (Nat.le_refl _) (Nat.lt_succ_self _),
      World.linedPhase_of_failed (Nat.lt_succ_self _), hw.next.result_of_lt hfails]
    exact World.step_lined_of_failure _
  · intro c hc
    rcases Nat.lt_or_gt_of_ne hc with hbefore | hbehind
    · rw [World.linedPhase_of_failed hbefore,
        World.linedPhase_of_failed (Nat.lt_succ_of_lt hbefore)]
    · rw [World.linedPhase_of_waiting hbehind hbehind,
        World.linedPhase_of_waiting (Nat.le_of_lt hbehind) hbehind]

/-- **A load that succeeds releases all.** -/
theorem resume_inLine_succeed (hlt : failures < n) :
    Released w n failures usable
      ((inLine w n failures (failures + 1)).resume engine failures) := by
  have hresume : (inLine w n failures (failures + 1)).resume engine failures
      = ⟨w.released failures usable none, (inLine w n failures (failures + 1)).calls.set failures
          ⟨.ready, .admitted ⟨w.parser.language.grammar, usable⟩⟩⟩ := by
    rw [resume_eq (call_inLine hlt)]
    dsimp only
    rw [World.linedPhase_of_loading (Nat.le_refl _) (Nat.lt_succ_self _), hw.next.result_last]
    exact congrArg (fun next : World × Phase => Run.mk next.1
      ((inLine w n failures (failures + 1)).calls.set failures ⟨.ready, next.2⟩))
      (World.step_lined_of_success hw)
  rw [hresume]
  refine ⟨hlt, List.length_set.trans length_inLine, ⟨none, nofun, rfl⟩, ?_⟩
  intro (c : Nat) call hcall
  by_cases hc : c = failures
  · subst hc
    rw [List.getElem?_set_self (length_inLine.symm ▸ hlt)] at hcall
    obtain rfl := Option.some.inj hcall
    exact ⟨rfl, Nat.le_refl c, rfl⟩
  · rw [List.getElem?_set_ne (Ne.symm hc)] at hcall
    have hcn : c < n := by
      have hlength := (List.getElem?_eq_some_iff.mp hcall).1
      rwa [length_inLine] at hlength
    obtain rfl := Option.some.inj ((call_inLine hcn).symm.trans hcall)
    refine ⟨rfl, ?_⟩
    rcases Nat.lt_or_gt_of_ne hc with hbefore | hbehind
    · rw [World.linedPhase_of_failed hbefore]
      exact (if_pos hbefore).symm
    · rw [World.linedPhase_of_waiting (Nat.le_of_lt hbehind) hbehind]
      exact Nat.le_of_lt hbehind

end InLine

/-! ## Runs of callers who have been released -/

section Released

variable {engine : Engine} {w : World} {n failures caller : Nat} {usable : Bool} {r : Run}

theorem Ended.resume (h : Ended w failures usable caller r) (other : Nat) :
    Ended w failures usable caller (r.resume engine other) :=
  call_applyAll_of_done h [.resume other]

variable (h : Released w n failures usable r)

include h

/-- **A step of a caller who has been released leaves the others alone.** -/
theorem Released.resume (caller : Nat) :
    Released w n failures usable (r.resume engine caller) := by
  refine ⟨h.reached, (r.length_resume engine caller).trans h.length, ?_⟩
  refine h.upholds.resume_of_step caller fun call hcall => ?_
  obtain ⟨hready, hserves⟩ := h.upholds.calls caller call hcall
  rw [hready]
  obtain ⟨hworld, hphase, -⟩ := World.serves_step engine h.upholds.world hserves
  exact ⟨hworld, ⟨rfl, hphase⟩, fun other call' _ hcall' => h.upholds.calls other call' hcall'⟩

theorem Released.call (hlt : caller < n) :
    ∃ phase, r.calls[caller]? = some ⟨.ready, phase⟩ ∧ w.Serves failures usable caller phase := by
  rw [← h.length] at hlt
  obtain ⟨hready, hserves⟩ := h.upholds.calls caller _ (List.getElem?_eq_getElem hlt)
  refine ⟨_, ?_, hserves⟩
  rw [List.getElem?_eq_getElem hlt, ← hready]

theorem Released.usable_of_attached (hattached : r.world.parser.attached.isSome = true) :
    usable = true := by
  obtain ⟨attached, hlive, hworld⟩ := h.upholds.world
  rw [hworld] at hattached
  exact (hlive hattached).2

theorem Released.ended_of_lt (hlt : caller < failures) : Ended w failures usable caller r := by
  obtain ⟨phase, hcall, hserves⟩ := h.call (Nat.lt_trans hlt h.reached)
  rw [Ended, hcall, hserves.eq_done (hserves.stepsLeft_of_lt hlt)]

/-- Nobody waits for anything any more. -/
theorem Released.ended_of_suspended (hlt : caller < n)
    (hsuspended : r.isSuspended caller = true) : Ended w failures usable caller r := by
  obtain ⟨phase, hcall, hserves⟩ := h.call hlt
  obtain ⟨attached, -, hworld⟩ := h.upholds.world
  rw [isSuspended, hcall, hworld] at hsuspended
  cases phase with
  | waiting | admitted | prepared => cases hsuspended
  | entering | atCell | loading => exact hserves.elim
  | done result => rw [Ended, hcall, show result = _ from hserves]

/-- A caller that is let go on comes to its end. -/
theorem Released.ended_settle {fuel : Nat} (hlt : caller < n) {phase : Phase}
    (hcall : r.calls[caller]? = some ⟨.ready, phase⟩) (hfuel : phase.stepsLeft ≤ fuel) :
    Ended w failures usable caller (settle engine caller fuel r) := by
  have hserves : w.Serves failures usable caller phase := (h.upholds.calls caller _ hcall).2
  induction fuel generalizing r phase with
  | zero => rw [settle, Ended, hcall, hserves.eq_done (Nat.le_zero.mp hfuel)]
  | succ fuel ih =>
      rw [settle]
      split
      · next hsuspended => exact h.ended_of_suspended hlt hsuspended
      · obtain ⟨-, hnext, hleft⟩ := World.serves_step engine h.upholds.world hserves
        refine ih (h.resume caller) ?_ (by omega) hnext
        rw [resume_eq hcall, List.getElem?_set_self (h.length ▸ hlt)]

end Released

end Run

end CodeBlocks
