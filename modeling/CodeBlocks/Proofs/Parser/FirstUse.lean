import CodeBlocks.Proofs.Parser.InLine
import CodeBlocks.Proofs.Parser.Lifecycle

/-! # First use by many callers — the order of errors and answers

    Callers who start in order, before the first load ends, stand in line
    in this order (`lineUp_eq`).  A round of all callers ends the load that
    is running and starts the next one (`round_inLine`), and the round in
    which a load succeeds ends all calls.  So from wherever the callers
    are, as many rounds as callers end all calls (`Underway.finish`), and
    the results do not depend on who was resumed when.

    Disposal while callers stand in line changes what the callers behind
    the failed loads end with, and nothing else (`Underway.dispose`). -/

namespace CodeBlocks

namespace Run

/-! ## Letting callers go on -/

section Polls

variable {engine : Engine} {r : Run} {caller : Caller}

/-- What every step of a caller keeps, letting it go on keeps. -/
theorem settle_keeps {P : Run → Prop} (hkeeps : ∀ r, P r → P (r.resume engine caller))
    (fuel : Nat) (h : P r) : P (settle engine caller fuel r) := by
  induction fuel generalizing r with
  | zero => exact h
  | succ fuel ih =>
      rw [settle]
      split
      · exact h
      · exact ih (hkeeps r h)

theorem settle_of_suspended (h : r.isSuspended caller = true) (fuel : Nat) :
    settle engine caller fuel r = r := by
  cases fuel with
  | zero => rfl
  | succ fuel => exact if_pos h

/-- A caller who is suspended and has no step to take is polled in vain. -/
theorem poll_of_still (hstill : r.resume engine caller = r) (h : r.isSuspended caller = true) :
    poll engine r caller = r := by
  rw [poll, hstill, settle_of_suspended h]

theorem polls_of_still {callers : List Caller} (h : ∀ c ∈ callers, poll engine r c = r) :
    callers.foldl (poll engine) r = r := by
  induction callers with
  | nil => rfl
  | cons c callers ih =>
      rw [List.foldl_cons, h c List.mem_cons_self]
      exact ih fun c' hc' => h c' (List.mem_cons_of_mem c hc')

theorem polls_succ (engine : Engine) (r : Run) (j : Nat) :
    (List.range (j + 1)).foldl (poll engine) r
      = poll engine ((List.range j).foldl (poll engine) r) j := by
  rw [List.range_succ, List.foldl_append]
  rfl

end Polls

/-! ## Finished runs -/

/-- All calls have ended as they should. -/
structure Finished (w : World) (n failures : Nat) (usable : Bool) (r : Run) : Prop where
  calls : r.calls = (List.range n).map fun c => ⟨.ready, .done (w.firstUse failures usable c)⟩
  loads : r.world.loader.loads = w.loader.loads + min n (failures + 1)
  attached : r.world.parser.attached.isSome = true → usable = true

section Finished

variable {engine : Engine} {w : World} {n failures : Nat} {usable : Bool} {r : Run}

theorem Finished.poll (h : Finished w n failures usable r) (caller : Caller) :
    poll engine r caller = r := by
  rcases Nat.lt_or_ge caller n with hlt | hge
  · have hcall : r.calls[caller]?
        = some ⟨.ready, .done (w.firstUse failures usable caller)⟩ := by
      rw [h.calls]
      simp [hlt]
    refine poll_of_still (resume_of_done hcall) ?_
    rw [isSuspended, hcall]
  · have hcall : r.calls[caller]? = none := by
      rw [h.calls]
      simp [hge]
    refine poll_of_still (resume_of_absent hcall) ?_
    rw [isSuspended, hcall]

/-- Nothing is left to do. -/
theorem Finished.rounds (h : Finished w n failures usable r) (count : Nat) :
    rounds engine count r = r := by
  induction count with
  | zero => rfl
  | succ count ih =>
      have hround : r.round engine = r := polls_of_still fun c _ => h.poll c
      rw [Run.rounds, hround, ih]

theorem Finished.results (h : Finished w n failures usable r) :
    r.results = List.replicate (min n failures) (.error (.grammar w.parser.language .unavailable))
      ++ List.replicate (n - failures) (w.ending usable) := by
  have hresults : r.results = (List.range n).map (w.firstUse failures usable) := by
    rw [Run.results, h.calls, List.filterMap_map, ← List.filterMap_eq_map]
    rfl
  rw [hresults]
  refine List.ext_getElem ?_ fun c hc _ => ?_
  · rw [List.length_append, List.length_map, List.length_range, List.length_replicate,
      List.length_replicate]
    omega
  · have hc : c < n := by simpa using hc
    rw [List.getElem_append]
    simp only [List.getElem_map, List.getElem_range, List.length_replicate,
      List.getElem_replicate, World.firstUse]
    by_cases hfails : c < failures
    · rw [if_pos hfails, dif_pos (by omega)]
    · rw [if_neg hfails, dif_neg (by omega)]

/-- When all who were released have ended, the run is finished. -/
theorem Released.finished (h : Released w n failures usable r)
    (hended : ∀ c < n, Ended w failures usable c r) : Finished w n failures usable r := by
  refine ⟨?_, ?_, h.usable_of_attached⟩
  · refine List.ext_getElem? fun c => ?_
    rcases Nat.lt_or_ge c n with hlt | hge
    · rw [hended c hlt]
      simp [hlt]
    · rw [List.getElem?_eq_none (h.length ▸ hge)]
      simp [hge]
  · obtain ⟨attached, -, hworld⟩ := h.upholds.world
    rw [hworld, Nat.min_eq_right h.reached]
    exact Loader.loads_after _

/-- Callers who are let go on in order end in order. -/
theorem Released.settle_next (h : Released w n failures usable r) {j : Nat} (hlt : j < n)
    (hended : ∀ c < j, Ended w failures usable c r) :
    Released w n failures usable (settle engine j World.callLength r) ∧
      ∀ c < j + 1, Ended w failures usable c (settle engine j World.callLength r) := by
  refine ⟨settle_keeps (fun _ hr => hr.resume j) _ h, ?_⟩
  intro c hc
  rcases Nat.lt_succ_iff_lt_or_eq.mp hc with hbefore | rfl
  · exact settle_keeps (fun _ hr => hr.resume j) _ (hended c hbefore)
  · obtain ⟨phase, hcall, -⟩ := h.call hlt
    exact h.ended_settle hlt hcall phase.stepsLeft_le

/-- From where the callers polled so far have ended, a round goes on to the end of each. -/
theorem polls_of_released {i j : Nat} (hij : i ≤ j) (hjn : j ≤ n)
    (h : Released w n failures usable ((List.range i).foldl (poll engine) r))
    (hended : ∀ c < i, Ended w failures usable c ((List.range i).foldl (poll engine) r)) :
    let r' := (List.range j).foldl (poll engine) r
    Released w n failures usable r' ∧ ∀ c < j, Ended w failures usable c r' := by
  induction hij with
  | refl => exact ⟨h, hended⟩
  | @step j _ ih =>
      obtain ⟨hreleased, hended⟩ := ih (Nat.le_of_succ_le hjn)
      rw [polls_succ]
      exact (hreleased.resume j).settle_next hjn fun c hc => (hended c hc).resume j

theorem Released.round (h : Released w n failures usable r) :
    Finished w n failures usable (r.round engine) := by
  rw [Run.round, h.length]
  obtain ⟨hreleased, hended⟩ := polls_of_released (Nat.zero_le n) (Nat.le_refl n) h nofun
  exact hreleased.finished hended

end Finished

/-! ## Rounds of callers in line -/

/-- How many of `n` callers in line can have failed and started. -/
structure Places (n failures failed started : Nat) : Prop where
  bound : failed ≤ failures
  failed_le : failed ≤ started
  started_le : started ≤ failed + 1
  within : started ≤ n
  begun : 0 < n → 0 < started

section Rounds

variable {engine : Engine} {w : World} {n failures failed started : Nat} {usable : Bool}
variable (hw : w.Awaits failures usable)

include hw

theorem poll_inLine_of_ne {caller : Nat} (hle : started ≤ failed + 1) (hlt : caller < n)
    (hne : caller ≠ failed) :
    poll engine (inLine w n failed started) caller = inLine w n failed started :=
  poll_of_still (resume_inLine_of_ne hw hle hne)
    (suspended_of_lined hw rfl (call_inLine hlt) (.inl hne))

theorem poll_inLine_start (hlt : failed < n) :
    poll engine (inLine w n failed failed) failed = inLine w n failed (failed + 1) := by
  have hloading : failed < failed + 1 := Nat.lt_succ_self failed
  rw [poll, resume_inLine_start hw hlt]
  exact settle_of_suspended (suspended_of_lined hw rfl (call_inLine hlt) (.inr hloading)) _

theorem poll_inLine_fail (hlt : failed < n) (hfails : failed < failures) :
    poll engine (inLine w n failed (failed + 1)) failed
      = inLine w n (failed + 1) (failed + 1) := by
  have hended : failed ≠ failed + 1 := Nat.ne_of_lt (Nat.lt_succ_self failed)
  rw [poll, resume_inLine_fail hw hlt hfails]
  exact settle_of_suspended (suspended_of_lined hw rfl (call_inLine hlt) (.inl hended)) _

/-- How far the callers polled so far have moved the line. -/
theorem polls_inLine (h : Places n failures failed started) (hfails : started ≤ failures) {j : Nat}
    (hjn : j ≤ n) :
    (List.range j).foldl (poll engine) (inLine w n failed started)
      = inLine w n (if failed < j then started else failed)
          (if started < j then started + 1 else started) := by
  have hfailed := h.failed_le
  have hstarted := h.started_le
  induction j with
  | zero => rfl
  | succ j ih =>
      rw [polls_succ, ih (Nat.le_of_succ_le hjn)]
      rcases Nat.lt_trichotomy j failed with hbefore | rfl | hbehind
      · -- a caller who has its error
        rw [if_neg (by omega), if_neg (by omega), if_neg (by omega), if_neg (by omega)]
        exact poll_inLine_of_ne hw hstarted hjn (Nat.ne_of_lt hbefore)
      · rw [if_neg (Nat.lt_irrefl j), if_neg (by omega), if_pos (Nat.lt_succ_self j)]
        rcases Nat.eq_or_lt_of_le hfailed with rfl | hloads
        · -- the caller whose turn has come
          rw [if_pos (Nat.lt_succ_self j)]
          exact poll_inLine_start hw hjn
        · -- the caller whose load ends
          obtain rfl : started = j + 1 := Nat.le_antisymm hstarted hloads
          rw [if_neg (Nat.lt_irrefl _)]
          exact poll_inLine_fail hw hjn hfails
      · rw [if_pos hbehind, if_pos (Nat.lt_succ_of_lt hbehind)]
        rcases Nat.lt_or_ge started j with hwaits | hturn
        · -- a caller behind the one who loads
          rw [if_pos hwaits, if_pos (Nat.lt_succ_of_lt hwaits)]
          exact poll_inLine_of_ne hw (Nat.le_refl _) hjn (Nat.ne_of_gt hwaits)
        · -- the caller behind the one whose load has just ended
          obtain rfl : started = j := by omega
          rw [if_neg (Nat.lt_irrefl _), if_pos (Nat.lt_succ_self _)]
          exact poll_inLine_start hw hjn

/-- **A round ends the load that is running and starts the next.** -/
theorem round_inLine (h : Places n failures failed started) (hfails : started ≤ failures) :
    (inLine w n failed started).round engine = inLine w n started (min n (started + 1)) := by
  have hwithin := h.within
  have hfailed : (if failed < n then started else failed) = started := by
    have := h.failed_le
    split <;> omega
  have hstarted : (if started < n then started + 1 else started) = min n (started + 1) := by
    split <;> omega
  rw [Run.round, length_inLine, polls_inLine hw h hfails (Nat.le_refl n), hfailed, hstarted]

/-- The round in which a load succeeds is the last. -/
theorem round_inLine_last (hlt : failures < n) :
    Finished w n failures usable ((inLine w n failures (failures + 1)).round engine) := by
  have hbefore : (List.range failures).foldl (poll engine) (inLine w n failures (failures + 1))
      = inLine w n failures (failures + 1) := by
    refine polls_of_still fun c hc => ?_
    have hc : c < failures := List.mem_range.mp hc
    exact poll_inLine_of_ne hw (Nat.le_refl _) (Nat.lt_trans hc hlt) (Nat.ne_of_lt hc)
  have hreleased : Released w n failures usable
      ((inLine w n failures (failures + 1)).resume engine failures) :=
    resume_inLine_succeed hw hlt
  obtain ⟨hsettled, hfirst⟩ :=
    hreleased.settle_next hlt fun c hc => hreleased.ended_of_lt hc
  rw [Run.round, length_inLine]
  obtain ⟨hall, hended⟩ := polls_of_released hlt (Nat.le_refl n)
    (by rw [polls_succ, hbefore]; exact hsettled) (by rw [polls_succ, hbefore]; exact hfirst)
  exact hall.finished hended

/-- When all have failed, no load is left to succeed. -/
theorem Places.finished (h : Places n failures n started) :
    Finished w n failures usable (inLine w n n started) := by
  obtain rfl : started = n := Nat.le_antisymm h.within h.failed_le
  refine ⟨?_, ?_, hw.usable_of_attached⟩
  · refine List.map_congr_left fun c hc => ?_
    have hc : c < started := List.mem_range.mp hc
    rw [World.linedPhase_of_failed hc, World.firstUse, if_pos (Nat.lt_of_lt_of_le hc h.bound)]
  · rw [Nat.min_eq_left (Nat.le_succ_of_le h.bound)]
    exact Loader.loads_after _

/-- Each round starts one more load, so there is a round for each caller. -/
theorem Places.rounds (h : Places n failures failed started) {count : Nat}
    (hcount : failed = n ∨ n < started + count) :
    Finished w n failures usable (rounds engine count (inLine w n failed started)) := by
  have hwithin := h.within
  have hfailed := h.failed_le
  induction count generalizing failed started with
  | zero =>
      obtain rfl : failed = n := by omega
      exact h.finished hw
  | succ count ih =>
      rw [Run.rounds]
      rcases Nat.lt_or_ge failures started with hlast | hfails
      · obtain rfl : failed = failures :=
          Nat.le_antisymm h.bound (Nat.le_of_lt_succ (Nat.lt_of_lt_of_le hlast h.started_le))
        obtain rfl : started = failed + 1 := Nat.le_antisymm h.started_le hlast
        have hfinished : Finished w n failed usable
            ((inLine w n failed (failed + 1)).round engine) := round_inLine_last hw hwithin
        rw [hfinished.rounds]
        exact hfinished
      · rw [round_inLine hw h hfails]
        have hplaces : Places n failures started (min n (started + 1)) :=
          ⟨hfails, by omega, Nat.min_le_right _ _, Nat.min_le_left _ _, by omega⟩
        exact ih hplaces (by omega) hplaces.within hplaces.failed_le

end Rounds

/-! ## Every order of steps -/

/-- Callers stand in line or have been released. -/
inductive Underway (w : World) (n failures : Nat) (usable : Bool) : Run → Prop where
  | inLine {failed started : Nat} : Places n failures failed started →
      Underway w n failures usable (inLine w n failed started)
  | released {r : Run} : Released w n failures usable r → Underway w n failures usable r

section Underway

variable {engine : Engine} {w : World} {n failures failed started : Nat} {usable : Bool}
variable {r : Run}

/-- While there is no grammar, callers stand in line. -/
theorem Underway.exists_inLine (h : Underway w n failures usable r)
    (hempty : r.world.parser.grammar = none) :
    ∃ failed started, Places n failures failed started ∧ r = Run.inLine w n failed started := by
  cases h with
  | @inLine failed started hplaces => exact ⟨failed, started, hplaces, rfl⟩
  | released hreleased =>
      obtain ⟨attached, -, hworld⟩ := hreleased.upholds.world
      rw [hworld] at hempty
      cases hempty

/-- Disposal leaves everybody in line. -/
theorem Underway.dispose (h : Underway w n failures usable r)
    (hempty : r.world.parser.grammar = none) :
    Underway { w with parser := w.parser.dispose } n failures usable r.dispose := by
  obtain ⟨failed, started, hplaces, rfl⟩ := h.exists_inLine hempty
  have hinLine : (Run.inLine w n failed started).dispose
      = Run.inLine { w with parser := w.parser.dispose } n failed started := by
    cases hdisposed : w.parser.disposed <;>
      simp [Run.inLine, Run.dispose, World.lined, World.linedPhase, LanguageParser.dispose,
        hdisposed]
  rw [hinLine]
  exact .inLine hplaces

variable (hw : w.Awaits failures usable)

include hw

/-- **A step of a caller in line moves the line on or does nothing.** -/
theorem Places.resume (h : Places n failures failed started) (caller : Nat) :
    Underway w n failures usable ((Run.inLine w n failed started).resume engine caller) := by
  by_cases hturn : caller = failed
  · subst hturn
    rcases Nat.eq_or_lt_of_le h.failed_le with rfl | hloads
    · rcases Nat.lt_or_ge caller n with hlt | hge
      · rw [resume_inLine_start hw hlt]
        exact .inLine ⟨h.bound, Nat.le_succ _, Nat.le_refl _, hlt, fun _ => Nat.succ_pos _⟩
      · rw [resume_of_absent (call_inLine_of_le hge)]
        exact .inLine h
    · obtain rfl : started = caller + 1 := Nat.le_antisymm h.started_le hloads
      rcases Nat.eq_or_lt_of_le h.bound with rfl | hfails
      · exact .released (resume_inLine_succeed hw h.within)
      · rw [resume_inLine_fail hw h.within hfails]
        exact .inLine ⟨hfails, Nat.le_refl _, Nat.le_succ _, h.within, fun _ => Nat.succ_pos _⟩
  · rw [resume_inLine_of_ne hw h.started_le hturn]
    exact .inLine h

/-- Whoever is resumed, callers stand in line or have been released. -/
theorem Underway.resumes (h : Underway w n failures usable r) (callers : List Caller) :
    Underway w n failures usable (r.applyAll engine (callers.map .resume)) := by
  induction callers generalizing r with
  | nil => exact h
  | cons caller callers ih =>
      refine ih ?_
      cases h with
      | inLine hplaces => exact hplaces.resume hw caller
      | released hreleased => exact .released (hreleased.resume caller)

/-- **From wherever they are, as many rounds as callers end all calls.** -/
theorem Underway.finish (h : Underway w n failures usable r) :
    Finished w n failures usable (rounds engine n r) := by
  cases h with
  | inLine hplaces =>
      refine hplaces.rounds hw ?_
      have := hplaces.begun
      have := hplaces.failed_le
      have := hplaces.within
      omega
  | released hreleased =>
      obtain ⟨m, rfl⟩ := Nat.exists_eq_succ_of_ne_zero (Nat.ne_zero_of_lt hreleased.reached)
      have hfinished : Finished w (m + 1) failures usable (r.round engine) := hreleased.round
      rw [Run.rounds, hfinished.rounds]
      exact hfinished

/-- Only a usable grammar is ever attached. -/
theorem Underway.usable_of_attached (h : Underway w n failures usable r)
    (hattached : r.world.parser.attached.isSome = true) : usable = true := by
  cases h with
  | inLine _ => exact hw.usable_of_attached hattached
  | released hreleased => exact hreleased.usable_of_attached hattached

end Underway

/-! ## Getting in line -/

/-- Callers who want the parser ready start in order, and each goes as far as it can without
    waiting: the beginning of `readyTogether`. -/
def lineUp (engine : Engine) (w : World) (n : Nat) : Run :=
  ((List.replicate n Query.ready).foldl enter (start w)).round engine

/-- The run of `n` callers of whom the first `j` are in line. -/
def arriving (w : World) (n j : Nat) : Run :=
  ⟨w.lined j 0 (min j 1), (List.range n).map fun c =>
    ⟨.ready, if c < j then w.linedPhase 0 (min j 1) c else .entering⟩⟩

section LineUp

variable {engine : Engine} {w : World} {n failures j : Nat} {usable : Bool}

theorem foldl_enter (r : Run) (q : Query) (n : Nat) :
    (List.replicate n q).foldl enter r
      = ⟨r.world, r.calls ++ List.replicate n ⟨q, .entering⟩⟩ := by
  induction n generalizing r with
  | zero => simp
  | succ n ih =>
      rw [List.replicate_succ, List.foldl_cons, ih]
      simp [enter, List.replicate_succ]

theorem length_arriving : (arriving w n j).calls.length = n := by simp [arriving]

/-- A caller at the cell is the next in line. -/
theorem resume_arriving (hw : w.Awaits failures usable) (hlt : j < n) :
    (Run.mk (w.lined j 0 (min j 1))
      ((arriving w n j).calls.set j ⟨.ready, .atCell⟩)).resume engine j
        = arriving w n (j + 1) := by
  have hone : min (j + 1) 1 = 1 := by omega
  have hcall : ((arriving w n j).calls.set j ⟨.ready, .atCell⟩)[j]? = some ⟨.ready, .atCell⟩ :=
    List.getElem?_set_self (length_arriving.symm ▸ hlt)
  have hown : w.linedPhase 0 1 j = if j < j + 1 then w.linedPhase 0 1 j else .entering :=
    (if_pos (Nat.lt_succ_self j)).symm
  rw [resume_eq hcall]
  show Run.mk ((w.lined j 0 (min j 1)).enterCell j).1
    (((arriving w n j).calls.set j ⟨.ready, .atCell⟩).set j
      ⟨.ready, ((w.lined j 0 (min j 1)).enterCell j).2⟩) = _
  rw [World.enterCell_lined hw, List.set_set]
  dsimp only [arriving]
  rw [hone, hown]
  refine congrArg (Run.mk _) (set_map_range
    (g := fun c => (⟨.ready, if c < j + 1 then w.linedPhase 0 1 c else .entering⟩ : Call)) ?_ n)
  intro c hc
  rcases Nat.lt_or_gt_of_ne hc with hbefore | hbehind
  · have hone : min j 1 = 1 := by omega
    rw [if_pos hbefore, if_pos (Nat.lt_succ_of_lt hbefore), hone]
  · rw [if_neg (by omega), if_neg (by omega)]

/-- A caller that starts is in line when it first has to wait. -/
theorem poll_arriving (hw : w.Awaits failures usable) (hlive : w.parser.disposed = false)
    (hlt : j < n) : poll engine (arriving w n j) j = arriving w n (j + 1) := by
  have henter : (arriving w n j).resume engine j
      = ⟨w.lined j 0 (min j 1), (arriving w n j).calls.set j ⟨.ready, .atCell⟩⟩ := by
    have hcall : (arriving w n j).calls[j]? = some ⟨.ready, .entering⟩ := by
      simp [arriving, hlt]
    have hstep : (w.lined j 0 (min j 1)).step engine j .ready .entering
        = (w.lined j 0 (min j 1), .atCell) := by
      simp [World.step, Query.immediate?, World.lined, hlive]
    rw [resume_eq hcall]
    exact congrArg (fun next : World × Phase => Run.mk next.1
      ((arriving w n j).calls.set j ⟨.ready, next.2⟩)) hstep
  have hgoes : ¬ (Run.mk (w.lined j 0 (min j 1))
      ((arriving w n j).calls.set j ⟨.ready, .atCell⟩)).isSuspended j = true := by
    simp [isSuspended, length_arriving, hlt]
  have hwaits : (arriving w n (j + 1)).isSuspended j = true := by
    refine suspended_of_lined hw rfl ?_ (.inr (by omega))
    simp [arriving, hlt]
  rw [poll, henter, World.callLength, settle, if_neg hgoes, resume_arriving hw hlt,
    settle_of_suspended hwaits]

/-- **Callers who start in order stand in line in this order**, behind the first load. -/
theorem lineUp_eq (hw : w.Awaits failures usable) (hlive : w.parser.disposed = false)
    (hturn : w.parser.turn = none) (hline : w.parser.line = []) :
    lineUp engine w n = inLine w n 0 (min n 1) := by
  have hworld : w.lined 0 0 (min 0 1) = w := by
    show World.mk w.loader { w.parser with turn := none, line := [] } = w
    rw [← hturn, ← hline]
  have hstart : (List.replicate n Query.ready).foldl enter (start w) = arriving w n 0 := by
    rw [foldl_enter, arriving, hworld]
    simp [start, List.map_const']
  have hpolls : ∀ j ≤ n, (List.range j).foldl (poll engine) (arriving w n 0) = arriving w n j := by
    intro j hj
    induction j with
    | zero => rfl
    | succ j ih => rw [polls_succ, ih (Nat.le_of_succ_le hj), poll_arriving hw hlive hj]
  rw [lineUp, hstart, Run.round, length_arriving, hpolls n (Nat.le_refl n)]
  refine congrArg (Run.mk _) (List.map_congr_left fun c hc => ?_)
  rw [if_pos (List.mem_range.mp hc)]

/-- Nobody has failed yet. -/
theorem results_inLine_zero (started : Nat) : (inLine w n 0 started).results = [] := by
  refine List.filterMap_eq_nil_iff.mpr fun call hcall => ?_
  obtain ⟨c, -, rfl⟩ := List.mem_map.mp hcall
  rcases Nat.lt_or_ge c started with hloads | hwaits
  · rw [World.linedPhase_of_loading (Nat.zero_le c) hloads]
  · rw [World.linedPhase_of_waiting (Nat.zero_le c) hwaits]

end LineUp

end Run

/-! ## Before the first use -/

/-- Where a parser gets its grammar from does not change, and nobody waits unless it is somebody's
    turn. -/
structure LanguageParser.Attended (source : GrammarSource) (p : LanguageParser) : Prop where
  source : p.source = source
  line : p.turn = none → p.line = []

theorem LanguageParser.Attended.obtains {engine : Engine} {source : GrammarSource}
    {p : LanguageParser} {d : Document} {result : Except Error SharedTree × LanguageParser}
    (h : p.Attended source) (hobtains : Obtains engine p d result) : result.2.Attended source := by
  cases hobtains with
  | refused _ => exact h
  | found _ _ => exact ⟨h.source, h.line⟩
  | failed _ _ => exact h
  | stored _ _ => exact ⟨h.source, h.line⟩

theorem World.attended_step {source : GrammarSource} {w : World} (engine : Engine)
    (caller : Caller) (q : Query) (phase : Phase) (h : w.parser.Attended source) :
    (w.step engine caller q phase).1.parser.Attended source := by
  cases phase with
  | entering =>
      simp only [step]
      split
      · exact h
      · split <;> exact h
  | atCell =>
      show (w.enterCell caller).1.parser.Attended source
      rw [enterCell]
      split
      · exact h
      · split
        · exact ⟨h.source, fun hfree => absurd hfree (Option.some_ne_none caller)⟩
        · next hturn =>
            refine ⟨h.source, fun hfree => ?_⟩
            cases hturn.symm.trans hfree
  | waiting =>
      show (w.keepWaiting caller).1.parser.Attended source
      rw [keepWaiting]
      split
      · exact h
      · split
        · exact ⟨h.source, fun hfree => absurd hfree (Option.some_ne_none caller)⟩
        · exact h
  | loading outcome =>
      cases outcome with
      | ok grammar => exact ⟨h.source, fun _ => rfl⟩
      | error e =>
          refine ⟨h.source, fun hfree => ?_⟩
          have hline : w.parser.line = [] := List.head?_eq_none_iff.mp hfree
          show w.parser.line.tail = []
          rw [hline]
          rfl
  | admitted grammar =>
      show (w.attach grammar).1.parser.Attended source
      dsimp only [attach]
      split
      · exact h
      · split
        · exact h
        · split
          · exact ⟨h.source, h.line⟩
          · exact h
  | prepared =>
      show (w.respond engine q).1.parser.Attended source
      rw [respond]
      split
      · exact h
      · exact h.obtains (LanguageParser.obtains_parseDocument engine w.parser _)
      · exact h
  | done result => exact h

theorem Run.inductive_attended (engine : Engine) (source : GrammarSource) :
    Inductive engine (fun _ => True) (fun w => w.parser.Attended source) (fun _ _ => True) where
  enter _ _ := trivial
  step caller q _ phase h _ := ⟨World.attended_step engine caller q phase h, trivial⟩
  dispose w h := by
    dsimp only [LanguageParser.dispose]
    split
    · exact h
    · exact ⟨h.source, h.line⟩

/-- **First use by many callers.**  After any run of a parser that fetches its grammar, let it be
    live, without a grammar and with no load under way, and let the next `failures` loads fail and
    the one after them succeed.  Of `n` callers who want the parser ready, started in order and all
    suspended before the first load ends, the first get the error of their own load.  In whatever
    order they are resumed, all others succeed; or get the error that the grammar cannot be
    attached, and none ever is, if it is not usable; or are told that the parser is disposed, if
    that was before a load succeeded.  The number of loads is the same each time. -/
theorem first_use_ends_in_order (engine : Engine) (language : Language) (config : ParserConfig)
    (loader : Loader) (events : List Event) (n failures : Nat) (usable : Bool) :
    let w := (Run.applyAll engine
      (Run.start ⟨loader, LanguageParser.new language config .fetched⟩) events).world
    w.parser.disposed = false → w.parser.grammar = none → w.parser.turn = none →
    w.loader.FailsNext language failures usable →
    let started := Run.lineUp engine w n
    let errors := List.replicate (min n failures) (.error (.grammar language .unavailable))
    let loads := w.loader.loads + min n (failures + 1)
    (∀ caller < n, started.isSuspended caller = true) ∧ started.results = [] ∧
    ∀ before after : List Caller,
      let r := started.applyAll engine (before.map .resume)
      let ended := Run.rounds engine n r
      (ended.results = errors ++ List.replicate (n - failures)
          (if usable then .ok .ready else .error (.grammar language .incompatible)) ∧
        ended.world.loader.loads = loads ∧
        (usable = false → r.world.parser.attached = none ∧ ended.world.parser.attached = none)) ∧
      (r.world.parser.grammar = none →
        let ended := Run.rounds engine n (r.dispose.applyAll engine (after.map .resume))
        ended.results = errors ++ List.replicate (n - failures) (.error .disposed) ∧
        ended.world.loader.loads = loads) := by
  intro w hlive hempty hturn hnext started errors loads
  have horderly : w.parser.Orderly :=
    ((Run.preserved_orderly engine).upholds _ (LanguageParser.orderly_new language config .fetched)
      fun _ _ => trivial).world
  have hattended : w.parser.Attended .fetched :=
    ((Run.inductive_attended engine .fetched).holds _ ⟨rfl, fun _ => rfl⟩ fun _ _ => trivial).world
  have hlanguage : w.parser.language = language :=
    (Run.persists_applyAll engine _ events).language
  have hdetached : w.parser.attached = none := by
    refine Option.not_isSome_iff_eq_none.mp fun hattached => ?_
    have hloaded := horderly.loaded hattached
    rw [hempty] at hloaded
    cases hloaded
  have hw : w.Awaits failures usable := ⟨hattended.source, hempty, hdetached, hlanguage ▸ hnext⟩
  have hstarted : started = Run.inLine w n 0 (min n 1) :=
    Run.lineUp_eq hw hlive hturn (hattended.line hturn)
  have hunderway : Run.Underway w n failures usable started := by
    rw [hstarted]
    exact .inLine ⟨Nat.zero_le _, Nat.zero_le _, Nat.min_le_right _ _, Nat.min_le_left _ _,
      by omega⟩
  refine ⟨?_, ?_, ?_⟩
  · intro caller hlt
    rw [hstarted]
    refine Run.suspended_of_lined hw rfl (Run.call_inLine hlt) (.inr ?_)
    omega
  · rw [hstarted, Run.results_inLine_zero]
  · intro before after r ended
    have hr : Run.Underway w n failures usable r := hunderway.resumes hw before
    have hended : Run.Finished w n failures usable ended := hr.finish hw
    refine ⟨⟨?_, hended.loads, ?_⟩, ?_⟩
    · have hending : w.ending usable
          = if usable then .ok .ready else .error (.grammar language .incompatible) := by
        rw [World.ending, hlive, hlanguage]
        rfl
      rw [hended.results, hending, hlanguage]
    · intro hunusable
      have hnone : ¬ usable = true := Bool.eq_false_iff.mp hunusable
      exact ⟨Option.not_isSome_iff_eq_none.mp fun h => hnone (hr.usable_of_attached hw h),
        Option.not_isSome_iff_eq_none.mp fun h => hnone (hended.attached h)⟩
    · intro hcell ended
      have hended : Run.Finished { w with parser := w.parser.dispose } n failures usable ended :=
        ((hr.dispose hcell).resumes hw.dispose after).finish hw.dispose
      have hending : World.ending { w with parser := w.parser.dispose } usable
          = .error .disposed := if_pos w.parser.disposed_dispose
      refine ⟨?_, hended.loads⟩
      rw [hended.results, hending, (LanguageParser.persists_dispose w.parser).language, hlanguage]

/-- One load has failed before, and one more fails.  Of three callers the first gets its error; the
    others succeed, or are told that the parser is disposed if this happens now. -/
theorem first_use_after_failure :
    let engine : Engine := fun _ _ => none
    let w := (Run.applyAll engine (Run.start ⟨Loader.fresh fun _ earlier =>
        if earlier < 2 then .failure else .success true,
      LanguageParser.new .rust .standard .fetched⟩)
      [.call .ready, .resume 0, .resume 0, .resume 0]).world
    let r := (Run.lineUp engine w 3).applyAll engine ([0].map .resume)
    let ended := Run.rounds engine 3 r
    let disposed := Run.rounds engine 3 (r.dispose.applyAll engine ([2, 1].map .resume))
    w.loader.loads = 1 ∧
    ended.results = [.error (.grammar .rust .unavailable), .ok .ready, .ok .ready] ∧
    ended.world.loader.loads = w.loader.loads + 2 ∧
    disposed.results = [.error (.grammar .rust .unavailable), .error .disposed, .error .disposed] ∧
    disposed.world.loader.loads = w.loader.loads + 2 := by
  intro engine
  obtain ⟨-, -, hended⟩ := first_use_ends_in_order engine .rust .standard
    (Loader.fresh fun _ earlier => if earlier < 2 then .failure else .success true)
    [.call .ready, .resume 0, .resume 0, .resume 0] 3 1 true (by decide +kernel)
    (by decide +kernel) (by decide +kernel) ⟨by decide +kernel, by decide +kernel⟩
  obtain ⟨⟨hresults, hloads, -⟩, hdisposed⟩ := hended [0] [2, 1]
  obtain ⟨hresults', hloads'⟩ := hdisposed (by decide +kernel)
  exact ⟨by decide +kernel, hresults, hloads, hresults', hloads'⟩

end CodeBlocks
