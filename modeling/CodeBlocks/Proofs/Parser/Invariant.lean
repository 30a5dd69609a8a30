import CodeBlocks.Parser.Run

/-! # Invariants of a run — from one step to every interleaving

    A property of a run has two parts: one of the parser with its loader,
    and one of each call, which may speak of the parser and of the caller
    too.  If one step of one call keeps the first part and its own second
    part, if it leaves the second part of every other call alone, and if
    disposal does the same, then every list of events keeps both: the
    order in which calls are resumed does not matter.

    Where the second part is about the call alone, other calls need not be
    looked at (`Inductive`). -/

namespace CodeBlocks.Run

/-- A property of the parser, and one of every call in view of the parser. -/
structure Upholds (I : World → Prop) (J : World → Caller → Query → Phase → Prop) (r : Run) :
    Prop where
  world : I r.world
  calls : ∀ caller call, r.calls[caller]? = some call → J r.world caller call.query call.phase

/-- What has to be shown once for such a property to survive every event: a new call has it,
    one step of one call keeps it for this call and for all others, and so does disposal. -/
structure Preserved (engine : Engine) (asked : Query → Prop) (I : World → Prop)
    (J : World → Caller → Query → Phase → Prop) : Prop where
  enter : ∀ (w : World) (caller : Caller) (q : Query), asked q → I w → J w caller q .entering
  step : ∀ (w : World) (caller : Caller) (q : Query) (phase : Phase), I w → J w caller q phase →
    I (w.step engine caller q phase).1 ∧
      J (w.step engine caller q phase).1 caller q (w.step engine caller q phase).2
  others : ∀ (w : World) (caller : Caller) (q : Query) (phase : Phase), I w →
    J w caller q phase → ∀ (other : Caller) (q' : Query) (phase' : Phase), other ≠ caller →
    J w other q' phase' → J (w.step engine caller q phase).1 other q' phase'
  dispose : ∀ w : World, I w → I { w with parser := w.parser.dispose } ∧
    ∀ caller q phase, J w caller q phase → J { w with parser := w.parser.dispose } caller q phase

section Upholds

variable {engine : Engine} {asked : Query → Prop} {I : World → Prop}
variable {J : World → Caller → Query → Phase → Prop} {r : Run}

theorem Upholds.enter (hkept : Preserved engine asked I J) (h : Upholds I J r) {q : Query}
    (hq : asked q) : Upholds I J (r.enter q) := by
  refine ⟨h.world, ?_⟩
  intro caller call hcall
  rcases Nat.lt_or_ge caller r.calls.length with hlt | hge
  · rw [Run.enter, List.getElem?_append_left hlt] at hcall
    exact h.calls caller call hcall
  · rw [Run.enter, List.getElem?_append_right hge] at hcall
    obtain rfl := List.mem_singleton.mp (List.mem_of_getElem? hcall)
    exact hkept.enter r.world caller q hq h.world

/-- A step keeps the property if it keeps the part of the parser, that of its own call and those of
    all other calls. -/
theorem Upholds.resume_of_step (h : Upholds I J r) (caller : Caller)
    (hstep : ∀ call, r.calls[caller]? = some call →
      let next := r.world.step engine caller call.query call.phase
      I next.1 ∧ J next.1 caller call.query next.2 ∧
        ∀ other call', other ≠ caller → r.calls[other]? = some call' →
          J next.1 other call'.query call'.phase) :
    Upholds I J (r.resume engine caller) := by
  rw [Run.resume]
  split
  · exact h
  · next call hcall =>
      obtain ⟨hworld, hphase, hothers⟩ := hstep call hcall
      refine ⟨hworld, ?_⟩
      intro other call' hcall'
      by_cases heq : other = caller
      · subst heq
        have hlt : other < r.calls.length := (List.getElem?_eq_some_iff.mp hcall).1
        rw [List.getElem?_set_self hlt] at hcall'
        obtain rfl := Option.some.inj hcall'
        exact hphase
      · rw [List.getElem?_set_ne (Ne.symm heq)] at hcall'
        exact hothers other call' heq hcall'

/-- A step of any caller keeps the property: its own part, and the parts of the others. -/
theorem Upholds.resume (hkept : Preserved engine asked I J) (h : Upholds I J r)
    (caller : Caller) : Upholds I J (r.resume engine caller) := by
  refine h.resume_of_step caller fun call hcall => ?_
  have hown := h.calls caller call hcall
  obtain ⟨hworld, hphase⟩ := hkept.step r.world caller call.query call.phase h.world hown
  refine ⟨hworld, hphase, ?_⟩
  intro other call' hne hcall'
  exact hkept.others r.world caller call.query call.phase h.world hown other call'.query
    call'.phase hne (h.calls other call' hcall')

theorem Upholds.dispose (hkept : Preserved engine asked I J) (h : Upholds I J r) :
    Upholds I J r.dispose := by
  obtain ⟨hworld, hcalls⟩ := hkept.dispose r.world h.world
  exact ⟨hworld, fun caller call hcall => hcalls _ _ _ (h.calls caller call hcall)⟩

/-- An event keeps the property, if what it asks may be asked. -/
theorem Upholds.apply (hkept : Preserved engine asked I J) (h : Upholds I J r) (event : Event)
    (hasked : ∀ q, event = .call q → asked q) : Upholds I J (r.apply engine event) := by
  cases event with
  | call q => exact h.enter hkept (hasked q rfl)
  | resume caller => exact h.resume hkept caller
  | dispose => exact h.dispose hkept

/-- Every list of events keeps the property. -/
theorem Upholds.applyAll (hkept : Preserved engine asked I J) (events : List Event)
    (hasked : ∀ q, .call q ∈ events → asked q) (h : Upholds I J r) :
    Upholds I J (r.applyAll engine events) := by
  induction events generalizing r with
  | nil => exact h
  | cons event events ih =>
      have hfirst : Upholds I J (r.apply engine event) :=
        h.apply hkept event fun q heq => hasked q (heq ▸ List.mem_cons_self)
      exact ih (fun q hq => hasked q (List.mem_cons_of_mem event hq)) hfirst

theorem upholds_start {w : World} (hw : I w) : Upholds I J (Run.start w) :=
  ⟨hw, fun _ _ hcall => nomatch hcall⟩

/-- Every run that starts with the property has it to the end. -/
theorem Preserved.upholds (hkept : Preserved engine asked I J) (w : World) (hw : I w)
    {events : List Event} (hasked : ∀ q, .call q ∈ events → asked q) :
    Upholds I J ((Run.start w).applyAll engine events) :=
  (upholds_start hw).applyAll hkept events hasked

end Upholds

/-! ## Properties of each call by itself -/

/-- A property of the parser and a property of every call. -/
structure Holds (I : World → Prop) (J : Query → Phase → Prop) (r : Run) : Prop where
  world : I r.world
  calls : ∀ call ∈ r.calls, J call.query call.phase

/-- What has to be shown once for a property to survive every event: a new call
    has it, one step of one call keeps it, and so does disposal. -/
structure Inductive (engine : Engine) (asked : Query → Prop) (I : World → Prop)
    (J : Query → Phase → Prop) : Prop where
  enter : ∀ q, asked q → J q .entering
  step : ∀ (caller : Caller) (q : Query) (w : World) (phase : Phase), I w → J q phase →
    I (w.step engine caller q phase).1 ∧ J q (w.step engine caller q phase).2
  dispose : ∀ w : World, I w → I { w with parser := w.parser.dispose }

variable {engine : Engine} {asked : Query → Prop} {I : World → Prop}
variable {J : Query → Phase → Prop}

/-- What is about a call alone is not touched by others. -/
theorem Inductive.preserved (hind : Inductive engine asked I J) :
    Preserved engine asked I fun _ _ q phase => J q phase where
  enter _ _ q hq _ := hind.enter q hq
  step w caller q phase hw hcall := hind.step caller q w phase hw hcall
  others _ _ _ _ _ _ _ _ _ _ hother := hother
  dispose w hw := ⟨hind.dispose w hw, fun _ _ _ hcall => hcall⟩

/-- Every run that starts with the property has it to the end. -/
theorem Inductive.holds (hind : Inductive engine asked I J) (w : World) (hw : I w)
    {events : List Event} (hasked : ∀ q, .call q ∈ events → asked q) :
    Holds I J ((Run.start w).applyAll engine events) := by
  have hupholds := hind.preserved.upholds w hw hasked
  refine ⟨hupholds.world, ?_⟩
  intro call hcall
  obtain ⟨caller, hat⟩ := List.getElem?_of_mem hcall
  exact hupholds.calls caller call hat

end CodeBlocks.Run
