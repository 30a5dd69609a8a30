import CodeBlocks.Proofs.Parser.Refusal
import CodeBlocks.Proofs.Parser.Transparency

/-! # Deliveries — the one step that touches the store

    A call takes many steps, and can fail at most of them: the parser may be
    disposed before or after the load, the load may fail, the grammar may
    not be usable, the engine may have no tree.  The store is touched by
    none of these.  It is touched by the last step of a call about a
    document that gets its tree, found or parsed: by a delivery.

    `World.StoreStep` says once what a step of a call can do to the store.
    So a call that fails leaves the store as it was, and a call about a
    plain text leaves it so in any case. -/

namespace CodeBlocks

/-- The store is as it was: the same documents, used in the same order. -/
structure LanguageParser.SameStore (p p' : LanguageParser) : Prop where
  trees : p'.trees = p.trees
  parses : p'.parses = p.parses
  disposed : p'.disposed = p.disposed

namespace LanguageParser

theorem SameStore.refl (p : LanguageParser) : p.SameStore p := ⟨rfl, rfl, rfl⟩

theorem SameStore.trans {p p' p'' : LanguageParser} (h : p.SameStore p') (h' : p'.SameStore p'') :
    p.SameStore p'' :=
  ⟨h'.trees.trans h.trees, h'.parses.trans h.parses, h'.disposed.trans h.disposed⟩

/-- A document that is not delivered leaves the store alone. -/
theorem Obtains.sameStore {engine : Engine} {p p' : LanguageParser} {d : Document} {e : Error}
    (h : Obtains engine p d (.error e, p')) : p.SameStore p' := by
  cases h with
  | refused _ => exact .refl p
  | failed _ _ => exact .refl p

end LanguageParser

/-- A question about a document is never answered at once. -/
theorem Query.immediate?_of_document {q : Query} {d : Document} (h : q.subject = .document d)
    (language : Language) : q.immediate? language = none := by
  cases q with
  | imports text => cases h
  | types text => cases h
  | _ => rfl

/-- Whether a call has its answer. -/
def Phase.isAnswered : Phase → Bool
  | .done (.ok _) => true
  | _             => false

namespace World

/-- The tree that a call is given with its next step, under the key of its document. -/
def delivery? (engine : Engine) (w : World) (q : Query) : Phase → Option (String × SharedTree)
  | .prepared =>
      match q.subject with
      | .document d =>
          (w.parser.parseDocument engine d).1.toOption.map fun shared => (d.key, shared)
      | _ => none
  | _ => none

/-- All that a step of a call can do to the store: leave it alone without an answer about a
    document, or deliver a document and answer. -/
inductive StoreStep (engine : Engine) (w : World) (q : Query) (phase : Phase) :
    World × Phase → Option (String × SharedTree) → Prop where
  | pass {next : World × Phase} : w.parser.SameStore next.1.parser →
      (∀ d answer, q.subject = .document d → next.2 = .done (.ok answer) → phase = next.2) →
      StoreStep engine w q phase next none
  | deliver {d : Document} {shared : SharedTree} {p : LanguageParser} : phase = .prepared →
      q.subject = .document d → w.parser.parseDocument engine d = (.ok shared, p) →
      StoreStep engine w q phase
        ({ w with parser := p }, .done (.ok (q.answer w.parser shared))) (some (d.key, shared))

variable {engine : Engine} {w : World} {q : Query}

/-- A step that leaves the store alone and gives no answer. -/
theorem StoreStep.still {phase : Phase} {next : World × Phase}
    (hsame : w.parser.SameStore next.1.parser) (hopen : next.2.isAnswered = false) :
    w.StoreStep engine q phase next none := by
  refine .pass hsame ?_
  intro d answer _ hdone
  rw [hdone] at hopen
  cases hopen

theorem storeStep_entering (caller : Caller) :
    w.StoreStep engine q .entering (w.step engine caller q .entering) none := by
  simp only [step]
  split
  · next answer hanswer =>
      refine .pass (.refl _) ?_
      intro d _ hsubject _
      rw [Query.immediate?_of_document hsubject] at hanswer
      cases hanswer
  · split
    · exact .still (.refl _) rfl
    · exact .still (.refl _) rfl

theorem storeStep_enterCell (caller : Caller) :
    w.StoreStep engine q .atCell (w.enterCell caller) none := by
  rw [enterCell]
  split
  · exact .still (.refl _) rfl
  · split
    · exact .still ⟨rfl, rfl, rfl⟩ rfl
    · exact .still ⟨rfl, rfl, rfl⟩ rfl

theorem storeStep_keepWaiting (caller : Caller) :
    w.StoreStep engine q .waiting (w.keepWaiting caller) none := by
  rw [keepWaiting]
  split
  · exact .still (.refl _) rfl
  · split
    · exact .still ⟨rfl, rfl, rfl⟩ rfl
    · exact .still (.refl _) rfl

theorem storeStep_finishLoad (outcome : Except Error LoadedGrammar) :
    w.StoreStep engine q (.loading outcome) (w.finishLoad outcome) none := by
  cases outcome with
  | ok grammar => exact .still ⟨rfl, rfl, rfl⟩ rfl
  | error e => exact .still ⟨rfl, rfl, rfl⟩ rfl

theorem storeStep_attach (grammar : LoadedGrammar) :
    w.StoreStep engine q (.admitted grammar) (w.attach grammar) none := by
  dsimp only [attach]
  split
  · exact .still (.refl _) rfl
  · split
    · exact .still (.refl _) rfl
    · split
      · exact .still ⟨rfl, rfl, rfl⟩ rfl
      · exact .still (.refl _) rfl

/-- The store is touched here or nowhere. -/
theorem storeStep_respond :
    w.StoreStep engine q .prepared (w.respond engine q) (w.delivery? engine q .prepared) := by
  rw [respond, delivery?]
  cases hsubject : q.subject with
  | nothing =>
      refine .pass (.refl _) ?_
      intro d _ hdocument
      cases hsubject.symm.trans hdocument
  | text text =>
      refine .pass (.refl _) ?_
      intro d _ hdocument
      cases hsubject.symm.trans hdocument
  | document d =>
      have hobtains := LanguageParser.obtains_parseDocument engine w.parser d
      dsimp only
      cases hresult : w.parser.parseDocument engine d with
      | mk result p =>
          rw [hresult] at hobtains
          cases result with
          | error e => exact .still hobtains.sameStore rfl
          | ok shared => exact .deliver rfl hsubject hresult

/-- **A step of a call delivers a document or leaves the store alone.** -/
theorem storeStep_step (engine : Engine) (caller : Caller) (q : Query) (w : World)
    (phase : Phase) :
    w.StoreStep engine q phase (w.step engine caller q phase) (w.delivery? engine q phase) := by
  cases phase with
  | entering => exact storeStep_entering caller
  | atCell => exact storeStep_enterCell caller
  | waiting => exact storeStep_keepWaiting caller
  | loading outcome => exact storeStep_finishLoad outcome
  | admitted grammar => exact storeStep_attach grammar
  | prepared => exact storeStep_respond
  | done result => exact .pass (.refl _) fun _ _ _ _ => rfl

end World

namespace Run

/-- A call that goes on by itself leaves the store alone, unless it ends with an answer about
    a document. -/
theorem sameStore_or_delivered (engine : Engine) {r : Run} {caller : Caller} {q : Query}
    {phase : Phase} (hcall : r.calls[caller]? = some ⟨q, phase⟩) (n : Nat) :
    let r' := r.applyAll engine (List.replicate n (.resume caller))
    ∃ phase', r'.calls[caller]? = some ⟨q, phase'⟩ ∧
      (r.world.parser.SameStore r'.world.parser ∨
        ∃ d answer, q.subject = .document d ∧ phase' = .done (.ok answer)) := by
  induction n generalizing r phase with
  | zero => exact ⟨phase, hcall, .inl (.refl _)⟩
  | succ n ih =>
      intro r'
      have hlt : caller < r.calls.length := (List.getElem?_eq_some_iff.mp hcall).1
      have hstep := World.storeStep_step engine caller q r.world phase
      have hfirst : (r.resume engine caller).calls[caller]?
          = some ⟨q, (r.world.step engine caller q phase).2⟩ := by
        rw [resume_eq hcall, List.getElem?_set_self hlt]
      have hworld : (r.resume engine caller).world = (r.world.step engine caller q phase).1 := by
        rw [resume_eq hcall]
      have hrest : r' = (r.resume engine caller).applyAll engine
          (List.replicate n (.resume caller)) := rfl
      generalize r.world.step engine caller q phase = next at hstep hfirst hworld
      generalize r.world.delivery? engine q phase = delivery at hstep
      cases hstep with
      | pass hsame _ =>
          obtain ⟨phase', hcall', hcase⟩ := ih hfirst
          rw [hworld] at hcase
          exact ⟨phase', hcall', hcase.imp_left hsame.trans⟩
      | deliver _ hsubject _ =>
          -- it has its answer, and what is done stays done
          refine ⟨_, hrest ▸ call_applyAll_of_done hfirst _, .inr ?_⟩
          exact ⟨_, _, hsubject, rfl⟩

end Run

/-- **A call that fails leaves the store alone.**  In every state that a parser can come to, if a
    call that is made then goes on by itself until it ends with an error, the documents in the
    store, their order and whether the parser is disposed are as they were before it; and if the
    call is about a plain text, they are so however it ends. -/
theorem failed_call_leaves_store (engine : Engine) (language : Language) (config : ParserConfig)
    (source : GrammarSource) (loader : Loader) (events : List Event) (q : Query) (n : Nat) :
    let r := Run.applyAll engine
      (Run.start ⟨loader, LanguageParser.new language config source⟩) events
    let caller := r.calls.length
    let r' := (r.enter q).applyAll engine (List.replicate n (.resume caller))
    ∀ result, r'.calls[caller]? = some ⟨q, .done result⟩ →
      ((∃ e, result = .error e) ∨ ∃ text, q.subject = .text text) →
      r'.world.parser.trees = r.world.parser.trees ∧
        r'.world.parser.disposed = r.world.parser.disposed := by
  intro r caller r' result hdone hcase
  have hentered : (r.enter q).calls[caller]? = some ⟨q, .entering⟩ := List.getElem?_concat_length
  obtain ⟨phase', hcall, hstore⟩ := Run.sameStore_or_delivered engine hentered n
  rcases hstore with hsame | ⟨d, answer, hsubject, rfl⟩
  · exact ⟨hsame.trees, hsame.disposed⟩
  · -- an answer about a document is neither an error nor about a plain text
    rcases hcase with ⟨e, rfl⟩ | ⟨text, htext⟩
    · cases hcall.symm.trans hdone
    · cases hsubject.symm.trans htext

/-- An engine that has no tree for the text `(`. -/
def Engine.refusing : Engine := fun grammar text =>
  if text = "(" then none else Engine.single grammar text

/-- Two documents are in the store when a call about a third fails: its text has no tree. -/
theorem failed_call_leaves_two_documents :
    let a : Document := ⟨"a", 1, "x"⟩
    let b : Document := ⟨"b", 1, "y"⟩
    let q : Query := .blocks ⟨"c", 1, "("⟩
    let r := Run.applyAll Engine.refusing (Run.start ⟨Loader.fresh fun _ _ => .failure,
        LanguageParser.new .go ⟨2, Binary64.one, 1⟩ .builtin⟩)
      (Event.whole 0 (.document b) ++ Event.whole 1 (.symbols a))
    let r' := (r.enter q).applyAll Engine.refusing
      (List.replicate World.callLength (.resume r.calls.length))
    r'.calls[r.calls.length]? = some ⟨q, .done (.error (.parseFailed .go))⟩ ∧
      r'.world.parser.trees.keys = ["b@1", "a@1"] ∧ r'.world.parser.disposed = false := by
  have hsame := failed_call_leaves_store Engine.refusing .go ⟨2, Binary64.one, 1⟩ .builtin
    (Loader.fresh fun _ _ => .failure)
    (Event.whole 0 (.document ⟨"b", 1, "y"⟩) ++ Event.whole 1 (.symbols ⟨"a", 1, "x"⟩))
    (.blocks ⟨"c", 1, "("⟩) World.callLength (.error (.parseFailed .go)) (by decide +kernel)
    (.inl ⟨_, rfl⟩)
  dsimp only at hsame ⊢
  rw [hsame.1, hsame.2]
  decide +kernel

end CodeBlocks
