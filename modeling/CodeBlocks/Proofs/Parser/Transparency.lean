import CodeBlocks.Proofs.Document
import CodeBlocks.Proofs.Parser.Invariant
import CodeBlocks.Proofs.RecencyCache.Entries

/-! # Transparency of the store — an answer is that of a fresh parse

    A parser keeps parsed documents by key.  Whether a document is parsed
    or found, whatever else was parsed, kept or given up before, and
    however the calls of others come in between, the answer is the one of
    its own text parsed afresh.  One thing is asked of the callers: a
    version of a document has one text.

    * `Engine.treeOf?` is the tree of a text without any store.
    * `LanguageParser.Faithful` ties every kept tree to a document that
      was presented.  Keys name versions (`Document.eq_of_key_eq`), so a
      tree found under a document's key is the tree of its text.
    * `Phase.Truthful` says the same of a call that has its answer.

    Both are kept by one step of a call (`trueTo_step`), hence by every
    run. -/

namespace CodeBlocks

/-- The tree of a text, parsed afresh. -/
def Engine.treeOf? (engine : Engine) (language : Language) (text : String) :
    Option SyntaxTree :=
  (engine language.grammar text).map (SyntaxTree.ofParse text)

/-- A result that is the fresh parse of a text: its tree, or the failure of the
    engine.  Other errors say nothing about the text. -/
structure Engine.Delivers (engine : Engine) (language : Language) (text : String)
    (result : Except Error SyntaxTree) : Prop where
  ok : ∀ tree, result = .ok tree → engine.treeOf? language text = some tree
  failed : ∀ l, result = .error (.parseFailed l) → engine.treeOf? language text = none

/-- The document an event presents. -/
def Event.document? : Event → Option Document
  | .call q =>
      match q.subject with
      | .document d => some d
      | _ => none
  | _ => none

/-- Two documents of one id and version have the same text. -/
def Coherent (docs : List Document) : Prop :=
  ∀ d ∈ docs, ∀ e ∈ docs, d.id = e.id → d.version = e.version → d.text = e.text

instance (docs : List Document) : Decidable (Coherent docs) :=
  inferInstanceAs (Decidable (∀ d ∈ docs, ∀ e ∈ docs, _))

/-- Documents of one key have the same text. -/
theorem Coherent.text_eq {docs : List Document} (h : Coherent docs) {d e : Document}
    (hd : d ∈ docs) (he : e ∈ docs) (hkey : d.key = e.key) : d.text = e.text := by
  obtain ⟨hid, hversion⟩ := Document.eq_of_key_eq hkey
  exact h d hd e he hid hversion

namespace LanguageParser

/-- A parser of a language and its settings whose grammar is that language's, and
    whose kept trees are fresh parses of documents that were presented. -/
structure Faithful (engine : Engine) (language : Language) (config : ParserConfig)
    (docs : List Document) (p : LanguageParser) : Prop where
  speaks : p.language = language
  settings : p.config = config
  loaded : ∀ g, p.grammar = some g → g.grammar = language.grammar
  attached : ∀ g, p.attached = some g → g.grammar = language.grammar
  kept : ∀ entry ∈ p.trees.entries, ∃ d ∈ docs,
    d.key = entry.1 ∧ engine.treeOf? language d.text = some entry.2.tree

variable {engine : Engine} {language : Language} {config : ParserConfig}
variable {docs : List Document} {p : LanguageParser}

/-- A parser that has done nothing yet keeps nothing. -/
theorem faithful_new (source : GrammarSource) :
    Faithful engine language config docs (new language config source) :=
  ⟨rfl, rfl, fun _ h => (nomatch h), fun _ h => (nomatch h), fun _ h => (nomatch h)⟩

/-- Disposal keeps a parser faithful: it keeps no tree. -/
theorem Faithful.dispose (h : Faithful engine language config docs p) :
    Faithful engine language config docs p.dispose := by
  rw [LanguageParser.dispose]
  split
  · exact h
  · exact ⟨h.speaks, h.settings, h.loaded, fun _ hg => (nomatch hg), fun _ hmem => (nomatch hmem)⟩

/-- What the engine gives for a text is its fresh parse. -/
theorem Faithful.parse_delivers (h : Faithful engine language config docs p) (text : String) :
    engine.Delivers language text (p.parse engine text) := by
  rw [LanguageParser.parse]
  split
  · exact ⟨fun _ heq => (nomatch heq), fun _ heq => (nomatch heq)⟩
  · split
    · exact ⟨fun _ heq => (nomatch heq), fun _ heq => (nomatch heq)⟩
    · next loaded hattached =>
        rw [h.attached loaded hattached]
        split
        · next parsed hparsed =>
            refine ⟨?_, fun _ heq => (nomatch heq)⟩
            intro tree heq
            rw [Engine.treeOf?, hparsed, ← Except.ok.inj heq]
            rfl
        · next hparsed =>
            refine ⟨fun _ heq => (nomatch heq), ?_⟩
            intro l _
            rw [Engine.treeOf?, hparsed]
            rfl

/-- A tree found under a document's key is the fresh parse of its text. -/
theorem Faithful.treeOf?_of_peek? (h : Faithful engine language config docs p)
    (hdocs : Coherent docs) {d : Document} (hd : d ∈ docs) {shared : SharedTree}
    (hpeek : p.trees.peek? d.key = some shared) :
    engine.treeOf? language d.text = some shared.tree := by
  obtain ⟨e, he, hkey, htree⟩ :=
    h.kept (d.key, shared) (RecencyCache.mem_entries_of_peek? hpeek)
  rw [hdocs.text_eq hd he hkey.symm]
  exact htree

/-- A document's tree, found or parsed, is the fresh parse of its text, and the
    parser stays faithful. -/
theorem Faithful.parseDocument (h : Faithful engine language config docs p)
    (hdocs : Coherent docs) {d : Document} (hd : d ∈ docs) :
    engine.Delivers language d.text ((p.parseDocument engine d).1.map SharedTree.tree) ∧
      Faithful engine language config docs (p.parseDocument engine d).2 := by
  rw [LanguageParser.parseDocument]
  split
  · exact ⟨⟨fun _ heq => (nomatch heq), fun _ heq => (nomatch heq)⟩, h⟩
  · split
    · -- found: the entry moves to the end of the store
      next shared trees hget =>
        have hpeek : p.trees.peek? d.key = some shared := by
          rw [← RecencyCache.get?_fst, hget]
        refine ⟨⟨?_, fun _ heq => (nomatch heq)⟩, ?_⟩
        · intro tree heq
          rw [← Except.ok.inj heq]
          exact h.treeOf?_of_peek? hdocs hd hpeek
        · refine ⟨h.speaks, h.settings, h.loaded, h.attached, ?_⟩
          intro entry hentry
          have hmem : entry ∈ (p.trees.get? d.key).2.entries := by
            rw [hget]
            exact hentry
          exact h.kept entry (RecencyCache.mem_entries_of_mem_get? hmem)
    · -- not found: the text is parsed, and kept if there is a tree
      have hparse := h.parse_delivers d.text
      split
      · next e heq =>
          refine ⟨⟨fun _ hok => (nomatch hok), ?_⟩, h⟩
          intro l hl
          exact hparse.failed l (heq.trans (congrArg Except.error (Except.error.inj hl)))
      · next tree heq =>
          have htree := hparse.ok tree heq
          refine ⟨⟨?_, fun _ hl => (nomatch hl)⟩, ?_⟩
          · intro tree' hok
            rw [← Except.ok.inj hok]
            exact htree
          · refine ⟨h.speaks, h.settings, h.loaded, h.attached, ?_⟩
            intro entry hentry
            rcases RecencyCache.mem_entries_of_mem_set hentry with hold | rfl
            · exact h.kept entry hold
            · exact ⟨d, hd, rfl, htree⟩

end LanguageParser

/-- The text that has to be parsed. -/
def Subject.text? : Subject → Option String
  | .nothing => none
  | .document d => some d.text
  | .text t => some t

/-- A result of a question that is the answer on the fresh parse of its text, or
    the failure of that parse.  Questions a language answers at once parse
    nothing. -/
structure Query.Answered (engine : Engine) (language : Language) (config : ParserConfig)
    (q : Query) (result : Except Error Answer) : Prop where
  ok : ∀ answer text, result = .ok answer → q.immediate? language = none →
    q.subject.text? = some text →
    ∃ (p : LanguageParser) (shared : SharedTree), p.language = language ∧ p.config = config ∧
      engine.treeOf? language text = some shared.tree ∧ answer = q.answer p shared
  failed : ∀ l text, result = .error (.parseFailed l) → q.subject.text? = some text →
    engine.treeOf? language text = none

/-- What holds of a call in each phase: the grammar it has, or waits to get, is
    that of the language, and a result is the one of a fresh parse. -/
def Phase.Truthful (engine : Engine) (language : Language) (config : ParserConfig)
    (q : Query) : Phase → Prop
  | .loading outcome =>
      (∀ g, outcome = .ok g → g.grammar = language.grammar) ∧
        ∀ l, outcome ≠ .error (.parseFailed l)
  | .admitted g => g.grammar = language.grammar
  | .done result => q.Answered engine language config result
  | _ => True

section Step

variable {engine : Engine} {language : Language} {config : ParserConfig}
variable {docs : List Document}

/-- An error that is not the engine's says nothing about a text. -/
theorem Query.answered_error {q : Query} {e : Error} (h : ∀ l, e ≠ .parseFailed l) :
    q.Answered engine language config (.error e) :=
  ⟨fun _ _ heq => (nomatch heq), fun l _ heq => absurd (Except.error.inj heq) (h l)⟩

/-- A question answered on what was delivered for its text is answered. -/
theorem Query.answered_map {q : Query} {p : LanguageParser} {text : String} {α : Type}
    (hspeaks : p.language = language) (hsettings : p.config = config)
    (htext : q.subject.text? = some text) {result : Except Error α} (share : α → SharedTree)
    (h : engine.Delivers language text (result.map fun a => (share a).tree)) :
    q.Answered engine language config (result.map fun a => q.answer p (share a)) := by
  cases result with
  | error e =>
      refine ⟨fun _ _ heq => (nomatch heq), ?_⟩
      intro l text' heq htext'
      obtain rfl : text = text' := Option.some.inj (htext.symm.trans htext')
      exact h.failed l (congrArg Except.error (Except.error.inj heq))
  | ok a =>
      refine ⟨?_, fun _ _ heq => (nomatch heq)⟩
      intro answer text' heq _ htext'
      obtain rfl : text = text' := Option.some.inj (htext.symm.trans htext')
      exact ⟨p, share a, hspeaks, hsettings, h.ok (share a).tree rfl, (Except.ok.inj heq).symm⟩

/-- An answer that the fresh tree alone decides is the fresh one. -/
theorem Query.Answered.eq_map {q : Query} {answer : Answer} {text : String}
    (h : q.Answered engine language config (.ok answer))
    (himmediate : q.immediate? language = none) (htext : q.subject.text? = some text)
    {view : SyntaxTree → Answer}
    (hview : ∀ p shared, p.language = language → q.answer p shared = view shared.tree) :
    some answer = (engine.treeOf? language text).map view := by
  obtain ⟨p, shared, hspeaks, -, htree, rfl⟩ := h.ok answer text rfl himmediate htext
  rw [htree, hview p shared hspeaks]
  rfl

/-- A load ends with the grammar of its language, or with an error that is not the
    engine's. -/
theorem Phase.truthful_loading (loader : Loader) (source : GrammarSource) (q : Query) :
    Phase.Truthful engine language config q (.loading (loader.result source language)) := by
  cases source with
  | builtin =>
      refine ⟨?_, fun _ heq => (nomatch heq)⟩
      intro g heq
      rw [← Except.ok.inj heq]
  | fetched =>
      rw [Loader.result]
      cases loader.outcome language (loader.log.count language) with
      | failure => exact ⟨fun _ heq => (nomatch heq), fun _ heq => (nomatch heq)⟩
      | success usable =>
          refine ⟨?_, fun _ heq => (nomatch heq)⟩
          intro g heq
          rw [← Except.ok.inj heq]

/-- A parser that is faithful and a call on it that is truthful. -/
def TrueTo (engine : Engine) (language : Language) (config : ParserConfig)
    (docs : List Document) (q : Query) (state : World × Phase) : Prop :=
  state.1.parser.Faithful engine language config docs ∧
    state.2.Truthful engine language config q

variable {w : World} {q : Query}

theorem trueTo_load (h : w.parser.Faithful engine language config docs) (caller : Caller) :
    TrueTo engine language config docs q (w.load caller) := by
  refine ⟨⟨h.speaks, h.settings, h.loaded, h.attached, h.kept⟩, ?_⟩
  show Phase.Truthful engine language config q
    (.loading (w.loader.result w.parser.source w.parser.language))
  rw [h.speaks]
  exact Phase.truthful_loading w.loader w.parser.source q

theorem trueTo_enterCell (h : w.parser.Faithful engine language config docs)
    (caller : Caller) : TrueTo engine language config docs q (w.enterCell caller) := by
  rw [World.enterCell]
  split
  · next g hg => exact ⟨h, h.loaded g hg⟩
  · split
    · exact trueTo_load h caller
    · exact ⟨⟨h.speaks, h.settings, h.loaded, h.attached, h.kept⟩, trivial⟩

theorem trueTo_keepWaiting (h : w.parser.Faithful engine language config docs)
    (caller : Caller) : TrueTo engine language config docs q (w.keepWaiting caller) := by
  rw [World.keepWaiting]
  split
  · next g hg => exact ⟨h, h.loaded g hg⟩
  · split
    · exact trueTo_load h caller
    · exact ⟨h, trivial⟩

theorem trueTo_finishLoad (h : w.parser.Faithful engine language config docs)
    {outcome : Except Error LoadedGrammar}
    (hphase : Phase.Truthful engine language config q (.loading outcome)) :
    TrueTo engine language config docs q (w.finishLoad outcome) := by
  obtain ⟨hok, herror⟩ := hphase
  cases outcome with
  | ok g =>
      have hg : g.grammar = language.grammar := hok g rfl
      refine ⟨⟨h.speaks, h.settings, ?_, h.attached, h.kept⟩, hg⟩
      intro g' hg'
      rw [← Option.some.inj hg']
      exact hg
  | error e =>
      refine ⟨⟨h.speaks, h.settings, h.loaded, h.attached, h.kept⟩, ?_⟩
      exact Query.answered_error fun l heq => herror l (congrArg Except.error heq)

theorem trueTo_attach (h : w.parser.Faithful engine language config docs) {g : LoadedGrammar}
    (hphase : Phase.Truthful engine language config q (.admitted g)) :
    TrueTo engine language config docs q (w.attach g) := by
  dsimp only [World.attach]
  split
  · exact ⟨h, Query.answered_error fun _ heq => nomatch heq⟩
  · split
    · exact ⟨h, trivial⟩
    · split
      · refine ⟨⟨h.speaks, h.settings, h.loaded, ?_, h.kept⟩, trivial⟩
        intro g' hg'
        rw [← Option.some.inj hg']
        exact hphase
      · exact ⟨h, Query.answered_error fun _ heq => nomatch heq⟩

/-- The answer is that of a fresh parse, also where the document was found. -/
theorem trueTo_respond (hdocs : Coherent docs)
    (h : w.parser.Faithful engine language config docs)
    (hasked : ∀ d, q.subject = .document d → d ∈ docs) :
    TrueTo engine language config docs q (w.respond engine q) := by
  rw [World.respond]
  split
  · next hsubject =>
      refine ⟨h, ⟨?_, fun _ _ heq => (nomatch heq)⟩⟩
      intro answer text _ _ htext
      rw [hsubject] at htext
      exact nomatch htext
  · next d hsubject =>
      obtain ⟨hdelivers, hfaithful⟩ := h.parseDocument hdocs (hasked d hsubject)
      refine ⟨hfaithful, Query.answered_map h.speaks h.settings ?_ id hdelivers⟩
      rw [hsubject]
      rfl
  · next text hsubject =>
      have hdelivers : engine.Delivers language text ((w.parser.parse engine text).map id) := by
        rw [Except.map_id]
        exact h.parse_delivers text
      refine ⟨h, Query.answered_map h.speaks h.settings ?_ (SharedTree.mk w.parser.parses) hdelivers⟩
      rw [hsubject]
      rfl

/-- One step of a call keeps the parser faithful and the call truthful. -/
theorem trueTo_step (hdocs : Coherent docs)
    (h : w.parser.Faithful engine language config docs)
    (hasked : ∀ d, q.subject = .document d → d ∈ docs) (caller : Caller) {phase : Phase}
    (hphase : phase.Truthful engine language config q) :
    TrueTo engine language config docs q (w.step engine caller q phase) := by
  cases phase with
  | entering =>
      simp only [World.step]
      split
      · next answer hanswer =>
          refine ⟨h, ⟨?_, fun _ _ heq => (nomatch heq)⟩⟩
          intro _ _ _ hnone
          rw [← h.speaks, hanswer] at hnone
          exact nomatch hnone
      · split
        · exact ⟨h, Query.answered_error fun _ heq => nomatch heq⟩
        · exact ⟨h, trivial⟩
  | atCell => exact trueTo_enterCell h caller
  | waiting => exact trueTo_keepWaiting h caller
  | loading outcome => exact trueTo_finishLoad h hphase
  | admitted g => exact trueTo_attach h hphase
  | prepared => exact trueTo_respond hdocs h hasked
  | done result => exact ⟨h, hphase⟩

end Step

namespace Run

variable {engine : Engine} {language : Language} {config : ParserConfig}

/-- What a step keeps, every run keeps. -/
theorem inductive_trueTo (engine : Engine) (language : Language) (config : ParserConfig)
    {docs : List Document} (hdocs : Coherent docs) :
    Inductive engine (fun q => ∀ d, q.subject = .document d → d ∈ docs)
      (fun w => w.parser.Faithful engine language config docs)
      (fun q phase => (∀ d, q.subject = .document d → d ∈ docs) ∧
        phase.Truthful engine language config q) where
  enter _ hasked := ⟨hasked, trivial⟩
  step caller _ _ _ h hcall :=
    have hstep := trueTo_step hdocs h hcall.1 caller hcall.2
    ⟨hstep.1, hcall.1, hstep.2⟩
  dispose _ h := h.dispose

/-- Along every run of a new parser, each call that is done has the answer of a
    fresh parse. -/
theorem answered_of_mem (source : GrammarSource) (loader : Loader) {events : List Event}
    (hdocs : Coherent (events.filterMap Event.document?)) {q : Query}
    {result : Except Error Answer}
    (hcall : ⟨q, .done result⟩ ∈ (Run.applyAll engine
      (Run.start ⟨loader, LanguageParser.new language config source⟩) events).calls) :
    q.Answered engine language config result := by
  have hasked : ∀ q, .call q ∈ events →
      ∀ d, q.subject = .document d → d ∈ events.filterMap Event.document? := by
    intro q hq d hd
    refine List.mem_filterMap.mpr ⟨.call q, hq, ?_⟩
    simp only [Event.document?, hd]
  have hholds := (inductive_trueTo engine language config hdocs).holds
    ⟨loader, LanguageParser.new language config source⟩ (LanguageParser.faithful_new source) hasked
  exact (hholds.calls _ hcall).2

end Run

/-- **The store is transparent.**  Along every run of a new parser in which a
    version of a document has one text, a document's tree has that text as its
    source, holds the nodes of the engine's tree for it, and is the tree that
    the same text gives when it is asked for as plain text.  So the answers
    about a document are those about its fresh parse, and a document fails to
    parse only where the engine has no tree for its text. -/
theorem document_answers_ignore_store (engine : Engine) (language : Language)
    (config : ParserConfig) (source : GrammarSource) (loader : Loader) (events : List Event)
    (hdocs : Coherent (events.filterMap Event.document?)) :
    let run := Run.applyAll engine
      (Run.start ⟨loader, LanguageParser.new language config source⟩) events
    let taxonomy := Taxonomy.ofLanguage language
    (∀ d answer, ⟨.document d, .done (.ok answer)⟩ ∈ run.calls →
      ∃ shared parsed, answer = .shared shared ∧
        engine language.grammar d.text = some parsed ∧
        shared.tree.source = d.text ∧ shared.tree.nodes = parsed.nodes ∧
        ∀ other, ⟨.text d.text, .done (.ok other)⟩ ∈ run.calls → other = .tree shared.tree) ∧
    (∀ d answer, ⟨.blocks d, .done (.ok answer)⟩ ∈ run.calls →
      some answer = (engine.treeOf? language d.text).map fun tree =>
        .blocks (taxonomy.listBlocks tree)) ∧
    (∀ d answer, ⟨.symbols d, .done (.ok answer)⟩ ∈ run.calls →
      some answer = (engine.treeOf? language d.text).map fun tree =>
        .blocks (taxonomy.listSymbols tree)) ∧
    (∀ d offset answer, ⟨.blockAt d offset, .done (.ok answer)⟩ ∈ run.calls →
      some answer = (engine.treeOf? language d.text).map fun tree =>
        .found (taxonomy.blockAt? tree offset)) ∧
    (∀ d range answer, ⟨.blockIn d range, .done (.ok answer)⟩ ∈ run.calls →
      some answer = (engine.treeOf? language d.text).map fun tree =>
        .found (taxonomy.blockIn? tree range)) ∧
    (∀ q d l, q.subject = .document d → ⟨q, .done (.error (.parseFailed l))⟩ ∈ run.calls →
      engine.treeOf? language d.text = none) := by
  intro run taxonomy
  refine ⟨?_, ?_, ?_, ?_, ?_, ?_⟩
  · intro d answer hcall
    obtain ⟨p, shared, -, -, htree, rfl⟩ :=
      (Run.answered_of_mem source loader hdocs hcall).ok answer d.text rfl rfl rfl
    obtain ⟨parsed, hparsed, hflat⟩ := Option.map_eq_some_iff.mp htree
    refine ⟨shared, parsed, rfl, hparsed, hflat ▸ rfl, hflat ▸ rfl, ?_⟩
    intro other hother
    obtain ⟨p', shared', -, -, htree', rfl⟩ :=
      (Run.answered_of_mem source loader hdocs hother).ok other d.text rfl rfl rfl
    exact congrArg Answer.tree (Option.some.inj (htree'.symm.trans htree))
  · intro d answer hcall
    refine (Run.answered_of_mem source loader hdocs hcall).eq_map rfl rfl ?_
    rintro p shared rfl
    rfl
  · intro d answer hcall
    refine (Run.answered_of_mem source loader hdocs hcall).eq_map rfl rfl ?_
    rintro p shared rfl
    rfl
  · intro d offset answer hcall
    refine (Run.answered_of_mem source loader hdocs hcall).eq_map rfl rfl ?_
    rintro p shared rfl
    rfl
  · intro d range answer hcall
    refine (Run.answered_of_mem source loader hdocs hcall).eq_map rfl rfl ?_
    rintro p shared rfl
    rfl
  · intro q d l hsubject hcall
    refine (Run.answered_of_mem source loader hdocs hcall).failed l d.text rfl ?_
    rw [hsubject]
    rfl

/-! ## A run with eviction -/

instance decidableEqOutcome {ε α : Type} [DecidableEq ε] [DecidableEq α] :
    DecidableEq (Except ε α)
  | .ok a, .ok b => decidable_of_iff (a = b) ⟨congrArg Except.ok, Except.ok.inj⟩
  | .error a, .error b => decidable_of_iff (a = b) ⟨congrArg Except.error, Except.error.inj⟩
  | .ok _, .error _ => isFalse nofun
  | .error _, .ok _ => isFalse nofun

deriving instance DecidableEq for Phase, Call

/-- An engine that makes every text one node. -/
def Engine.single : Engine := fun _ text =>
  let length := text.utf8ByteSize
  some ⟨⟨"program", none, true, false, ⟨0, length, ⟨0, 0⟩, ⟨0, length⟩⟩⟩, .nil⟩

/-- A call with all its steps. -/
def Event.whole (caller : Caller) (q : Query) : List Event :=
  .call q :: List.replicate World.callLength (.resume caller)

/-- A store of one tree, and two documents whose keys are `a@1@2` and `a@12`.  The
    first is parsed, given up for the second, parsed again and then found. -/
theorem document_answers_after_eviction :
    let d : Document := ⟨"a@1", 2, "x"⟩
    let e : Document := ⟨"a", 12, "y"⟩
    let events := Event.whole 0 (.document d) ++ Event.whole 1 (.document e)
      ++ Event.whole 2 (.document d) ++ Event.whole 3 (.document d)
    let run := Run.applyAll Engine.single (Run.start ⟨Loader.fresh fun _ _ => .failure,
      LanguageParser.new .python ⟨1, Binary64.one, 1⟩ .builtin⟩) events
    Coherent (events.filterMap Event.document?) ∧
      ∃ shared, ⟨.document d, .done (.ok (.shared shared))⟩ ∈ run.calls ∧
        shared.stamp = 2 ∧ shared.tree.source = "x" := by
  intro d e events run
  have hdocs : Coherent (events.filterMap Event.document?) := by decide
  have hcall : run.calls[3]? = some ⟨.document d, .done (.ok (.shared
      ⟨2, SyntaxTree.ofParse "x" ⟨⟨"program", none, true, false,
        ⟨0, 1, ⟨0, 0⟩, ⟨0, 1⟩⟩⟩, .nil⟩⟩))⟩ := by
    decide +kernel
  obtain ⟨shared, -, hanswer, -, hsource, -⟩ :=
    (document_answers_ignore_store Engine.single .python _ .builtin _ events hdocs).1 d _
      (List.mem_of_getElem? hcall)
  refine ⟨hdocs, _, List.mem_of_getElem? hcall, rfl, ?_⟩
  rw [Answer.shared.inj hanswer]
  exact hsource

end CodeBlocks
