import CodeBlocks.CommandLine.Outcome
import CodeBlocks.Proofs.Locate.Offset
import CodeBlocks.Proofs.Parser.Refusal
import CodeBlocks.Proofs.Parser.Transparency

/-! # Settings of the store — a run does not show them

    A command line makes a service, asks one new parser one question and
    prints the answer.  The settings decide how many parsed documents the
    parser keeps and which it gives up, but the answer is made from the
    tree that was parsed, whether or not it is kept.  Of all settings only
    the floor of trimming can be seen, and only where no other is given.

    * `Query.onFreshParse` is how a question ends that is answered from a
      fresh parse; it mentions no store.
    * `World.call?_new_builtin`: so does the first question to a new parser
      with a built-in grammar.
    * `CommandLine.execute_congr`: hence two runs of one request agree. -/

namespace CodeBlocks

/-- The end of a fresh parse. -/
def Engine.parsed (engine : Engine) (language : Language) (text : String) :
    Except Error SyntaxTree :=
  match engine.treeOf? language text with
  | some tree => .ok tree
  | none      => .error (.parseFailed language)

namespace Query

/-- Whether the answer depends on the configured floor of trimming. -/
def usesFloor : Query → Bool
  | trimEnd _ none | trimStart _ none => true
  | _ => false

/-- How a question ends that is put to a parser and answered from a fresh parse. -/
def onFreshParse (engine : Engine) (p : LanguageParser) (q : Query) : Except Error Answer :=
  match q.immediate? p.language, q.subject.text? with
  | some answer, _            => .ok answer
  | none,        none         => .ok .ready
  | none,        some content =>
      (engine.parsed p.language content).map fun tree => q.answer p ⟨p.parses, tree⟩

/-- Of a parser, an answer shows the language and the floor, if it uses that. -/
theorem answer_congr {p p' : LanguageParser} {q : Query} (hlanguage : p.language = p'.language)
    (hfloor : q.usesFloor = true → p.config.minBlockCount = p'.config.minBlockCount)
    (shared : SharedTree) : q.answer p shared = q.answer p' shared := by
  have htaxonomy : p.taxonomy = p'.taxonomy := congrArg Taxonomy.ofLanguage hlanguage
  cases q with
  | trimEnd content minimum =>
      cases minimum with
      | none => simp only [answer, Option.getD_none, hfloor rfl]
      | some n => rfl
  | trimStart content minimum =>
      cases minimum with
      | none => simp only [answer, Option.getD_none, hfloor rfl]
      | some n => rfl
  | _ => simp only [answer, htaxonomy]

theorem onFreshParse_congr (engine : Engine) {p p' : LanguageParser} {q : Query}
    (hlanguage : p.language = p'.language) (hparses : p.parses = p'.parses)
    (hfloor : q.usesFloor = true → p.config.minBlockCount = p'.config.minBlockCount) :
    q.onFreshParse engine p = q.onFreshParse engine p' := by
  simp only [onFreshParse, answer_congr hlanguage hfloor, hlanguage, hparses]

end Query

/-! ## The first question to a parser -/

namespace LanguageParser

/-- A parser that has its grammar and has parsed nothing yet. -/
def readied (language : Language) (config : ParserConfig) : LanguageParser :=
  let grammar : LoadedGrammar := ⟨language.grammar, true⟩
  { new language config .builtin with grammar := some grammar, attached := some grammar }

variable (engine : Engine) (language : Language) (config : ParserConfig)

theorem parse_readied (text : String) :
    (readied language config).parse engine text = engine.parsed language text := by
  rw [Engine.parsed, Engine.treeOf?]
  simp only [parse, readied, new]
  cases engine language.grammar text <;> rfl

/-- The tree of a first document is the one that was parsed, kept or not. -/
theorem parseDocument_readied (d : Document) :
    ((readied language config).parseDocument engine d).1
      = (engine.parsed language d.text).map (SharedTree.mk 0) := by
  have habsent : (readied language config).trees.get? d.key
      = (none, (readied language config).trees) := rfl
  rw [parseDocument, habsent, parse_readied]
  cases engine.parsed language d.text <;> rfl

end LanguageParser

namespace World

variable (engine : Engine) (loader : Loader) (language : Language) (config : ParserConfig)

/-- A parser with its grammar answers from a fresh parse. -/
theorem respond_readied {q : Query} (himmediate : q.immediate? language = none) :
    ((⟨loader, .readied language config⟩ : World).respond engine q).2
      = .done (q.onFreshParse engine (.readied language config)) := by
  have hnone : q.immediate? (LanguageParser.readied language config).language = none := himmediate
  rw [respond, Query.onFreshParse, hnone]
  cases q.subject with
  | nothing => rfl
  | document d =>
      simp only [Subject.text?, LanguageParser.parseDocument_readied]
      show Phase.done (((engine.parsed language d.text).map (SharedTree.mk 0)).map _)
        = .done ((engine.parsed language d.text).map _)
      cases engine.parsed language d.text <;> rfl
  | text content =>
      simp only [Subject.text?, LanguageParser.parse_readied]
      rfl

/-- **The first question to a new parser with a built-in grammar is answered from a fresh
    parse**: the grammar is loaded and attached at once, and the store is empty. -/
theorem call?_new_builtin (q : Query) :
    ((⟨loader, .new language config .builtin⟩ : World).call? engine q).2
      = some (q.onFreshParse engine (.new language config .builtin)) := by
  have hfresh : q.onFreshParse engine (.new language config .builtin)
      = q.onFreshParse engine (.readied language config) :=
    Query.onFreshParse_congr engine rfl rfl fun _ => rfl
  rw [hfresh]
  cases himmediate : q.immediate? language with
  | some answer =>
      have hentering : (⟨loader, .new language config .builtin⟩ : World).step engine 0 q .entering
          = (⟨loader, .new language config .builtin⟩, .done (.ok answer)) := by
        simp only [step, LanguageParser.new, himmediate]
      have hanswer : q.onFreshParse engine (.readied language config) = .ok answer := by
        simp only [Query.onFreshParse, LanguageParser.readied, LanguageParser.new, himmediate]
      rw [call?, callLength, steps, hentering, steps_done, hanswer]
  | none =>
      have hentering : (⟨loader, .new language config .builtin⟩ : World).step engine 0 q .entering
          = (⟨loader, .new language config .builtin⟩, .atCell) := by
        simp only [step, LanguageParser.new, himmediate]
        rfl
      -- the load and the attachment take a step each, and both succeed
      have hsteps : steps engine 0 q callLength
          (⟨loader, .new language config .builtin⟩, .entering)
          = (⟨loader, .readied language config⟩ : World).respond engine q := by
        rw [callLength, steps, hentering]
        rfl
      have hdone := respond_readied engine loader language config himmediate
      rw [call?, hsteps]
      generalize respond engine _ q = next at hdone
      obtain ⟨w, phase⟩ := next
      obtain rfl : phase = _ := hdone
      rfl

end World

/-- A new service asks the parser that it makes for a language. -/
theorem ParserService.call?_parserOf_bare (engine : Engine) (config : ParserConfig)
    (source : GrammarSource) (loader : Loader) (language : Language) (q : Query) :
    let made := (bare config source loader).parserOf language
    (made.2.call? engine made.1 q).1
      = ((⟨loader, .new language config source⟩ : World).call? engine q).2 := rfl

namespace CommandLine

/-- The end of a question in print. -/
def inPrint : Except Error Answer → Except String String
  | .ok answer => .ok (printed answer)
  | .error e   => .error e.message

theorem usesFloor_query (command : Command) (d : Document) :
    (command.query d).usesFloor = true ↔ ∃ fromStart, command = .trim fromStart none := by
  cases command with
  | trim fromStart minimum =>
      cases fromStart <;> cases minimum <;> simp [Command.query, Query.usesFloor]
  | _ => simp [Command.query, Query.usesFloor]

variable {engine : Engine}

/-- With settings in range, a command is answered from a fresh parse. -/
theorem respond_eq {config : ParserConfig} (hvalid : config.validate = .ok ())
    (language : Language) (command : Command) (d : Document) :
    respond engine config language command d
      = inPrint ((command.query d).onFreshParse engine (.new language config .builtin)) := by
  have hservice : service config
      = .ok (.bare config .builtin (Loader.fresh fun _ _ => .success true)) := by
    rw [service, ParserService.new, hvalid]
    rfl
  rw [respond, hservice]
  dsimp only
  rw [ParserService.call?_parserOf_bare, World.call?_new_builtin]
  cases (command.query d).onFreshParse engine (.new language config .builtin) <;> rfl

/-- **Two runs of one request agree**, whatever else the settings say. -/
theorem execute_congr {read read' : Reader} {inv inv' : Invocation} {c c' : ParserConfig}
    (hcommand : inv.command = inv'.command) (hfile : inv.file = inv'.file)
    (hlanguage : inv.language = inv'.language) (hread : read inv.file = read' inv'.file)
    (hvalid : c.validate = .ok ()) (hvalid' : c'.validate = .ok ())
    (hfloor : c.minBlockCount = c'.minBlockCount ∨
      ∀ fromStart, inv.command ≠ .trim fromStart none) :
    execute engine read c inv = execute engine read' c' inv' := by
  have hrespond : ∀ language d, respond engine c language inv.command d
      = respond engine c' language inv'.command d := by
    intro language d
    rw [respond_eq hvalid, respond_eq hvalid', ← hcommand]
    refine congrArg inPrint (Query.onFreshParse_congr engine rfl rfl ?_)
    intro huses
    rcases hfloor with hsame | hother
    · exact hsame
    · obtain ⟨fromStart, htrim⟩ := (usesFloor_query inv.command d).mp huses
      exact absurd htrim (hother fromStart)
  have hresolve : resolveLanguage inv = resolveLanguage inv' := by
    rw [resolveLanguage, resolveLanguage, hlanguage, hfile]
  rw [hfile] at hread
  simp only [execute, hresolve, hread, hrespond, hfile]

/-- The settings of a run are in range. -/
theorem validate_of_settingsOf {read : Reader} {inv : Invocation} {config : ParserConfig}
    (h : settingsOf read inv = .ok config) : config.validate = .ok () := by
  rw [settingsOf] at h
  split at h
  · cases h
    have hfault : ParserConfig.standard.fault? = none := by decide +kernel
    rw [ParserConfig.validate, hfault]
  · next path _ =>
      cases hread : read path with
      | error fault =>
          rw [hread] at h
          cases h
      | ok text =>
          rw [hread, ParserConfig.ofFile, ParserConfig.ofToml] at h
          cases hmembers : (Toml.parse? text).bind ParserConfig.ofMembers? with
          | none =>
              rw [hmembers] at h
              cases h
          | some found =>
              rw [hmembers] at h
              cases hvalid : found.validate with
              | error e =>
                  simp only [hvalid, bind, Except.bind] at h
                  cases h
              | ok _ =>
                  simp only [hvalid, bind, Except.bind] at h
                  cases h
                  exact hvalid

theorem run_eq_execute {read : Reader} {args : List String} {inv : Invocation}
    {config : ParserConfig} (hargs : parse args = .ok inv)
    (hsettings : settingsOf read inv = .ok config) :
    run engine read args = execute engine read config inv := by
  rw [run, hargs]
  dsimp only
  rw [hsettings]

/-- A request that fails prints nothing. -/
theorem output_execute_of_code (read : Reader) (config : ParserConfig) (inv : Invocation)
    (h : (execute engine read config inv).code ≠ 0) :
    (execute engine read config inv).output = "" := by
  rw [execute] at h ⊢
  generalize (resolveLanguage inv >>= _ : Except String String) = result at h ⊢
  cases result with
  | ok text => exact absurd rfl h
  | error message => rfl

/-- A run that fails prints nothing. -/
theorem output_run_of_code (read : Reader) (args : List String)
    (h : (run engine read args).code ≠ 0) : (run engine read args).output = "" := by
  rw [run] at h ⊢
  cases hargs : parse args with
  | error stop =>
      rw [hargs] at h
      cases stop with
      | usage => rfl
      | help => exact absurd rfl h
      | version => exact absurd rfl h
  | ok inv =>
      rw [hargs] at h
      dsimp only at h ⊢
      split
      · rfl
      · next config hsettings =>
          rw [hsettings] at h
          exact output_execute_of_code read config inv h

/-- **The settings of the store never show in what a command line prints.**  Any two settings in
    range give the same outcome for a request: the same exit code and the same output, if they
    have the same floor, or the request does not trim, or says the floor itself.  So do two
    command lines that ask for the same, read the same file and load such settings.  And a command
    line that fails prints nothing. -/
theorem output_ignores_store_settings (engine : Engine) (read : Reader) :
    (∀ (inv : Invocation) (c c' : ParserConfig), c.validate = .ok () → c'.validate = .ok () →
      (c.minBlockCount = c'.minBlockCount ∨ ∀ fromStart, inv.command ≠ .trim fromStart none) →
      execute engine read c inv = execute engine read c' inv) ∧
    (∀ (read' : Reader) (args args' : List String) (inv inv' : Invocation) (c c' : ParserConfig),
      parse args = .ok inv → parse args' = .ok inv' →
      inv.command = inv'.command → inv.file = inv'.file → inv.language = inv'.language →
      read inv.file = read' inv'.file →
      settingsOf read inv = .ok c → settingsOf read' inv' = .ok c' →
      (c.minBlockCount = c'.minBlockCount ∨ ∀ fromStart, inv.command ≠ .trim fromStart none) →
      run engine read args = run engine read' args') ∧
    ∀ args : List String, (run engine read args).code ≠ 0 → (run engine read args).output = "" := by
  refine ⟨?_, ?_, output_run_of_code read⟩
  · intro inv c c' hvalid hvalid' hfloor
    exact execute_congr rfl rfl rfl rfl hvalid hvalid' hfloor
  · intro read' args args' inv inv' c c' hargs hargs' hcommand hfile hlanguage hread hsettings
      hsettings' hfloor
    rw [run_eq_execute hargs hsettings, run_eq_execute hargs' hsettings']
    exact execute_congr hcommand hfile hlanguage hread (validate_of_settingsOf hsettings)
      (validate_of_settingsOf hsettings') hfloor

/-- A file to be trimmed, and settings with another floor and room for one document. -/
def Reader.smallStore : Reader := fun path =>
  if path = "small.toml" then
    .ok "cache_capacity = 1\ncache_ratio = 0\nmin_block_count = 2\n"
  else .ok "def f():if x:y\ndef g():z"

/-- The floor is given, so the settings do not show; the second of two functions is given up. -/
theorem output_ignores_small_store :
    let engine : Engine := fun _ _ => some twoFunctions
    let args := ["trim", "a", "--min-block-count", "1", "--language", "python"]
    run engine Reader.smallStore args
        = run engine Reader.smallStore (["--config", "small.toml"] ++ args) ∧
      run engine Reader.smallStore args = success "def f():if x:y\n" := by
  intro engine args
  have hargs : parse args = .ok ⟨.trim false (some 1), "a", none, some "python", false, false⟩ := by
    decide +kernel
  have hargs' : parse (["--config", "small.toml"] ++ args)
      = .ok ⟨.trim false (some 1), "a", some "small.toml", some "python", false, false⟩ := by
    decide +kernel
  have hsettings : settingsOf Reader.smallStore
      ⟨.trim false (some 1), "a", some "small.toml", some "python", false, false⟩
      = .ok ⟨1, Binary64.ofInt 0, 2⟩ := by
    decide +kernel
  refine ⟨?_, by decide +kernel⟩
  exact (output_ignores_store_settings engine Reader.smallStore).2.1 Reader.smallStore args _ _ _
    ParserConfig.standard _ hargs hargs' rfl rfl rfl rfl rfl hsettings (.inr nofun)

end CommandLine

end CodeBlocks
