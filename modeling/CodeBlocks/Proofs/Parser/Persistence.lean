import CodeBlocks.Parser.Run

/-! # What events leave of a parser — the same parser, disposed only by disposal

    Calls come and go, but a parser stays what it was made for.  A step of
    a call leaves its language, its settings and whether it is disposed as
    they were (`Keeps`): so does asking for a tree, however it ends
    (`Obtains`).  Disposal changes the last of these, for good; so along
    any events a parser persists (`Persists`), and it is disposed exactly
    if it was before or one of them is its disposal. -/

namespace CodeBlocks

namespace LanguageParser

/-! ## What asking for a tree can do -/

/-- All that asking for a document's tree can do. -/
inductive Obtains (engine : Engine) (p : LanguageParser) (d : Document) :
    Except Error SharedTree × LanguageParser → Prop where
  | refused : p.disposed = true → Obtains engine p d (.error .disposed, p)
  | found {shared : SharedTree} {trees : RecencyCache String SharedTree} : p.disposed = false →
      p.trees.get? d.key = (some shared, trees) →
      Obtains engine p d (.ok shared, { p with trees })
  | failed {e : Error} : p.disposed = false → p.parse engine d.text = .error e →
      Obtains engine p d (.error e, p)
  | stored {tree : SyntaxTree} : p.disposed = false → p.parse engine d.text = .ok tree →
      Obtains engine p d (.ok ⟨p.parses, tree⟩,
        { p with trees := p.trees.set d.key ⟨p.parses, tree⟩, parses := p.parses + 1 })

theorem obtains_parseDocument (engine : Engine) (p : LanguageParser) (d : Document) :
    Obtains engine p d (p.parseDocument engine d) := by
  rw [parseDocument]
  split
  · next hdisposed => exact .refused hdisposed
  · next hlive =>
      have hlive : p.disposed = false := Bool.eq_false_iff.mpr hlive
      split
      · next hget => exact .found hlive hget
      · split
        · next herror => exact .failed hlive herror
        · next hok => exact .stored hlive hok

/-! ## What stays of a parser -/

/-- The later state of a parser. -/
structure Persists (p p' : LanguageParser) : Prop where
  language : p'.language = p.language
  config : p'.config = p.config
  disposed : p.disposed = true → p'.disposed = true

theorem Persists.refl (p : LanguageParser) : p.Persists p := ⟨rfl, rfl, id⟩

theorem Persists.trans {p p' p'' : LanguageParser} (h : p.Persists p') (h' : p'.Persists p'') :
    p.Persists p'' :=
  ⟨h'.language.trans h.language, h'.config.trans h.config, fun hd => h'.disposed (h.disposed hd)⟩

/-- The state of a parser after a step of a call. -/
structure Keeps (p p' : LanguageParser) : Prop where
  language : p'.language = p.language
  config : p'.config = p.config
  disposed : p'.disposed = p.disposed

theorem Keeps.refl (p : LanguageParser) : p.Keeps p := ⟨rfl, rfl, rfl⟩

theorem Keeps.persists {p p' : LanguageParser} (h : p.Keeps p') : p.Persists p' :=
  ⟨h.language, h.config, h.disposed.trans⟩

theorem persists_dispose (p : LanguageParser) : p.Persists p.dispose := by
  rw [dispose]
  split
  · exact .refl p
  · exact ⟨rfl, rfl, fun _ => rfl⟩

theorem disposed_dispose (p : LanguageParser) : p.dispose.disposed = true := by
  rw [LanguageParser.dispose]
  split
  · next hdisposed => exact hdisposed
  · rfl

theorem dispose_dispose (p : LanguageParser) : p.dispose.dispose = p.dispose := by
  rw [dispose, if_pos p.disposed_dispose]

theorem Obtains.keeps {engine : Engine} {p : LanguageParser} {d : Document}
    {result : Except Error SharedTree × LanguageParser} (h : Obtains engine p d result) :
    p.Keeps result.2 := by
  cases h with
  | refused _ => exact .refl p
  | found _ _ => exact ⟨rfl, rfl, rfl⟩
  | failed _ _ => exact .refl p
  | stored _ _ => exact ⟨rfl, rfl, rfl⟩

end LanguageParser

/-! ## Along events -/

theorem World.keeps_step (engine : Engine) (caller : Caller) (q : Query) (w : World)
    (phase : Phase) : w.parser.Keeps (w.step engine caller q phase).1.parser := by
  cases phase with
  | entering =>
      simp only [step]
      split
      · exact .refl _
      · split <;> exact .refl _
  | atCell =>
      show w.parser.Keeps (w.enterCell caller).1.parser
      rw [enterCell]
      split
      · exact .refl _
      · split <;> exact ⟨rfl, rfl, rfl⟩
  | waiting =>
      show w.parser.Keeps (w.keepWaiting caller).1.parser
      rw [keepWaiting]
      split
      · exact .refl _
      · split
        · exact ⟨rfl, rfl, rfl⟩
        · exact .refl _
  | loading outcome => cases outcome <;> exact ⟨rfl, rfl, rfl⟩
  | admitted grammar =>
      show w.parser.Keeps (w.attach grammar).1.parser
      dsimp only [attach]
      split
      · exact .refl _
      · split
        · exact .refl _
        · split
          · exact ⟨rfl, rfl, rfl⟩
          · exact .refl _
  | prepared =>
      show w.parser.Keeps (w.respond engine q).1.parser
      rw [respond]
      split
      · exact .refl _
      · exact (LanguageParser.obtains_parseDocument engine w.parser _).keeps
      · exact .refl _
  | done result => exact .refl _

namespace Run

theorem keeps_resume (engine : Engine) (r : Run) (caller : Caller) :
    r.world.parser.Keeps (r.resume engine caller).world.parser := by
  rw [resume]
  split
  · exact .refl _
  · exact World.keeps_step engine caller _ r.world _

/-- **Every event leaves the parser the same parser.** -/
theorem persists_apply (engine : Engine) (r : Run) (event : Event) :
    r.world.parser.Persists (r.apply engine event).world.parser := by
  cases event with
  | call q => exact .refl _
  | dispose => exact LanguageParser.persists_dispose _
  | resume caller => exact (r.keeps_resume engine caller).persists

theorem persists_applyAll (engine : Engine) (r : Run) (events : List Event) :
    r.world.parser.Persists (r.applyAll engine events).world.parser := by
  induction events generalizing r with
  | nil => exact .refl _
  | cons event events ih => exact (r.persists_apply engine event).trans (ih _)

/-- An event disposes the parser only if it is its disposal. -/
theorem disposed_apply (engine : Engine) (r : Run) (event : Event) :
    (r.apply engine event).world.parser.disposed = true ↔
      r.world.parser.disposed = true ∨ event = .dispose := by
  cases event with
  | call q => simp [apply, enter]
  | dispose => simp [apply, dispose, LanguageParser.disposed_dispose]
  | resume caller => simp [apply, (r.keeps_resume engine caller).disposed]

/-- **Only disposal disposes, and nothing undoes it.** -/
theorem disposed_applyAll (engine : Engine) (r : Run) (events : List Event) :
    (r.applyAll engine events).world.parser.disposed = true ↔
      r.world.parser.disposed = true ∨ .dispose ∈ events := by
  induction events generalizing r with
  | nil => simp [applyAll]
  | cons event events ih =>
      rw [show r.applyAll engine (event :: events) = (r.apply engine event).applyAll engine events
        from rfl, ih, disposed_apply, List.mem_cons, or_assoc, @eq_comm _ event]

end Run

end CodeBlocks
