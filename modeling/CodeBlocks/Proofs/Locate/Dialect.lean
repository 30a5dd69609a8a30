import CodeBlocks.Proofs.Locate.Listing
import CodeBlocks.Proofs.Locate.Offset

/-! # Markup dialects — more blocks, and nothing else

    A markup dialect is its base language with more kinds of blocks: the
    kinds of markup.  What a function or a class is, and how it is named,
    stays as it was.  So the symbols of a tree are the same in both, and
    the blocks of the base are those of the dialect without the markup.

    At an offset the nearest function is looked for first, and it is the
    same in both.  Without one, the dialect may stop at markup on its way
    up from the offset, below the block at which the base stops. -/

namespace CodeBlocks

/-- The markup dialect of a language that has one. -/
def Language.dialect? : Language → Option Language
  | javascript => some jsx
  | typescript => some tsx
  | _          => none

/-- A search that accepts more kinds stops where the narrower one does, or before it at a node of
    a kind that only the wider one accepts. -/
theorem SyntaxTree.Linked.enclosing?_widen {tree : SyntaxTree} (h : tree.Linked)
    {accepts more : String → Bool} (hmore : ∀ kind, accepts kind = true → more kind = true)
    (i offset : Nat) :
    tree.enclosing? more i offset = tree.enclosing? accepts i offset ∨
    ∃ m, tree.enclosing? more i offset = some m ∧ accepts (tree.node m).kind = false ∧
      ∀ b, tree.enclosing? accepts i offset = some b → tree.Above b m := by
  have hfalling := h.pairwise_lineage i
  have hstops : ∀ j, tree.stopsAt accepts offset j = true → tree.stopsAt more offset j = true := by
    intro j hj
    obtain ⟨hcontains, haccepts⟩ := Bool.and_eq_true_iff.mp hj
    exact Bool.and_eq_true_iff.mpr ⟨hcontains, hmore _ haccepts⟩
  cases hwide : tree.enclosing? more i offset with
  | none =>
      refine .inl (Eq.symm (List.find?_eq_none.mpr ?_))
      intro j hj hnarrow
      exact List.find?_eq_none.mp hwide j hj (hstops j hnarrow)
  | some m =>
      obtain ⟨⟨hm, hstopsM⟩, hgreatest⟩ := SyntaxTree.isGreatest_of_find? hfalling hwide
      cases haccepts : accepts (tree.node m).kind with
      | true =>
          -- the narrower search stops at `m` too, and nowhere before it
          refine .inl (Eq.symm ?_)
          have hnarrowM : tree.stopsAt accepts offset m = true :=
            Bool.and_eq_true_iff.mpr ⟨(Bool.and_eq_true_iff.mp hstopsM).1, haccepts⟩
          cases hnarrow : tree.enclosing? accepts i offset with
          | none => exact absurd hnarrowM (List.find?_eq_none.mp hnarrow m hm)
          | some b =>
              obtain ⟨⟨hb, hstopsB⟩, hgreatestB⟩ := SyntaxTree.isGreatest_of_find? hfalling hnarrow
              exact congrArg some
                (Nat.le_antisymm (hgreatest ⟨hb, hstops b hstopsB⟩) (hgreatestB ⟨hm, hnarrowM⟩))
      | false =>
          refine .inr ⟨m, rfl, haccepts, ?_⟩
          intro b hnarrow
          obtain ⟨⟨hb, hstopsB⟩, -⟩ := SyntaxTree.isGreatest_of_find? hfalling hnarrow
          have hle : b ≤ m := hgreatest ⟨hb, hstops b hstopsB⟩
          have hne : b ≠ m := by
            rintro rfl
            rw [(Bool.and_eq_true_iff.mp hstopsB).2] at haccepts
            cases haccepts
          exact h.above_of_steps (h.mem_lineage.mp hb) (h.mem_lineage.mp hm)
            (Nat.lt_of_le_of_ne hle hne)

namespace Taxonomy

/-- A node as it is reported at an offset that lies in no function: over whole lines. -/
def overLines (tree : SyntaxTree) (i : Nat) : Block :=
  otherBlock tree i (TextRange.wholeLines (tree.node i).span)

/-- A listed block has the kind of its node. -/
theorem kind_classify (t : Taxonomy) (tree : SyntaxTree) (i : Nat) :
    (t.classify tree i).kind = (tree.node i).kind := by
  rw [classify]
  split
  · next info hinfo =>
      simp only [functionInfo?] at hinfo
      split at hinfo
      · cases hinfo
      · split at hinfo
        · simp only [bind, Option.bind_eq_some_iff] at hinfo
          obtain ⟨rule, -, ⟨declarator, declaration⟩, -, heq⟩ := hinfo
          cases heq
          rfl
        · cases hinfo
          rfl
  · split
    · next info hinfo =>
        simp only [classInfo?] at hinfo
        split at hinfo
        · cases hinfo
          rfl
        · cases hinfo
    · rfl

/-- What is reported at an offset where there is no function. -/
theorem blockAt?_of_functionAt?_eq_none {t : Taxonomy} {tree : SyntaxTree} {offset : Nat}
    (h : t.functionAt? tree offset = none) :
    t.blockAt? tree offset
      = (t.enclosingBlock? tree (tree.deepestAtOffset 0 offset) offset).map (overLines tree) := by
  rw [blockAt?, h]
  rfl

theorem blockAt?_eq_function_iff {t : Taxonomy} {tree : SyntaxTree} {offset : Nat}
    {info : FunctionInfo} :
    t.blockAt? tree offset = some (.function info) ↔ t.functionAt? tree offset = some info := by
  cases h : t.functionAt? tree offset with
  | some found => simp [blockAt?, h]
  | none =>
      rw [blockAt?_of_functionAt?_eq_none h]
      simp [overLines, otherBlock]

/-! ## A taxonomy with markup -/

section WithMarkup

variable (t : Taxonomy) (language : Language)

theorem isBlock_withMarkup (kind : String) :
    (t.withMarkup language).isBlock kind = (t.isBlock kind || Kinds.markup.contains kind) :=
  List.contains_append

/-- Symbols are extracted by the tables that markup leaves alone. -/
theorem listSymbols_withMarkup (tree : SyntaxTree) :
    (t.withMarkup language).listSymbols tree = t.listSymbols tree := rfl

theorem classify_withMarkup (tree : SyntaxTree) (i : Nat) :
    (t.withMarkup language).classify tree i = t.classify tree i := rfl

theorem functionAt?_withMarkup (tree : SyntaxTree) (offset : Nat) :
    (t.withMarkup language).functionAt? tree offset = t.functionAt? tree offset := rfl

variable {t}

/-- Without the blocks of markup, the blocks are those of the base. -/
theorem listBlocks_withMarkup (hplain : ∀ kind ∈ Kinds.markup, kind ∉ t.blocks) (source : String)
    (parsed : ParseTree) :
    ((t.withMarkup language).listBlocks (SyntaxTree.ofParse source parsed)).filter
        (fun block => !Kinds.markup.contains block.kind)
      = t.listBlocks (SyntaxTree.ofParse source parsed) := by
  rw [listBlocks, listBlocks, SyntaxTree.ofKind_none, SyntaxTree.ofKind_none, List.filter_map,
    List.filter_filter]
  refine congrArg (List.map _) (List.filter_congr ?_)
  intro d _
  -- of the kinds accepted by the dialect exactly those of the base are no markup
  simp only [Function.comp_apply, classify_withMarkup, kind_classify]
  generalize ((SyntaxTree.ofParse source parsed).node d).kind = kind
  show (!Kinds.markup.contains kind && (t.withMarkup language).isBlock kind) = t.isBlock kind
  rw [isBlock_withMarkup]
  cases hmarkup : Kinds.markup.contains kind with
  | false => simp
  | true =>
      have hblock : t.isBlock kind = false := by
        refine Bool.eq_false_iff.mpr fun hmem => ?_
        exact hplain kind (List.contains_iff_mem.mp hmarkup) (List.contains_iff_mem.mp hmem)
      simp [hblock]

/-- Where there is no function, the dialect reports what the base does, or markup below it. -/
theorem blockAt?_withMarkup {tree : SyntaxTree} (h : tree.Linked) {offset : Nat}
    (hnone : t.functionAt? tree offset = none) :
    (t.withMarkup language).blockAt? tree offset = t.blockAt? tree offset ∨
    ∃ m, (tree.node m).kind ∈ Kinds.markup ∧ (tree.node m).containsOffset offset = true ∧
      (t.withMarkup language).blockAt? tree offset = some (overLines tree m) ∧
      ∀ b, t.enclosingBlock? tree (tree.deepestAtOffset 0 offset) offset = some b →
        tree.Above b m := by
  have hnone' : (t.withMarkup language).functionAt? tree offset = none := hnone
  rw [blockAt?_of_functionAt?_eq_none hnone, blockAt?_of_functionAt?_eq_none hnone']
  have hmore : ∀ kind, t.isBlock kind = true → (t.withMarkup language).isBlock kind = true := by
    intro kind hkind
    rw [isBlock_withMarkup, hkind, Bool.true_or]
  rcases h.enclosing?_widen hmore (tree.deepestAtOffset 0 offset) offset with
    hsame | ⟨m, hwide, hother, habove⟩
  · exact .inl (congrArg (Option.map (overLines tree)) hsame)
  · have hstops : tree.stopsAt (t.withMarkup language).isBlock offset m = true :=
      List.find?_some hwide
    obtain ⟨hcontains, hblock⟩ := Bool.and_eq_true_iff.mp hstops
    rw [isBlock_withMarkup, hother, Bool.false_or] at hblock
    exact .inr ⟨m, List.contains_iff_mem.mp hblock, hcontains,
      congrArg (Option.map (overLines tree)) hwide, habove⟩

end WithMarkup

end Taxonomy

/-- A dialect has the taxonomy of its base with markup, and its base has none. -/
theorem Language.ofLanguage_dialect {base dialect : Language} (h : base.dialect? = some dialect) :
    Taxonomy.ofLanguage dialect = (Taxonomy.ofLanguage base).withMarkup dialect ∧
      ∀ kind ∈ Kinds.markup, kind ∉ (Taxonomy.ofLanguage base).blocks := by
  cases base with
  | javascript =>
      cases h
      exact ⟨rfl, by decide +kernel⟩
  | typescript =>
      cases h
      exact ⟨rfl, by decide +kernel⟩
  | _ => cases h

/-- **A markup dialect extends its base and changes nothing else.**  In every flattened tree, the
    symbols are the same in both, and the blocks of the base are those of the dialect without the
    ones of markup.  At every offset both report the same function or none; and where they report
    none, the dialect reports what the base does, or a node of markup around the offset that is
    below the node reported by the base, if there is one. -/
theorem dialect_extends_base (base dialect : Language) (hdialect : base.dialect? = some dialect)
    (source : String) (parsed : ParseTree) :
    let t := Taxonomy.ofLanguage base
    let t' := Taxonomy.ofLanguage dialect
    let tree := SyntaxTree.ofParse source parsed
    t'.listSymbols tree = t.listSymbols tree ∧
    t.listBlocks tree
      = (t'.listBlocks tree).filter (fun block => !Kinds.markup.contains block.kind) ∧
    ∀ offset,
      (∀ info, t'.blockAt? tree offset = some (.function info) ↔
        t.blockAt? tree offset = some (.function info)) ∧
      ((∀ info, t.blockAt? tree offset ≠ some (.function info)) →
        t'.blockAt? tree offset = t.blockAt? tree offset ∨
        ∃ m, (tree.node m).kind ∈ Kinds.markup ∧ (tree.node m).containsOffset offset = true ∧
          t'.blockAt? tree offset = some (Taxonomy.overLines tree m) ∧
          ∀ block, t.blockAt? tree offset = some block →
            ∃ b, t.enclosingBlock? tree (tree.deepestAtOffset 0 offset) offset = some b ∧
              block = Taxonomy.overLines tree b ∧ tree.Above b m) := by
  intro t t' tree
  obtain ⟨ht, hplain⟩ := Language.ofLanguage_dialect hdialect
  have ht' : t' = t.withMarkup dialect := ht
  rw [ht']
  refine ⟨t.listSymbols_withMarkup dialect tree,
    (Taxonomy.listBlocks_withMarkup dialect hplain source parsed).symm, fun offset => ⟨?_, ?_⟩⟩
  · intro info
    rw [Taxonomy.blockAt?_eq_function_iff, Taxonomy.blockAt?_eq_function_iff,
      Taxonomy.functionAt?_withMarkup]
  · intro hother
    have hnone : t.functionAt? tree offset = none := by
      refine Option.eq_none_iff_forall_ne_some.mpr fun info hinfo => ?_
      exact hother info (Taxonomy.blockAt?_eq_function_iff.mpr hinfo)
    have hlinked : tree.Linked := SyntaxTree.linked_ofParse source parsed
    rcases Taxonomy.blockAt?_withMarkup dialect hlinked hnone with
      hsame | ⟨m, hmarkup, hcontains, hreported, habove⟩
    · exact .inl hsame
    · refine .inr ⟨m, hmarkup, hcontains, hreported, ?_⟩
      intro block hblock
      rw [Taxonomy.blockAt?_of_functionAt?_eq_none hnone] at hblock
      obtain ⟨b, hb, rfl⟩ := Option.map_eq_some_iff.mp hblock
      exact ⟨b, hb, rfl, habove b hb⟩

/-- A branch with markup in it, markup alone, and a function whose body is markup. -/
def markedUp : ParseTree :=
  let node := fun (kind : String) (field : Option String) (row first last column : Nat) =>
    (⟨kind, field, true, false,
      ⟨first, last, ⟨row, column⟩, ⟨row, column + (last - first)⟩⟩⟩ : EngineNode)
  ⟨⟨"program", none, true, false, ⟨0, 43, ⟨0, 0⟩, ⟨2, 17⟩⟩⟩,
    .cons (node "if_statement" none 0 0 20 0)
      (.cons (node "arguments" none 0 8 20 8)
        (.cons (node "jsx_element" none 0 9 19 9)
          (.cons (node "jsx_expression" none 0 12 15 12) .nil .nil) .nil) .nil)
      (.cons (node "jsx_self_closing_element" none 1 21 25 0) .nil
        (.cons (node "lexical_declaration" none 2 26 43 0)
          (.cons (node "variable_declarator" none 2 30 43 4)
            (.cons (node "identifier" (some "name") 2 30 31 4) .nil
              (.cons (node "arrow_function" none 2 34 43 8)
                (.cons (node "jsx_self_closing_element" none 2 39 43 13) .nil .nil) .nil)) .nil)
          .nil))⟩

/-- In the branch the dialect finds the markup below it; markup alone is found by the dialect only;
    and in the body of the function both find the function. -/
theorem dialect_extends_base_markedUp :
    let source := "if (x) f(<a>{y}</a>)\n<b/>\nlet g = () => <c/>"
    let tree := SyntaxTree.ofParse source markedUp
    let jsx := Taxonomy.ofLanguage .jsx
    let javascript := Taxonomy.ofLanguage .javascript
    Language.javascript.dialect? = some .jsx ∧
      javascript.blockAt? tree 13 = some (Taxonomy.overLines tree 1) ∧
      jsx.blockAt? tree 13 = some (Taxonomy.overLines tree 4) ∧
      (∃ m, (tree.node m).kind ∈ Kinds.markup ∧ tree.Above 1 m) ∧
      javascript.blockAt? tree 22 = none ∧
      jsx.blockAt? tree 22 = some (Taxonomy.overLines tree 5) ∧
      jsx.blockAt? tree 40 = some (.function ⟨"g", [], ⟨3, 1, 3, 18⟩, "arrow_function"⟩) := by
  intro source tree jsx javascript
  have hbranch : javascript.blockAt? tree 13 = some (Taxonomy.overLines tree 1) := by
    decide +kernel
  have hmarkup : jsx.blockAt? tree 13 = some (Taxonomy.overLines tree 4) := by decide +kernel
  have hfunction : javascript.blockAt? tree 40
      = some (.function ⟨"g", [], ⟨3, 1, 3, 18⟩, "arrow_function"⟩) := by decide +kernel
  obtain ⟨-, -, hat⟩ := dialect_extends_base .javascript .jsx rfl source markedUp
  obtain ⟨-, hother⟩ := hat 13
  have hbelow : ∃ m, (tree.node m).kind ∈ Kinds.markup ∧ tree.Above 1 m := by
    rcases hother (fun info heq => nomatch hbranch.symm.trans heq) with
      hsame | ⟨m, hm, -, -, habove⟩
    · exact absurd (hmarkup.symm.trans (hsame.trans hbranch)) (by decide +kernel)
    · obtain ⟨b, hb, -, hmb⟩ := habove _ hbranch
      have hfound : javascript.enclosingBlock? tree (tree.deepestAtOffset 0 13) 13 = some 1 := by
        decide +kernel
      obtain rfl : b = 1 := Option.some.inj (hb.symm.trans hfound)
      exact ⟨m, hm, hmb⟩
  exact ⟨rfl, hbranch, hmarkup, hbelow, by decide +kernel, by decide +kernel,
    ((hat 40).1 _).mpr hfunction⟩

end CodeBlocks
