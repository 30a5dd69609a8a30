import CodeBlocks.Locate
import CodeBlocks.Proofs.SyntaxTree.Scan
import Mathlib.Data.List.Basic

/-! # Listings — symbols are the named part of the blocks

    There are two listings.  That of the blocks scans the block kinds and
    classifies what it finds: a function if there is a signature, else a
    class, else any other block.  That of the symbols scans the function
    and class kinds, decides by the kind alone which of the two it has,
    and leaves out what has no signature.

    They agree where no kind is both function and class, and where both
    sorts of kinds are block kinds (`Aligned`).  It is a property of the
    tables, and the tables of all languages have it. -/

namespace CodeBlocks

namespace Taxonomy

/-- A taxonomy whose function and class kinds are block kinds, none of them both. -/
structure Aligned (t : Taxonomy) : Prop where
  functions : ∀ kind ∈ t.functions, kind ∈ t.blocks
  classes : ∀ kind ∈ t.classes, kind ∈ t.blocks
  apart : ∀ kind ∈ t.functions, kind ∉ t.classes

instance (t : Taxonomy) : Decidable t.Aligned :=
  decidable_of_iff (_ ∧ _ ∧ _) ⟨fun h => ⟨h.1, h.2.1, h.2.2⟩, fun h => ⟨h.1, h.2, h.3⟩⟩

theorem aligned_ofLanguage (language : Language) : (ofLanguage language).Aligned := by
  cases language <;> decide +kernel

/-! ## Kinds decide the category -/

section Kinds

variable {t : Taxonomy} {tree : SyntaxTree} {i : Nat}

theorem contains_symbols {kind : String} :
    t.symbols.contains kind = (t.isFunction kind || t.isClass kind) := by
  rw [Bool.eq_iff_iff, List.contains_iff_mem, symbols, List.mem_append, List.mem_filter,
    Bool.or_eq_true, isFunction, List.contains_iff_mem, isClass, List.contains_iff_mem]
  by_cases hfunction : kind ∈ t.functions
  · simp [hfunction]
  · simp [hfunction]

theorem functionInfo?_of_not_isFunction (h : t.isFunction (tree.node i).kind = false) :
    t.functionInfo? tree i = none := by
  simp [functionInfo?, h]

theorem classInfo?_of_not_isClass (h : t.isClass (tree.node i).kind = false) :
    t.classInfo? tree i = none := by
  simp [classInfo?, h]

theorem classify_of_functionInfo? {info : FunctionInfo} (h : t.functionInfo? tree i = some info) :
    t.classify tree i = .function info := by
  rw [classify, h]

theorem classify_of_classInfo? {info : ClassInfo} (hfunction : t.functionInfo? tree i = none)
    (h : t.classInfo? tree i = some info) : t.classify tree i = .classLike info := by
  rw [classify, hfunction, h]

theorem isOther_classify (hfunction : t.functionInfo? tree i = none)
    (hclass : t.classInfo? tree i = none) : (t.classify tree i).isOther = true := by
  rw [classify, hfunction, hclass]
  rfl

/-- **What the two listings make of one node**: the symbol, if it is of such a kind, is its block,
    if it is of such a kind, unless that is any other block. -/
theorem Aligned.symbol?_eq (h : t.Aligned) (tree : SyntaxTree) (i : Nat) :
    (if t.symbols.contains (tree.node i).kind then t.symbol? tree i else none)
      = Option.filter (fun block => !block.isOther)
          (if t.blocks.contains (tree.node i).kind then some (t.classify tree i) else none) := by
  rw [contains_symbols, symbol?]
  cases hfunction : t.isFunction (tree.node i).kind with
  | true =>
      have hmem : (tree.node i).kind ∈ t.functions := List.contains_iff_mem.mp hfunction
      have hblock : t.blocks.contains (tree.node i).kind = true :=
        List.contains_iff_mem.mpr (h.functions _ hmem)
      have hclass : t.isClass (tree.node i).kind = false :=
        Bool.eq_false_iff.mpr fun hc => h.apart _ hmem (List.contains_iff_mem.mp hc)
      simp only [Bool.true_or, if_true, hblock]
      cases hinfo : t.functionInfo? tree i with
      | some info =>
          rw [classify_of_functionInfo? hinfo]
          rfl
      | none =>
          -- no signature: not a symbol, and no class either, so any other block
          have hother := isOther_classify hinfo (classInfo?_of_not_isClass hclass)
          rw [Option.filter_some, hother]
          rfl
  | false =>
      have hnone := functionInfo?_of_not_isFunction hfunction
      cases hclass : t.isClass (tree.node i).kind with
      | true =>
          have hblock : t.blocks.contains (tree.node i).kind = true :=
            List.contains_iff_mem.mpr (h.classes _ (List.contains_iff_mem.mp hclass))
          obtain ⟨info, hinfo⟩ : ∃ info, t.classInfo? tree i = some info := by
            simp [classInfo?, hclass]
          simp only [Bool.or_true, if_true, hblock, hinfo, Bool.false_eq_true, if_false]
          rw [classify_of_classInfo? hnone hinfo]
          rfl
      | false =>
          have hother := isOther_classify hnone (classInfo?_of_not_isClass hclass)
          simp only [Bool.or_self, Bool.false_eq_true, if_false]
          split
          · rw [Option.filter_some, hother]
            rfl
          · rfl

end Kinds

end Taxonomy

/-! ## The two listings -/

namespace SyntaxTree

variable (source : String) (parsed : ParseTree)

/-- Without a window, a scan is a filter of the descendants. -/
theorem ofKind_none (i : Nat) (kinds : List String) :
    (ofParse source parsed).ofKind i kinds none
      = ((ofParse source parsed).descendants i).filter fun d =>
          kinds.contains ((ofParse source parsed).node d).kind := by
  have hn := nested_ofParse source parsed
  have hall := hn.eq_filter (Nested.prunable_none (i + 1)) (hn.scans_ofKind i kinds none)
    (Nat.le_refl _)
  rw [hall]
  exact List.filter_congr fun d _ => Bool.and_true _

theorem listBlocks_eq (t : Taxonomy) :
    t.listBlocks (ofParse source parsed)
      = ((ofParse source parsed).descendants 0).filterMap fun d =>
          if t.blocks.contains ((ofParse source parsed).node d).kind
          then some (t.classify (ofParse source parsed) d) else none := by
  rw [Taxonomy.listBlocks, ofKind_none, ← List.filterMap_eq_map, List.filterMap_filter]
  rfl

theorem listSymbols_eq (t : Taxonomy) :
    t.listSymbols (ofParse source parsed)
      = ((ofParse source parsed).descendants 0).filterMap fun d =>
          if t.symbols.contains ((ofParse source parsed).node d).kind
          then t.symbol? (ofParse source parsed) d else none := by
  rw [Taxonomy.listSymbols, ofKind_none, List.filterMap_filter]

end SyntaxTree

/-- **Symbols are the named part of the blocks.**  In every language and every flattened tree, the
    listing of functions and classes is that of all blocks without the ones that are neither: the
    same entries, in the same order, each as often. -/
theorem symbols_are_named_blocks (language : Language) (source : String) (parsed : ParseTree) :
    let t := Taxonomy.ofLanguage language
    let tree := SyntaxTree.ofParse source parsed
    t.listSymbols tree = (t.listBlocks tree).filter fun block => !block.isOther := by
  intro t tree
  have haligned : t.Aligned := Taxonomy.aligned_ofLanguage language
  rw [SyntaxTree.listSymbols_eq, SyntaxTree.listBlocks_eq, List.filter_filterMap]
  refine List.filterMap_congr ?_
  intro d _
  exact haligned.symbol?_eq tree d

end CodeBlocks
