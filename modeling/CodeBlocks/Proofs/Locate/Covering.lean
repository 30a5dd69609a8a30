import CodeBlocks.Proofs.Locate.Placement
import CodeBlocks.Proofs.SyntaxTree.Coordinates
import CodeBlocks.Proofs.SyntaxTree.Descent

/-! # Covering — the block reported at an offset lies around it

    A lookup works in bytes and answers with a range of lines and columns.
    The node it finds contains the offset, and so does every node above
    it; the point of the offset then lies between the points of either.
    Widened to whole lines a range only grows.

    Nothing is found past the end of the text, where no node reaches. -/

namespace CodeBlocks

open Relation

/-- The points of a text that can be counted can be counted from one. -/
theorem Text.countable_pointAt {text : List Char} (hfits : byteLength text < Word.greatest)
    (offset : Nat) : (pointAt text offset).Countable := by
  obtain ⟨hrow, hcolumn⟩ := pointAt_le text offset
  exact ⟨Nat.lt_of_le_of_lt hrow hfits, Nat.lt_of_le_of_lt hcolumn hfits⟩

namespace Span.LiesIn

variable {text : List Char} {span : Span} (h : span.LiesIn text)
variable (hfits : Text.byteLength text < Word.greatest)

include h hfits

theorem countable : span.start.Countable ∧ span.stop.Countable := by
  rw [h.start_eq, h.stop_eq]
  exact ⟨Text.countable_pointAt hfits _, Text.countable_pointAt hfits _⟩

variable {offset : Nat} (hstart : span.startByte ≤ offset) (hend : offset ≤ span.endByte)

include hstart hend

/-- The range of a span covers the offsets of the span. -/
theorem ofSpan_covers :
    (TextRange.ofSpan span).startPoint ≤ Text.pointAt text offset ∧
      Text.pointAt text offset ≤ (TextRange.ofSpan span).endPoint := by
  obtain ⟨hcountStart, hcountStop⟩ := h.countable hfits
  have hoffset := Nat.le_trans hend h.endByte_le
  constructor
  · rw [TextRange.startPoint_ofSpan hcountStart]
    exact (h.start_le_iff hoffset).mpr hstart
  · calc Text.pointAt text offset
        ≤ span.stop := (h.le_stop_iff hoffset).mpr hend
      _ ≤ (TextRange.ofSpan span).endPoint := TextRange.stop_le_endPoint_ofSpan hcountStop

/-- So do its whole lines. -/
theorem wholeLines_covers :
    (TextRange.wholeLines span).startPoint ≤ Text.pointAt text offset ∧
      Text.pointAt text offset ≤ (TextRange.wholeLines span).endPoint := by
  obtain ⟨hcountStart, hcountStop⟩ := h.countable hfits
  have hoffset := Nat.le_trans hend h.endByte_le
  have hafter := (h.start_le_iff hoffset).mpr hstart
  have hbefore := (h.le_stop_iff hoffset).mpr hend
  have hcolumn := (Text.countable_pointAt hfits offset).2
  rw [TextRange.startPoint_wholeLines hcountStart.1, TextRange.endPoint_wholeLines hcountStop.1]
  -- the column of the start is least in its line, that of the end greatest in its own
  constructor
  · rw [Point.le_def] at hafter ⊢
    dsimp only
    omega
  · rw [Point.le_def] at hbefore ⊢
    dsimp only
    omega

end Span.LiesIn

/-- What goes up from a node stops where the offset is contained. -/
theorem SyntaxTree.contains_of_enclosing? {tree : SyntaxTree} {accepts : String → Bool}
    {i offset found : Nat} (h : tree.enclosing? accepts i offset = some found) :
    (tree.node found).span.startByte ≤ offset ∧ offset ≤ (tree.node found).span.endByte := by
  have haccepted := List.find?_some h
  exact of_decide_eq_true (Bool.and_eq_true_iff.mp haccepted).1

/-- **What is reported at an offset**: a node that contains the offset, as a function over its own
    node or one above it, or over whole lines. -/
theorem Taxonomy.blockAt?_cases {t : Taxonomy} {tree : SyntaxTree} {offset : Nat} {b : Block}
    (h : t.blockAt? tree offset = some b) :
    ∃ found, ((tree.node found).span.startByte ≤ offset ∧ offset ≤ (tree.node found).span.endByte) ∧
      ((∃ placed, ReflTransGen tree.Up found placed ∧
          b.range = TextRange.ofSpan (tree.node placed).span) ∨
        b.range = TextRange.wholeLines (tree.node found).span) := by
  rw [blockAt?] at h
  split at h
  · next info hinfo =>
      cases h
      obtain ⟨found, hfound, hsignature⟩ := Option.bind_eq_some_iff.mp hinfo
      exact ⟨found, SyntaxTree.contains_of_enclosing? hfound,
        .inl (exists_placed_of_functionInfo? hsignature)⟩
  · obtain ⟨found, hfound, rfl⟩ := Option.map_eq_some_iff.mp h
    exact ⟨found, SyntaxTree.contains_of_enclosing? hfound, .inr rfl⟩

/-- **The block reported at an offset covers it.**  In every consistent flattened tree whose nodes
    lie at the points of their bytes in a text that can be counted, with every taxonomy: the range
    of the block around an offset of the text starts no later and ends no earlier than the point of
    the offset, and past the end of the text there is no block. -/
theorem block_at_offset_covers (source : String) (parsed : ParseTree)
    (hfits : Text.byteLength source.toList < Word.greatest)
    (hc : (SyntaxTree.ofParse source parsed).Consistent)
    (hp : (SyntaxTree.ofParse source parsed).Positioned) (t : Taxonomy) (offset : Nat) :
    let tree := SyntaxTree.ofParse source parsed
    (∀ b, t.blockAt? tree offset = some b →
      b.range.startPoint ≤ Text.pointAt source.toList offset ∧
        Text.pointAt source.toList offset ≤ b.range.endPoint) ∧
    (Text.byteLength source.toList < offset → t.blockAt? tree offset = none) := by
  intro tree
  constructor
  · intro b hb
    obtain ⟨found, ⟨hstart, hend⟩, ⟨placed, hsteps, hrange⟩ | hrange⟩ :=
      Taxonomy.blockAt?_cases hb
    · have hwithin := (SyntaxTree.linked_ofParse source parsed).within_of_steps
        (·.span.startByte) (·.span.endByte) hc.within hsteps
      rw [hrange]
      exact (hp.liesIn placed).ofSpan_covers hfits (Nat.le_trans hwithin.1 hstart)
        (Nat.le_trans hend hwithin.2)
    · rw [hrange]
      exact (hp.liesIn found).wholeLines_covers hfits hstart hend
  · intro hpast
    refine Option.eq_none_iff_forall_ne_some.mpr ?_
    intro b hb
    obtain ⟨found, ⟨-, hend⟩, -⟩ := Taxonomy.blockAt?_cases hb
    have hlast : (tree.node found).span.endByte ≤ Text.byteLength source.toList :=
      (hp.liesIn found).endByte_le
    omega

/-- At the body of a bound literal its declaration is reported, within a name in a condition the
    whole line of the branch; both cover the offset. -/
theorem block_at_offset_covers_boundLiteral :
    let source := "const é = () => 1\n\nif (é) f()\n"
    let tree := SyntaxTree.ofParse source boundLiteral
    (Text.byteLength source.toList < Word.greatest ∧ tree.Consistent ∧ tree.Positioned) ∧
      Taxonomy.javascript.blockAt? tree 17
        = some (.function ⟨"é", [], ⟨1, 1, 1, 19⟩, "arrow_function"⟩) ∧
      Taxonomy.javascript.blockAt? tree 25
        = some (.other ⟨⟨3, 1, 3, TextRange.endOfLine⟩, "if_statement"⟩) ∧
      (⟨0, 0⟩ ≤ Text.pointAt source.toList 17 ∧ Text.pointAt source.toList 17 ≤ ⟨0, 18⟩) ∧
      (⟨2, 0⟩ ≤ Text.pointAt source.toList 25 ∧
        Text.pointAt source.toList 25 ≤ ⟨2, Word.greatest⟩) ∧
      Taxonomy.javascript.blockAt? tree 33 = none := by
  intro source tree
  have hfits : Text.byteLength source.toList < Word.greatest := by decide +kernel
  have hc : tree.Consistent := by decide +kernel
  have hp : tree.Positioned := by decide +kernel
  have hliteral : Taxonomy.javascript.blockAt? tree 17
      = some (.function ⟨"é", [], ⟨1, 1, 1, 19⟩, "arrow_function"⟩) := by decide +kernel
  have hbranch : Taxonomy.javascript.blockAt? tree 25
      = some (.other ⟨⟨3, 1, 3, TextRange.endOfLine⟩, "if_statement"⟩) := by decide +kernel
  have hcovers := block_at_offset_covers source boundLiteral hfits hc hp Taxonomy.javascript
  refine ⟨⟨hfits, hc, hp⟩, hliteral, hbranch, ?_, ?_, (hcovers 33).2 (by decide +kernel)⟩
  · exact (hcovers 17).1 _ hliteral
  · exact (hcovers 25).1 _ hbranch

end CodeBlocks
