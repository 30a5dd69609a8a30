import CodeBlocks.SyntaxTree.Flatten
import CodeBlocks.SyntaxTree.Search
import CodeBlocks.Proofs.SyntaxTree.Links
import CodeBlocks.Proofs.Text.Points

/-! # Coordinates — lookup by offset and lookup by point

    A node has its two ends twice, as byte offsets and as points.  Where
    the points are those of the offsets, an offset lies in a node exactly
    if its point does.  So the walk down that asks for the offset and the
    walk down that asks for its point take the same steps. -/

namespace CodeBlocks

/-- A span within a text whose points are those of its byte offsets. -/
structure Span.LiesIn (text : List Char) (span : Span) : Prop where
  startByte_le : span.startByte ≤ Text.byteLength text
  endByte_le : span.endByte ≤ Text.byteLength text
  start_eq : span.start = Text.pointAt text span.startByte
  stop_eq : span.stop = Text.pointAt text span.endByte

instance (text : List Char) (span : Span) : Decidable (span.LiesIn text) :=
  decidable_of_iff (_ ∧ _ ∧ _ ∧ _)
    ⟨fun h => ⟨h.1, h.2.1, h.2.2.1, h.2.2.2⟩, fun h => ⟨h.1, h.2, h.3, h.4⟩⟩

namespace Span.LiesIn

variable {text : List Char} {span : Span} (h : span.LiesIn text)
variable {offset : Nat} (hoffset : offset ≤ Text.byteLength text)

include h hoffset

theorem start_le_iff : span.start ≤ Text.pointAt text offset ↔ span.startByte ≤ offset := by
  rw [h.start_eq]
  exact (Text.strictMonoOn_pointAt text).le_iff_le h.startByte_le hoffset

theorem lt_stop_iff : Text.pointAt text offset < span.stop ↔ offset < span.endByte := by
  rw [h.stop_eq]
  exact (Text.strictMonoOn_pointAt text).lt_iff_lt hoffset h.endByte_le

theorem le_stop_iff : Text.pointAt text offset ≤ span.stop ↔ offset ≤ span.endByte := by
  rw [h.stop_eq]
  exact (Text.strictMonoOn_pointAt text).le_iff_le hoffset h.endByte_le

end Span.LiesIn

namespace SyntaxTree

/-- A tree whose nodes lie in its text, at the points of their byte offsets. -/
def Positioned (tree : SyntaxTree) : Prop :=
  ∀ i < tree.size, (tree.node i).span.LiesIn tree.source.toList

instance (tree : SyntaxTree) : Decidable tree.Positioned :=
  inferInstanceAs (Decidable (∀ i < tree.size, _))

/-- Numbers out of use do no harm: the blank node lies at the start of every text. -/
theorem Positioned.liesIn {tree : SyntaxTree} (h : tree.Positioned) (i : Nat) :
    (tree.node i).span.LiesIn tree.source.toList := by
  by_cases hi : i < tree.size
  · exact h i hi
  · rw [node_eq_blank (Nat.le_of_not_lt hi)]
    exact ⟨Nat.zero_le _, Nat.zero_le _, rfl, rfl⟩

/-- A node spans the point of an offset exactly if it spans the offset. -/
theorem Positioned.spansPoint_eq {tree : SyntaxTree} (h : tree.Positioned) {offset : Nat}
    (hoffset : offset ≤ Text.byteLength tree.source.toList) (i : Nat) :
    (tree.node i).spansPoint (Text.pointAt tree.source.toList offset)
      = (tree.node i).spansOffset offset := by
  have hin := h.liesIn i
  rw [Node.spansPoint, Node.spansOffset, decide_eq_decide, hin.start_le_iff hoffset,
    hin.lt_stop_iff hoffset]

/-- Walks down that accept the same nodes take the same steps. -/
theorem descendWithin_congr {tree : SyntaxTree} {p q : Node → Bool}
    (h : ∀ i, p (tree.node i) = q (tree.node i)) (fuel i : Nat) :
    tree.descendWithin p fuel i = tree.descendWithin q fuel i := by
  induction fuel generalizing i with
  | zero => rfl
  | succ fuel ih =>
      have haccepts : (fun child => p (tree.node child)) = fun child => q (tree.node child) :=
        funext h
      rw [descendWithin, descendWithin, haccepts]
      split
      · exact ih _
      · rfl

end SyntaxTree

/-- **Lookup by offset and lookup by point agree.**  In every tree whose nodes lie in the text at
    the points of their byte offsets, from every node and for every offset up to the length of the
    text, the deepest node that spans the offset is the deepest node that spans its point. -/
theorem offset_and_point_lookups_agree (tree : SyntaxTree) (h : tree.Positioned) (i offset : Nat)
    (hoffset : offset ≤ Text.byteLength tree.source.toList) :
    tree.deepestAtOffset i offset
      = tree.deepestAtPoint i (Text.pointAt tree.source.toList offset) := by
  rw [SyntaxTree.deepestAtOffset, SyntaxTree.deepestAtPoint, SyntaxTree.descend,
    SyntaxTree.descend]
  refine SyntaxTree.descendWithin_congr ?_ tree.size i
  intro j
  exact (h.spansPoint_eq hoffset j).symm

/-- A function literal bound to a name of two bytes, an empty line, and a branch. -/
def boundLiteral : ParseTree :=
  let node := fun (kind : String) (field : Option String) (first last row column : Nat) =>
    (⟨kind, field, true, false,
      ⟨first, last, ⟨row, column⟩, ⟨row, column + (last - first)⟩⟩⟩ : EngineNode)
  let token := fun (kind : String) (first last row column : Nat) =>
    { node kind none first last row column with named := false }
  ⟨⟨"program", none, true, false, ⟨0, 32, ⟨0, 0⟩, ⟨3, 0⟩⟩⟩,
    .cons (node "lexical_declaration" none 0 18 0 0)
      (.cons (token "const" 0 5 0 0) .nil
        (.cons (node "variable_declarator" none 6 18 0 6)
          (.cons (node "identifier" (some "name") 6 8 0 6) .nil
            (.cons (token "=" 9 10 0 9) .nil
              (.cons (node "arrow_function" (some "value") 11 18 0 11)
                (.cons (node "formal_parameters" (some "parameters") 11 13 0 11) .nil
                  (.cons (token "=>" 14 16 0 14) .nil
                    (.cons (node "number" (some "body") 17 18 0 17) .nil .nil))) .nil))) .nil))
      (.cons (node "if_statement" none 20 31 2 0)
        (.cons (token "if" 20 22 2 0) .nil
          (.cons (node "parenthesized_expression" (some "condition") 23 27 2 3)
            (.cons (node "identifier" none 24 26 2 4) .nil .nil)
            (.cons (node "expression_statement" (some "consequence") 28 31 2 8) .nil .nil))) .nil)⟩

/-- Between the two bytes of a name the name is found, by the offset and by the point in the third
    row. -/
theorem lookups_agree_inside_character :
    let tree := SyntaxTree.ofParse "const é = () => 1\n\nif (é) f()\n" boundLiteral
    tree.Positioned ∧ 25 ≤ Text.byteLength tree.source.toList ∧
      tree.deepestAtOffset 0 25 = 9 ∧ tree.deepestAtPoint 0 ⟨2, 5⟩ = 9 := by
  intro tree
  have hpositioned : tree.Positioned := by decide +kernel
  have hoffset : 25 ≤ Text.byteLength tree.source.toList := by decide +kernel
  have hpoint : Text.pointAt tree.source.toList 25 = ⟨2, 5⟩ := by decide +kernel
  have hfound : tree.deepestAtOffset 0 25 = 9 := by decide +kernel
  have hagree := offset_and_point_lookups_agree tree hpositioned 0 25 hoffset
  rw [hpoint, hfound] at hagree
  exact ⟨hpositioned, hoffset, hfound, hagree.symm⟩

end CodeBlocks
