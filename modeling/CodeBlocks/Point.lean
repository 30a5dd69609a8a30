/-! # Point — zero-based row and column

    Columns count bytes.  Points are ordered by row, then by column. -/

namespace CodeBlocks

/-- A position in a text: a zero-based row and a zero-based byte column. -/
structure Point where
  row : Nat
  column : Nat
deriving DecidableEq

namespace Point

instance : LT Point :=
  ⟨fun a b => a.row < b.row ∨ (a.row = b.row ∧ a.column < b.column)⟩

instance : LE Point :=
  ⟨fun a b => a.row < b.row ∨ (a.row = b.row ∧ a.column ≤ b.column)⟩

theorem lt_def {a b : Point} :
    a < b ↔ a.row < b.row ∨ (a.row = b.row ∧ a.column < b.column) := Iff.rfl

theorem le_def {a b : Point} :
    a ≤ b ↔ a.row < b.row ∨ (a.row = b.row ∧ a.column ≤ b.column) := Iff.rfl

instance (a b : Point) : Decidable (a < b) := decidable_of_iff _ lt_def.symm

instance (a b : Point) : Decidable (a ≤ b) := decidable_of_iff _ le_def.symm

end Point

end CodeBlocks
