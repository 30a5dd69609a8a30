import CodeBlocks.Point
import Mathlib.Order.Defs.LinearOrder

/-! # Points in order — by row, then by column -/

namespace CodeBlocks.Point

instance : LinearOrder Point where
  le_refl a := .inr ⟨rfl, Nat.le_refl a.column⟩
  le_trans a b c hab hbc := by
    rw [le_def] at *
    omega
  lt_iff_le_not_ge a b := by
    rw [lt_def, le_def, le_def]
    omega
  le_antisymm a b hab hba := by
    obtain ⟨row, column⟩ := a
    obtain ⟨row', column'⟩ := b
    rw [le_def] at hab hba
    simp only at hab hba
    obtain ⟨rfl, rfl⟩ : row = row' ∧ column = column' := by omega
    rfl
  le_total a b := by
    rw [le_def, le_def]
    omega
  toDecidableLE := inferInstance

end CodeBlocks.Point
