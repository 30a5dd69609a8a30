/-! # Word — the 64-bit range of positions

    Rows, columns, offsets, versions and limits are unsigned 64-bit
    numbers, held as naturals.  Counting past the greatest one starts
    again at zero. -/

namespace CodeBlocks.Word

/-- The greatest 64-bit number. -/
def greatest : Nat := UInt64.size - 1

/-- The next 64-bit number; zero follows the greatest. -/
def next (n : Nat) : Nat := (n + 1) % UInt64.size

/-- Below the greatest number, `next` adds one. -/
theorem next_eq_add_one {n : Nat} (h : n < greatest) : next n = n + 1 := by
  refine Nat.mod_eq_of_lt ?_
  unfold greatest at h
  omega

end CodeBlocks.Word
