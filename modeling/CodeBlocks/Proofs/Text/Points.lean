import CodeBlocks.Proofs.Point
import CodeBlocks.Proofs.Text.Cut
import Mathlib.Data.List.Induction
import Mathlib.Data.Nat.SuccPred
import Mathlib.Order.Interval.Set.OrdConnected

/-! # Points of byte offsets — two coordinates, one order

    The point of a byte offset counts the bytes before it: its row is the
    number of line feeds among them, its column the number of bytes since
    the last one.  Every offset has a point, also one inside a character;
    on a character boundary it is the point where the text before ends.

    One byte more is one column more, or the start of the next row.  So
    up to the length of a text, offsets and their points are in the same
    order, whatever lines the text has. -/

namespace CodeBlocks.Text

/-- The byte of a line feed. -/
def lineFeed : UInt8 := 10

/-- The bytes of a text in UTF-8. -/
def bytes (cs : List Char) : List UInt8 := cs.flatMap String.utf8EncodeChar

/-- The point after some bytes. -/
def pointAfter (bs : List UInt8) : Point :=
  ⟨bs.count lineFeed, (bs.reverse.takeWhile (· != lineFeed)).length⟩

/-- The point of a byte offset. -/
def pointAt (cs : List Char) (offset : Nat) : Point := pointAfter ((bytes cs).take offset)

theorem length_bytes (cs : List Char) : (bytes cs).length = byteLength cs := by
  induction cs with
  | nil => rfl
  | cons c cs ih =>
      rw [bytes, List.flatMap_cons, List.length_append, String.length_utf8EncodeChar, ← bytes, ih]
      rfl

/-! ## One byte more -/

theorem pointAfter_concat_lineFeed (bs : List UInt8) :
    pointAfter (bs ++ [lineFeed]) = ⟨(pointAfter bs).row + 1, 0⟩ := by
  simp [pointAfter]

/-- Bytes of one line are as many columns. -/
theorem pointAfter_append_line {line : List UInt8} (h : lineFeed ∉ line) (bs : List UInt8) :
    pointAfter (bs ++ line) = ⟨(pointAfter bs).row, (pointAfter bs).column + line.length⟩ := by
  have hpass : ∀ b ∈ line.reverse, (b != lineFeed) = true := by
    intro b hb
    rw [bne_iff_ne]
    rintro rfl
    exact h (List.mem_reverse.mp hb)
  rw [pointAfter, List.count_append, List.count_eq_zero.mpr h, List.reverse_append,
    List.takeWhile_append_of_pos hpass, List.length_append, List.length_reverse, Nat.add_zero,
    Nat.add_comm line.length]
  rfl

/-- One byte more is a later point. -/
theorem pointAfter_lt_concat (bs : List UInt8) (b : UInt8) :
    pointAfter bs < pointAfter (bs ++ [b]) := by
  rw [Point.lt_def]
  by_cases hb : b = lineFeed
  · rw [hb, pointAfter_concat_lineFeed]
    exact .inl (Nat.lt_succ_self _)
  · rw [pointAfter_append_line (fun hmem => hb (List.mem_singleton.mp hmem).symm)]
    exact .inr ⟨rfl, Nat.lt_succ_self _⟩

theorem pointAt_lt_succ {cs : List Char} {offset : Nat} (h : offset < byteLength cs) :
    pointAt cs offset < pointAt cs (offset + 1) := by
  rw [← length_bytes] at h
  rw [pointAt, pointAt, ← List.take_append_getElem h]
  exact pointAfter_lt_concat _ _

/-- **Offsets up to the length of a text are in the order of their points.** -/
theorem strictMonoOn_pointAt (cs : List Char) :
    StrictMonoOn (pointAt cs) (Set.Iic (byteLength cs)) := by
  refine strictMonoOn_of_lt_succ Set.ordConnected_Iic ?_
  intro offset _ _ hsucc
  exact pointAt_lt_succ hsucc

/-- A point counts no more rows and no more columns than the text has bytes. -/
theorem pointAt_le (cs : List Char) (offset : Nat) :
    (pointAt cs offset).row ≤ byteLength cs ∧ (pointAt cs offset).column ≤ byteLength cs := by
  have htake : ((bytes cs).take offset).length ≤ byteLength cs := by
    rw [← length_bytes]
    exact List.length_take_le' ..
  constructor
  · exact Nat.le_trans List.count_le_length htake
  · refine Nat.le_trans ?_ htake
    rw [← List.length_reverse]
    exact (List.takeWhile_sublist _).length_le

/-! ## Character boundaries -/

/-- No other character has the byte of a line feed. -/
theorem lineFeed_notMem {c : Char} (hc : c ≠ '\n') : lineFeed ∉ String.utf8EncodeChar c := by
  have hval : c.val.toNat ≠ 10 := by
    intro heq
    exact hc (Char.ext (UInt32.toNat_inj.mp heq))
  have hbyte : ∀ n < 256, n ≠ 10 → lineFeed ≠ UInt8.ofNat n := by
    intro n hn hne heq
    have htoNat := congrArg UInt8.toNat heq
    rw [UInt8.toNat_ofNat_of_lt' hn] at htoNat
    exact hne htoNat.symm
  -- a character of one byte is that byte, and the others have bytes from 128 on only
  simp only [String.utf8EncodeChar]
  split
  · simp only [List.mem_singleton]
    exact hbyte _ (by omega) hval
  · split
    · simp only [List.mem_cons, List.not_mem_nil, or_false, not_or]
      exact ⟨hbyte _ (by omega) (by omega), hbyte _ (by omega) (by omega)⟩
    · split
      · simp only [List.mem_cons, List.not_mem_nil, or_false, not_or]
        exact ⟨hbyte _ (by omega) (by omega), hbyte _ (by omega) (by omega),
          hbyte _ (by omega) (by omega)⟩
      · simp only [List.mem_cons, List.not_mem_nil, or_false, not_or]
        exact ⟨hbyte _ (by omega) (by omega), hbyte _ (by omega) (by omega),
          hbyte _ (by omega) (by omega), hbyte _ (by omega) (by omega)⟩

/-- Bytes and characters of a text end at the same point. -/
theorem pointAfter_bytes (cs : List Char) : pointAfter (bytes cs) = endPoint cs := by
  induction cs using List.reverseRecOn with
  | nil => rfl
  | append_singleton cs c ih =>
      have hsplit : bytes (cs ++ [c]) = bytes cs ++ String.utf8EncodeChar c := by
        simp [bytes]
      rw [hsplit]
      by_cases hc : c = '\n'
      · subst hc
        have hfeed : String.utf8EncodeChar '\n' = [lineFeed] := by decide
        rw [hfeed, pointAfter_concat_lineFeed, ih]
        simp [endPoint, byteLength]
      · rw [pointAfter_append_line (lineFeed_notMem hc), ih, String.length_utf8EncodeChar]
        simp [endPoint, byteLength, hc, Nat.add_comm]

/-- **On a character boundary the point of an offset is the point where the text before it
    ends.** -/
theorem IsPosition.pointAt_eq {text : List Char} {offset : Nat} {point : Point}
    (h : IsPosition text offset point) : pointAt text offset = point := by
  obtain ⟨before, after, rfl, rfl, rfl⟩ := h
  rw [pointAt, bytes, List.flatMap_append, ← length_bytes, bytes, List.take_left, ← bytes,
    pointAfter_bytes]

end CodeBlocks.Text
