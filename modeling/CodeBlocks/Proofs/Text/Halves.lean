import CodeBlocks.Proofs.Text.Points

/-! # Halves — a point cuts every text in two

    The text up to a point and the text from it on are put together from
    the lines one by one, each in its own way.  Together they are the text,
    also where the point lies past the end of its line, past the last line
    or inside a character.

    Where the cut falls is said in points: the first half is the longest
    leading part of the text that does not end after the point
    (`prefix_upTo_iff`).  So halves at later points are longer
    (`upTo_prefix_upTo`).

    The greatest row of all has no next one, so the lines up to it cannot
    be counted: there the first half is empty, whatever the second is. -/

namespace CodeBlocks

namespace Text

/-! ## Cuts in order -/

/-- **A cut at a later point keeps more.** -/
theorem upTo_prefix_upTo (cs : List Char) {row column row' column' : Nat}
    (h : row < row' ∨ row = row' ∧ column ≤ column') :
    upTo cs row column <+: upTo cs row' column' := by
  induction cs generalizing row column row' column' with
  | nil => exact List.prefix_refl []
  | cons c cs ih =>
      cases row with
      | zero =>
          rw [upTo]
          split
          · exact List.nil_prefix
          · next hc =>
              split
              · next hsize =>
                  cases row' with
                  | zero =>
                      -- one line: what fits before the first column fits before the second
                      rw [upTo, if_neg hc, if_pos (by omega)]
                      exact (List.prefix_cons_inj c).mpr (ih (by omega))
                  | succ row' =>
                      rw [upTo, if_neg hc]
                      exact (List.prefix_cons_inj c).mpr (ih (.inl (Nat.succ_pos row')))
              · exact List.nil_prefix
      | succ row =>
          cases row' with
          | zero => omega
          | succ row' =>
              rw [upTo, upTo]
              refine (List.prefix_cons_inj c).mpr (ih ?_)
              split <;> omega

/-- What is left behind a later cut is the end of what is left behind an earlier one. -/
theorem onFrom_suffix_onFrom (cs : List Char) {row column row' column' : Nat}
    (h : row < row' ∨ row = row' ∧ column ≤ column') :
    onFrom cs row' column' <:+ onFrom cs row column := by
  obtain ⟨between, hbetween⟩ := upTo_prefix_upTo cs h
  refine ⟨between, (List.append_right_inj (upTo cs row column)).mp ?_⟩
  rw [← List.append_assoc, hbetween, upTo_append_onFrom, upTo_append_onFrom]

/-! ## Where a cut falls -/

/-- A line feed in front puts the end one row on. -/
theorem endPoint_lineFeed_cons (cs : List Char) :
    endPoint ('\n' :: cs) = ⟨(endPoint cs).row + 1, (endPoint cs).column⟩ :=
  congrArg₂ Point.mk (endPoint_cons_row '\n' cs) (endPoint_cons_column (.inl rfl))

/-- A character in front of a line feed leaves the end where it is. -/
theorem endPoint_cons_of_mem {c : Char} {cs : List Char} (hc : c ≠ '\n') (h : '\n' ∈ cs) :
    endPoint (c :: cs) = endPoint cs := by
  have hrow := endPoint_cons_row c cs
  rw [if_neg hc, Nat.add_zero] at hrow
  exact congrArg₂ Point.mk hrow (endPoint_cons_column (.inr h))

/-- On a single line it puts the end on by its bytes. -/
theorem endPoint_cons_of_notMem {c : Char} {cs : List Char} (hc : c ≠ '\n') (h : '\n' ∉ cs) :
    endPoint (c :: cs) = ⟨0, c.utf8Size + (endPoint cs).column⟩ := by
  have hline : '\n' ∉ c :: cs := by
    simp [Ne.symm hc, h]
  have hcolumn := endPoint_column_of_notMem hline
  rw [byteLength, ← endPoint_column_of_notMem h] at hcolumn
  exact congrArg₂ Point.mk (endPoint_row_eq_zero.mpr hline) hcolumn

/-- The text up to a point does not end after it. -/
theorem endPoint_upTo_le (cs : List Char) (row column : Nat) :
    endPoint (upTo cs row column) ≤ ⟨row, column⟩ := by
  have hnil : ∀ row column, endPoint [] ≤ ⟨row, column⟩ := by
    intro row column
    rw [Point.le_def]
    show 0 < row ∨ 0 = row ∧ 0 ≤ column
    omega
  induction cs generalizing row column with
  | nil => exact hnil row column
  | cons c cs ih =>
      by_cases hc : c = '\n'
      · subst hc
        cases row with
        | zero => exact hnil 0 column
        | succ row =>
            have hrest := ih row column
            rw [upTo, if_pos rfl, endPoint_lineFeed_cons]
            rw [Point.le_def] at hrest ⊢
            dsimp only at hrest ⊢
            omega
      · cases row with
        | zero =>
            rw [upTo, if_neg hc]
            split
            · next hsize =>
                -- the rest ends on this line too, within what is left of the column
                have hrest := ih 0 (column - c.utf8Size)
                rw [Point.le_def] at hrest
                dsimp only at hrest
                have hrow : (endPoint (upTo cs 0 (column - c.utf8Size))).row = 0 := by omega
                rw [endPoint_cons_of_notMem hc (endPoint_row_eq_zero.mp hrow), Point.le_def]
                dsimp only
                omega
            · exact hnil 0 column
        | succ row =>
            rw [upTo, if_neg hc]
            by_cases hmem : '\n' ∈ upTo cs (row + 1) column
            · rw [endPoint_cons_of_mem hc hmem]
              exact ih (row + 1) column
            · rw [endPoint_cons_of_notMem hc hmem]
              exact .inl (Nat.succ_pos row)

/-- A leading part ends no later than the text. -/
theorem endPoint_le_append (before after : List Char) :
    endPoint before ≤ endPoint (before ++ after) := by
  have hpart : IsPosition (before ++ after) (byteLength before) (endPoint before) :=
    ⟨before, after, rfl, rfl, rfl⟩
  have hwhole : IsPosition (before ++ after) (byteLength (before ++ after))
      (endPoint (before ++ after)) :=
    ⟨before ++ after, [], (List.append_nil _).symm, rfl, rfl⟩
  have hle : byteLength before ≤ byteLength (before ++ after) := by
    rw [byteLength_append]
    exact Nat.le_add_right ..
  rw [← hpart.pointAt_eq, ← hwhole.pointAt_eq]
  exact (strictMonoOn_pointAt (before ++ after)).monotoneOn hle (le_refl (byteLength _)) hle

/-- **The text up to a point is the longest leading part that does not end after it.** -/
theorem prefix_upTo_iff {before text : List Char} (h : before <+: text) (row column : Nat) :
    before <+: upTo text row column ↔ endPoint before ≤ ⟨row, column⟩ := by
  constructor
  · rintro ⟨between, hbetween⟩
    have hend := endPoint_upTo_le text row column
    rw [← hbetween] at hend
    exact le_trans (endPoint_le_append before between) hend
  · intro hle
    obtain ⟨after, rfl⟩ := h
    have hcut := upTo_prefix_upTo (before ++ after) (Point.le_def.mp hle)
    rwa [upTo_endPoint] at hcut

end Text

namespace Trim

/-- **A point splits a text.**  In every row that has a next one, and whatever the column, the text
    up to the point followed by the text from it on is the text; and of the leading parts of the
    text, those that do not end after the point are those of the first half. -/
theorem point_splits_text (text : List Char) (point : Point)
    (hrow : point.row < Word.greatest) :
    keepThrough text point ++ keepFrom text point = text ∧
    ∀ before, before <+: text →
      (before <+: keepThrough text point ↔ Text.endPoint before ≤ point) := by
  rw [Text.keepThrough_eq_upTo text hrow, Text.keepFrom_eq_onFrom]
  refine ⟨Text.upTo_append_onFrom text point.row point.column, ?_⟩
  intro before hbefore
  exact Text.prefix_upTo_iff hbefore point.row point.column

/-- Inside a character the cut goes back to its start, past the end of a line it stays before the
    line feed, and past the last line it leaves nothing behind.  In the greatest row both halves
    are empty. -/
theorem point_splits_text_strayPoints :
    let text := "héllo\n\nworld\n".toList
    keepThrough text ⟨0, 2⟩ = "h".toList ∧ "h".toList ++ keepFrom text ⟨0, 2⟩ = text ∧
      ¬ "hé".toList <+: keepThrough text ⟨0, 2⟩ ∧
      keepThrough text ⟨1, 9⟩ = "héllo\n".toList ∧
      "héllo\n".toList ++ keepFrom text ⟨1, 9⟩ = text ∧
      keepThrough text ⟨7, 0⟩ = text ∧ text ++ keepFrom text ⟨7, 0⟩ = text ∧
      keepThrough text ⟨Word.greatest, 0⟩ ++ keepFrom text ⟨Word.greatest, 0⟩ = [] := by
  intro text
  obtain ⟨hinside, hlongest⟩ := point_splits_text text ⟨0, 2⟩ (by decide)
  obtain ⟨hline, -⟩ := point_splits_text text ⟨1, 9⟩ (by decide)
  obtain ⟨hlast, -⟩ := point_splits_text text ⟨7, 0⟩ (by decide)
  have hstart : keepThrough text ⟨0, 2⟩ = "h".toList := by decide +kernel
  have hempty : keepThrough text ⟨1, 9⟩ = "héllo\n".toList := by decide +kernel
  have hwhole : keepThrough text ⟨7, 0⟩ = text := by decide +kernel
  have hafter : ¬ "hé".toList <+: keepThrough text ⟨0, 2⟩ := by
    rw [hlongest "hé".toList (by decide +kernel)]
    decide +kernel
  rw [hstart] at hinside
  rw [hempty] at hline
  rw [hwhole] at hlast
  exact ⟨hstart, hinside, hafter, hempty, hline, hwhole, hlast, by decide +kernel⟩

end Trim

end CodeBlocks
