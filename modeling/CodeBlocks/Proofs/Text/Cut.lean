import CodeBlocks.Trim

/-! # Cutting a text at a point — lines and bytes agree

    A text is cut at a point by taking its lines apart, cutting one of them
    at a byte column, and putting the lines together again.  `upTo` and
    `onFrom` are the two parts by recursion over the text: a line feed
    uses up a row, and in the last row each character uses up its bytes.

    `endPoint` is where a text ends: its line feeds are the row, the bytes
    after the last of them the column.  A text cut at the point where a
    leading part of it ends gives this part back, so a cut at the point of
    a position is the slice at its byte offset. -/

namespace CodeBlocks

namespace Text

/-- The point where a text ends. -/
def endPoint (cs : List Char) : Point :=
  ⟨cs.count '\n', byteLength (cs.reverse.takeWhile (· != '\n'))⟩

/-- The text up to a row and a byte column. -/
def upTo : List Char → Nat → Nat → List Char
  | [], _, _ => []
  | c :: cs, 0, column =>
      if c = '\n' then []
      else if c.utf8Size ≤ column then c :: upTo cs 0 (column - c.utf8Size)
      else []
  | c :: cs, row + 1, column => c :: upTo cs (if c = '\n' then row else row + 1) column

/-- The text from a row and a byte column on. -/
def onFrom : List Char → Nat → Nat → List Char
  | [], _, _ => []
  | c :: cs, 0, column =>
      if c = '\n' then c :: cs
      else if c.utf8Size ≤ column then onFrom cs 0 (column - c.utf8Size)
      else c :: cs
  | c :: cs, row + 1, column => onFrom cs (if c = '\n' then row else row + 1) column

/-- The two parts of a cut at a point make up the whole text. -/
theorem upTo_append_onFrom (cs : List Char) (row column : Nat) :
    upTo cs row column ++ onFrom cs row column = cs := by
  induction cs generalizing row column with
  | nil => rfl
  | cons c cs ih =>
      cases row with
      | zero =>
          by_cases hc : c = '\n'
          · simp [upTo, onFrom, hc]
          · by_cases hsize : c.utf8Size ≤ column
            · simp [upTo, onFrom, hc, hsize, ih]
            · simp [upTo, onFrom, hc, hsize]
      | succ row => simp [upTo, onFrom, ih]

/-! ## Lines cut at a column -/

theorem exists_splitLines_eq_cons (cs : List Char) :
    ∃ line lines, splitLines cs = line :: lines :=
  List.exists_cons_of_ne_nil (splitLines_ne_nil cs)

theorem joinLines_cons_cons (c : Char) (line : List Char) (lines : List (List Char)) :
    joinLines ((c :: line) :: lines) = c :: joinLines (line :: lines) := by
  cases lines <;> rfl

/-- The first rows of some lines, the last of them cut if it is there. -/
def cutLines (row column : Nat) (lines : List (List Char)) : List (List Char) :=
  let taken := lines.take (row + 1)
  if taken.length = row + 1 then Trim.mapLast (fun line => takeWithin line column) taken
  else taken

/-- Rows before the last one are kept whole. -/
theorem cutLines_succ (row column : Nat) (line : List Char) {lines : List (List Char)}
    (h : lines ≠ []) :
    cutLines (row + 1) column (line :: lines) = line :: cutLines row column lines := by
  obtain ⟨next, rest, rfl⟩ := List.exists_cons_of_ne_nil h
  simp only [cutLines, List.take_succ_cons, List.length_cons, Nat.add_right_cancel_iff]
  split
  · rfl
  · rfl

theorem mapLast_ne_nil (f : List Char → List Char) {lines : List (List Char)} (h : lines ≠ []) :
    Trim.mapLast f lines ≠ [] := by
  obtain ⟨line, rest, rfl⟩ := List.exists_cons_of_ne_nil h
  cases rest <;> exact List.cons_ne_nil _ _

theorem cutLines_ne_nil (row column : Nat) {lines : List (List Char)} (h : lines ≠ []) :
    cutLines row column lines ≠ [] := by
  have htaken : lines.take (row + 1) ≠ [] := by
    obtain ⟨line, rest, rfl⟩ := List.exists_cons_of_ne_nil h
    exact List.cons_ne_nil _ _
  dsimp only [cutLines]
  split
  · exact mapLast_ne_nil _ htaken
  · exact htaken

theorem joinLines_nil_cons {lines : List (List Char)} (h : lines ≠ []) :
    joinLines ([] :: lines) = '\n' :: joinLines lines := by
  obtain ⟨line, rest, rfl⟩ := List.exists_cons_of_ne_nil h
  rfl

/-- Cutting the lines of a text cuts the text. -/
theorem joinLines_cutLines (cs : List Char) (row column : Nat) :
    joinLines (cutLines row column (splitLines cs)) = upTo cs row column := by
  induction cs generalizing row column with
  | nil => cases row <;> rfl
  | cons c cs ih =>
      obtain ⟨line, lines, hlines⟩ := exists_splitLines_eq_cons cs
      rw [hlines] at ih
      by_cases hc : c = '\n'
      · -- a line feed puts an empty line in front, which is cut in row zero only
        have hne := List.cons_ne_nil line lines
        rw [splitLines, if_pos hc, hlines]
        cases row with
        | zero => simp [cutLines, Trim.mapLast, takeWithin, joinLines, upTo, hc]
        | succ row =>
            rw [cutLines_succ row column [] hne, joinLines_nil_cons (cutLines_ne_nil row column hne),
              ih, upTo, if_pos hc, hc]
      · -- any other character lengthens the first line, which is cut in row zero
        rw [splitLines, if_neg hc, hlines, consLine]
        cases row with
        | zero =>
            have hfirst : ∀ k, upTo cs 0 k = takeWithin line k := fun k => (ih 0 k).symm
            rw [upTo, if_neg hc, hfirst]
            rfl
        | succ row =>
            rw [upTo, if_neg hc, ← ih (row + 1) column]
            -- the row is cut in the other lines, unless there are none
            by_cases hne : lines = []
            · subst hne
              simp [cutLines, joinLines]
            · rw [cutLines_succ row column _ hne, cutLines_succ row column _ hne,
                joinLines_cons_cons]

/-- Keeping the text up to a point, by recursion over it. -/
theorem keepThrough_eq_upTo (cs : List Char) {stop : Point} (h : stop.row < Word.greatest) :
    Trim.keepThrough cs stop = upTo cs stop.row stop.column := by
  rw [← joinLines_cutLines, Trim.keepThrough, Word.next_eq_add_one h]
  rfl

/-- Dropping the lines before a point drops the text before it. -/
theorem joinLines_mapFirst (cs : List Char) (row column : Nat) :
    joinLines (Trim.mapFirst (fun line => dropWithin line column) ((splitLines cs).drop row))
      = onFrom cs row column := by
  induction cs generalizing row column with
  | nil =>
      cases row with
      | zero => rfl
      | succ row => simp [splitLines, Trim.mapFirst, joinLines, onFrom]
  | cons c cs ih =>
      obtain ⟨line, lines, hlines⟩ := exists_splitLines_eq_cons cs
      rw [hlines] at ih
      have hjoin : joinLines (line :: lines) = cs := by
        rw [← hlines, joinLines_splitLines]
      by_cases hc : c = '\n'
      · rw [splitLines, if_pos hc, hlines]
        cases row with
        | zero =>
            show joinLines ([] :: line :: lines) = _
            rw [joinLines_nil_cons (List.cons_ne_nil line lines), hjoin, onFrom, if_pos hc, hc]
        | succ row =>
            rw [onFrom, if_pos hc, ← ih row column]
            rfl
      · rw [splitLines, if_neg hc, hlines, consLine]
        cases row with
        | zero =>
            rw [onFrom, if_neg hc, ← ih 0 (column - c.utf8Size)]
            show joinLines (dropWithin (c :: line) column :: lines) = _
            by_cases hsize : c.utf8Size ≤ column
            · rw [dropWithin, if_pos hsize, if_pos hsize]
              rfl
            · rw [dropWithin, if_neg hsize, if_neg hsize, joinLines_cons_cons, hjoin]
        | succ row =>
            rw [onFrom, if_neg hc, ← ih (row + 1) column]
            rfl

/-- Keeping the text from a point on, by recursion over it. -/
theorem keepFrom_eq_onFrom (cs : List Char) (start : Point) :
    Trim.keepFrom cs start = onFrom cs start.row start.column :=
  joinLines_mapFirst cs start.row start.column

/-! ## Cutting where a part ends -/

theorem byteLength_append (cs ds : List Char) :
    byteLength (cs ++ ds) = byteLength cs + byteLength ds := by
  induction cs with
  | nil => simp [byteLength]
  | cons c cs ih =>
      simp only [List.cons_append, byteLength, ih]
      omega

theorem byteLength_reverse (cs : List Char) : byteLength cs.reverse = byteLength cs := by
  induction cs with
  | nil => rfl
  | cons c cs ih =>
      rw [List.reverse_cons, byteLength_append, ih]
      simp only [byteLength]
      omega

theorem count_le_byteLength (cs : List Char) : cs.count '\n' ≤ byteLength cs := by
  induction cs with
  | nil => exact Nat.le_refl 0
  | cons c cs ih =>
      have hpos := Char.utf8Size_pos c
      simp only [List.count_cons, byteLength]
      split <;> omega

/-- A line is passed as a whole. -/
theorem takeWhile_line_append {line : List Char} (rest : List Char) (h : '\n' ∉ line) :
    (line ++ rest).takeWhile (· != '\n') = line ++ rest.takeWhile (· != '\n') := by
  refine List.takeWhile_append_of_pos fun c hc => ?_
  rw [bne_iff_ne]
  rintro rfl
  exact h hc

/-- On a single line the column of the end is its length. -/
theorem endPoint_column_of_notMem {cs : List Char} (h : '\n' ∉ cs) :
    (endPoint cs).column = byteLength cs := by
  have hline := takeWhile_line_append [] (fun hmem => h (List.mem_reverse.mp hmem))
  rw [List.append_nil, List.takeWhile_nil, List.append_nil] at hline
  rw [endPoint, hline, byteLength_reverse]

/-- Nothing in front of a line feed counts for the column of the end. -/
theorem endPoint_cons_column {c : Char} {cs : List Char} (h : c = '\n' ∨ '\n' ∈ cs) :
    (endPoint (c :: cs)).column = (endPoint cs).column := by
  by_cases hmem : '\n' ∈ cs
  · obtain ⟨line, rest, hline, hnot⟩ := List.eq_append_cons_of_mem (List.mem_reverse.mpr hmem)
    rw [endPoint, endPoint, List.reverse_cons, hline, List.append_assoc,
      takeWhile_line_append _ hnot, takeWhile_line_append _ hnot]
    rfl
  · obtain rfl := h.resolve_right hmem
    have hnot : '\n' ∉ cs.reverse := fun hrev => hmem (List.mem_reverse.mp hrev)
    rw [endPoint_column_of_notMem hmem, endPoint, List.reverse_cons, takeWhile_line_append _ hnot]
    simp [byteLength_reverse]

theorem endPoint_cons_row (c : Char) (cs : List Char) :
    (endPoint (c :: cs)).row = (endPoint cs).row + if c = '\n' then 1 else 0 := by
  simp [endPoint, List.count_cons]

theorem endPoint_row_eq_zero {cs : List Char} : (endPoint cs).row = 0 ↔ '\n' ∉ cs :=
  List.count_eq_zero

/-- Cutting where a leading part ends gives this part. -/
theorem upTo_endPoint (before after : List Char) :
    upTo (before ++ after) (endPoint before).row (endPoint before).column = before := by
  induction before with
  | nil =>
      cases after with
      | nil => rfl
      | cons c after =>
          have hpos := Char.utf8Size_pos c
          show upTo (c :: after) 0 0 = []
          simp only [upTo]
          split
          · rfl
          · exact if_neg (by omega)
  | cons c cs ih =>
      rw [List.cons_append, endPoint_cons_row]
      by_cases hc : c = '\n'
      · rw [if_pos hc, upTo, if_pos hc, endPoint_cons_column (.inl hc), ih]
      · rw [if_neg hc, Nat.add_zero]
        by_cases hmem : '\n' ∈ cs
        · -- the part has a later line, and `c` is on one before it
          obtain ⟨row, hrow⟩ := Nat.exists_eq_add_one_of_ne_zero
            (fun hzero => endPoint_row_eq_zero.mp hzero hmem)
          rw [endPoint_cons_column (.inr hmem), hrow, upTo, if_neg hc, ← hrow, ih]
        · -- a single line: its bytes are the column
          have hnot : '\n' ∉ c :: cs := by
            simp [Ne.symm hc, hmem]
          rw [endPoint_row_eq_zero.mpr hmem, endPoint_column_of_notMem hmem] at ih
          rw [endPoint_row_eq_zero.mpr hmem, endPoint_column_of_notMem hnot, byteLength, upTo,
            if_neg hc, if_pos (Nat.le_add_right ..), Nat.add_sub_cancel_left, ih]

/-- Cutting where a leading part ends leaves the other part. -/
theorem onFrom_endPoint (before after : List Char) :
    onFrom (before ++ after) (endPoint before).row (endPoint before).column = after := by
  have hparts := upTo_append_onFrom (before ++ after) (endPoint before).row
    (endPoint before).column
  rw [upTo_endPoint] at hparts
  exact List.append_cancel_left hparts

/-- A leading part is the one its bytes cut off. -/
theorem splitBytes?_append (before after : List Char) :
    splitBytes? (before ++ after) (byteLength before) = some (before, after) := by
  induction before with
  | nil => cases after <;> rfl
  | cons c cs ih =>
      obtain ⟨n, hn⟩ := Nat.exists_eq_add_one.mpr (Char.utf8Size_pos c)
      have hsize : byteLength (c :: cs) = n + byteLength cs + 1 := by
        rw [byteLength, hn]
        omega
      have hrest : n + byteLength cs + 1 - c.utf8Size = byteLength cs := by omega
      rw [List.cons_append, hsize, splitBytes?, if_pos (by omega), hrest, ih]
      rfl

theorem slice?_zero_append (before after : List Char) :
    slice? (before ++ after) 0 (byteLength before) = some before := by
  simp only [slice?, splitBytes?, Nat.zero_le, if_true, Nat.sub_zero]
  show (splitBytes? (before ++ after) (byteLength before)).bind _ = _
  rw [splitBytes?_append]
  rfl

theorem slice?_append_length (before after : List Char) :
    slice? (before ++ after) (byteLength before) (byteLength (before ++ after)) = some after := by
  have hrest := splitBytes?_append after []
  rw [List.append_nil] at hrest
  rw [slice?, byteLength_append, if_pos (Nat.le_add_right ..), splitBytes?_append,
    Nat.add_sub_cancel_left]
  show (splitBytes? after (byteLength after)).bind _ = _
  rw [hrest]
  rfl

/-! ## Positions -/

/-- A byte offset on a character boundary of a text, with its row and byte column. -/
def IsPosition (text : List Char) (offset : Nat) (point : Point) : Prop :=
  ∃ before after, text = before ++ after ∧ byteLength before = offset ∧ endPoint before = point

/-- The two parts of a cut at a byte offset make up the whole text, and the first of
    them has that many bytes. -/
theorem eq_append_of_splitBytes? {cs before after : List Char} {n : Nat}
    (h : splitBytes? cs n = some (before, after)) :
    cs = before ++ after ∧ byteLength before = n := by
  induction cs generalizing n before with
  | nil =>
      cases n with
      | zero =>
          cases h
          exact ⟨rfl, rfl⟩
      | succ n => cases h
  | cons c cs ih =>
      cases n with
      | zero =>
          cases h
          exact ⟨rfl, rfl⟩
      | succ n =>
          rw [splitBytes?] at h
          split at h
          · next hsize =>
              obtain ⟨⟨rest, last⟩, hrest, heq⟩ := Option.map_eq_some_iff.mp h
              cases heq
              obtain ⟨rfl, hbytes⟩ := ih hrest
              refine ⟨rfl, ?_⟩
              rw [byteLength, hbytes, Nat.add_sub_cancel' hsize]
          · cases h

/-- Whether an offset and a point are a position can be read off a cut. -/
theorem isPosition_iff {text : List Char} {offset : Nat} {point : Point} :
    IsPosition text offset point
      ↔ (splitBytes? text offset).map (fun parts => endPoint parts.1) = some point := by
  constructor
  · rintro ⟨before, after, rfl, rfl, rfl⟩
    rw [splitBytes?_append]
    rfl
  · intro h
    obtain ⟨⟨before, after⟩, hsplit, hpoint⟩ := Option.map_eq_some_iff.mp h
    obtain ⟨htext, hbytes⟩ := eq_append_of_splitBytes? hsplit
    exact ⟨before, after, htext, hbytes, hpoint⟩

instance (text : List Char) (offset : Nat) (point : Point) :
    Decidable (IsPosition text offset point) :=
  decidable_of_iff _ isPosition_iff.symm

/-- **The text up to a point is the slice before its offset**, if rows can be
    counted. -/
theorem slice?_zero_eq_keepThrough {text : List Char} {offset : Nat} {point : Point}
    (h : IsPosition text offset point) (hfits : byteLength text < Word.greatest) :
    slice? text 0 offset = some (Trim.keepThrough text point) := by
  obtain ⟨before, after, rfl, rfl, rfl⟩ := h
  have hrow : (endPoint before).row < Word.greatest := by
    have hcount : (endPoint before).row ≤ byteLength before := count_le_byteLength before
    rw [byteLength_append] at hfits
    omega
  rw [keepThrough_eq_upTo _ hrow, upTo_endPoint, slice?_zero_append]

/-- **The text from a point on is the slice after its offset.** -/
theorem slice?_length_eq_keepFrom {text : List Char} {offset : Nat} {point : Point}
    (h : IsPosition text offset point) :
    slice? text offset (byteLength text) = some (Trim.keepFrom text point) := by
  obtain ⟨before, after, rfl, rfl, rfl⟩ := h
  rw [keepFrom_eq_onFrom, onFrom_endPoint, slice?_append_length]

end Text

end CodeBlocks
