/-! # Lines — a text as its lines, and back

    Only the line feed separates lines, a carriage return belongs to its
    line, and a text always has at least one line: the text that ends in
    a line feed has an empty last line.  `joinLines` undoes `splitLines`. -/

namespace CodeBlocks.Text

/-- Puts a character in front of the first line. -/
def consLine (c : Char) : List (List Char) → List (List Char)
  | [] => [[c]]
  | line :: lines => (c :: line) :: lines

/-- The lines of a text, without the line feeds between them. -/
def splitLines : List Char → List (List Char)
  | [] => [[]]
  | c :: cs => if c = '\n' then [] :: splitLines cs else consLine c (splitLines cs)

/-- Lines joined by line feeds. -/
def joinLines : List (List Char) → List Char
  | [] => []
  | [line] => line
  | line :: next :: lines => line ++ '\n' :: joinLines (next :: lines)

/-- A text has a first line. -/
theorem splitLines_ne_nil (cs : List Char) : splitLines cs ≠ [] := by
  cases cs with
  | nil => simp [splitLines]
  | cons c cs =>
      by_cases h : c = '\n'
      · simp [splitLines, h]
      · cases hs : splitLines cs <;> simp [splitLines, h, hs, consLine]

/-- Joining the lines of a text gives the text. -/
theorem joinLines_splitLines (cs : List Char) : joinLines (splitLines cs) = cs := by
  induction cs with
  | nil => rfl
  | cons c cs ih =>
      obtain ⟨line, lines, hs⟩ : ∃ line lines, splitLines cs = line :: lines := by
        cases hs : splitLines cs with
        | nil => exact absurd hs (splitLines_ne_nil cs)
        | cons line lines => exact ⟨line, lines, rfl⟩
      rw [hs] at ih
      by_cases h : c = '\n'
      · simp [splitLines, h, hs, joinLines, ih]
      · cases lines with
        | nil =>
            have hl : line = cs := ih
            simp [splitLines, h, hs, consLine, joinLines, hl]
        | cons next rest =>
            have hl : line ++ '\n' :: joinLines (next :: rest) = cs := ih
            simp [splitLines, h, hs, consLine, joinLines, hl]

end CodeBlocks.Text
