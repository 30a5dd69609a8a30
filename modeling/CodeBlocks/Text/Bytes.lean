/-! # Bytes — UTF-8 lengths and byte cuts of a text

    Offsets and columns count bytes of the UTF-8 form, while a text is a
    list of characters.  Two kinds of cut are needed:

    * `splitBytes?` cuts at an exact byte offset and refuses one that is
      inside a character or past the end;
    * `takeWithin` and `dropWithin` cut at the last character boundary
      that is not past the offset, so they never fail.

    `slice` is the first kind taken twice, empty where it refuses. -/

namespace CodeBlocks.Text

/-- The number of bytes of a text in UTF-8. -/
def byteLength : List Char → Nat
  | [] => 0
  | c :: cs => c.utf8Size + byteLength cs

/-- The two parts of a text around byte offset `n`, if a character starts
    there or the text ends there. -/
def splitBytes? : List Char → Nat → Option (List Char × List Char)
  | cs, 0 => some ([], cs)
  | [], _ + 1 => none
  | c :: cs, n + 1 =>
      if c.utf8Size ≤ n + 1 then
        (splitBytes? cs (n + 1 - c.utf8Size)).map fun parts => (c :: parts.1, parts.2)
      else
        none

/-- The longest leading part of at most `n` bytes. -/
def takeWithin : List Char → Nat → List Char
  | [], _ => []
  | c :: cs, n => if c.utf8Size ≤ n then c :: takeWithin cs (n - c.utf8Size) else []

/-- What remains after the longest leading part of at most `n` bytes. -/
def dropWithin : List Char → Nat → List Char
  | [], _ => []
  | c :: cs, n => if c.utf8Size ≤ n then dropWithin cs (n - c.utf8Size) else c :: cs

/-- The text between two byte offsets, if both lie on character boundaries
    in this order. -/
def slice? (cs : List Char) (start stop : Nat) : Option (List Char) :=
  if start ≤ stop then do
    let (_, rest) ← splitBytes? cs start
    let (middle, _) ← splitBytes? rest (stop - start)
    return middle
  else
    none

/-- The text between two byte offsets; empty unless both lie on character
    boundaries in this order. -/
def slice (cs : List Char) (start stop : Nat) : List Char :=
  (slice? cs start stop).getD []

/-- The two parts of a cut at a byte budget make up the whole text. -/
theorem takeWithin_append_dropWithin (cs : List Char) (n : Nat) :
    takeWithin cs n ++ dropWithin cs n = cs := by
  induction cs generalizing n with
  | nil => rfl
  | cons c cs ih =>
      by_cases h : c.utf8Size ≤ n
      · simp [takeWithin, dropWithin, h, ih]
      · simp [takeWithin, dropWithin, h]

end CodeBlocks.Text
