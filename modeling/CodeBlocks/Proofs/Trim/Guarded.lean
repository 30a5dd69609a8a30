import CodeBlocks.Proofs.SyntaxTree.Links
import CodeBlocks.Proofs.Trim.Boundary

/-! # Guarded trimming — nothing that could fail does

    Trimming looks children up by number, subtracts, counts rows up and
    cuts lines at byte columns.  The functions that trim are total: where
    such a step has no answer they take some other one.  Here they are
    written once more with every such step guarded: a number that is out of
    range, a difference below zero, a row that cannot be counted up or a
    cut inside a character ends the whole with `none`.

    On a flattened tree no guard ever fails, wherever its nodes claim to
    lie, and the result is that of the total functions: a leading or
    a trailing part of the text. -/

namespace CodeBlocks

/-- A difference that is not below zero. -/
def Word.minus? (m n : Nat) : Option Nat := if n ≤ m then some (m - n) else none

/-- The next number, if there is one. -/
def Word.next? (n : Nat) : Option Nat := if n < greatest then some (n + 1) else none

theorem Word.minus?_of_le {m n : Nat} (h : n ≤ m) : minus? m n = some (m - n) := if_pos h

theorem Word.next?_of_lt {n : Nat} (h : n < greatest) : next? n = some (next n) := by
  rw [next?, if_pos h, next_eq_add_one h]

namespace Text

/-! ## Cutting a line -/

/-- The last character boundary that is not past an index, by going back a byte at a time. -/
def backToBoundary? (line : List Char) : Nat → Option Nat
  | 0     => if (splitBytes? line 0).isSome then some 0 else none
  | i + 1 => if (splitBytes? line (i + 1)).isSome then some (i + 1) else backToBoundary? line i

/-- A line cut in two at a column: not past its end and not inside a character. -/
def cutLine? (line : List Char) (column : Nat) : Option (List Char × List Char) := do
  let index ← backToBoundary? line (min column (byteLength line))
  splitBytes? line index

theorem backToBoundary?_eq {line : List Char} {k i : Nat} (hk : (splitBytes? line k).isSome = true)
    (hle : k ≤ i) (hnone : ∀ j, k < j → j ≤ i → splitBytes? line j = none) :
    backToBoundary? line i = some k := by
  induction i with
  | zero =>
      obtain rfl : k = 0 := Nat.le_zero.mp hle
      rw [backToBoundary?, if_pos hk]
  | succ i ih =>
      rw [backToBoundary?]
      rcases Nat.eq_or_lt_of_le hle with rfl | hlt
      · rw [if_pos hk]
      · rw [hnone (i + 1) hlt (Nat.le_refl _)]
        exact ih (Nat.le_of_lt_succ hlt) fun j hkj hji => hnone j hkj (Nat.le_succ_of_le hji)

theorem byteLength_takeWithin_le (cs : List Char) (n : Nat) :
    byteLength (takeWithin cs n) ≤ n := by
  induction cs generalizing n with
  | nil => exact Nat.zero_le n
  | cons c cs ih =>
      rw [takeWithin]
      split
      · have hrest := ih (n - c.utf8Size)
        rw [byteLength]
        omega
      · exact Nat.zero_le n

/-- A leading part that fits is no longer than the longest one. -/
theorem byteLength_le_takeWithin {before : List Char} (after : List Char) {n : Nat}
    (h : byteLength before ≤ n) :
    byteLength before ≤ byteLength (takeWithin (before ++ after) n) := by
  induction before generalizing n with
  | nil => exact Nat.zero_le _
  | cons c cs ih =>
      rw [byteLength] at h
      rw [List.cons_append, takeWithin, if_pos (by omega), byteLength, byteLength]
      have hrest : byteLength cs ≤ n - c.utf8Size := by omega
      exact Nat.add_le_add_left (ih hrest) _

/-- Going back from a column ends before the last character that does not fit, so a line can
    always be cut. -/
theorem cutLine?_eq (line : List Char) (column : Nat) :
    cutLine? line column = some (takeWithin line column, dropWithin line column) := by
  have hparts := takeWithin_append_dropWithin line column
  have hsplit : splitBytes? line (byteLength (takeWithin line column))
      = some (takeWithin line column, dropWithin line column) := by
    have happend := splitBytes?_append (takeWithin line column) (dropWithin line column)
    rwa [hparts] at happend
  have hback : backToBoundary? line (min column (byteLength line))
      = some (byteLength (takeWithin line column)) := by
    refine backToBoundary?_eq (Option.isSome_of_mem hsplit) ?_ ?_
    · refine Nat.le_min.mpr ⟨byteLength_takeWithin_le line column, ?_⟩
      rw [← hparts, byteLength_append, hparts]
      exact Nat.le_add_right ..
    · intro j hlt hle
      cases hj : splitBytes? line j with
      | none => rfl
      | some parts =>
          obtain ⟨heq, hbytes⟩ := eq_append_of_splitBytes? hj
          have hfits : byteLength parts.1 ≤ column := by omega
          have hlonger := byteLength_le_takeWithin parts.2 hfits
          rw [← heq] at hlonger
          omega
  rw [cutLine?, hback]
  exact hsplit

end Text

namespace Trim

/-! ## Keeping lines -/

/-- The text up to a point, guarded. -/
def keepThrough? (text : List Char) (stop : Point) : Option (List Char) := do
  let rows ← Word.next? stop.row
  let lines := (Text.splitLines text).take rows
  if lines.length = rows then
    match lines.getLast? with
    | none => return Text.joinLines lines
    | some line =>
        let (kept, _) ← Text.cutLine? line stop.column
        return Text.joinLines (lines.dropLast ++ [kept])
  else
    return Text.joinLines lines

/-- The text from a point on, guarded. -/
def keepFrom? (text : List Char) (start : Point) : Option (List Char) :=
  match (Text.splitLines text).drop start.row with
  | [] => some (Text.joinLines [])
  | line :: lines => do
      let (_, kept) ← Text.cutLine? line start.column
      return Text.joinLines (kept :: lines)

theorem mapLast_concat (f : List Char → List Char) (lines : List (List Char))
    (line : List Char) : mapLast f (lines ++ [line]) = lines ++ [f line] := by
  induction lines with
  | nil => rfl
  | cons first lines ih =>
      cases lines with
      | nil => rfl
      | cons second rest => exact congrArg (first :: ·) ih

theorem keepThrough?_eq (text : List Char) {stop : Point} (h : stop.row < Word.greatest) :
    keepThrough? text stop = some (keepThrough text stop) := by
  rw [keepThrough?, Word.next?_of_lt h, keepThrough]
  dsimp only [Option.bind_eq_bind, Option.bind_some]
  generalize (Text.splitLines text).take (Word.next stop.row) = lines
  by_cases hlength : lines.length = Word.next stop.row
  · rw [if_pos hlength, if_pos hlength]
    rcases List.eq_nil_or_concat lines with rfl | ⟨front, line, rfl⟩
    · rfl
    · rw [List.concat_eq_append, List.getLast?_concat]
      dsimp only
      rw [Text.cutLine?_eq, mapLast_concat, List.dropLast_concat]
      rfl
  · rw [if_neg hlength, if_neg hlength]
    rfl

theorem keepFrom?_eq (text : List Char) (start : Point) :
    keepFrom? text start = some (keepFrom text start) := by
  rw [keepFrom?, keepFrom]
  cases (Text.splitLines text).drop start.row with
  | nil => rfl
  | cons line lines =>
      dsimp only
      rw [Text.cutLine?_eq]
      rfl

end Trim

namespace SyntaxTree

/-! ## Looking children up -/

/-- The node of the root's child of that index, guarded. -/
def child? (tree : SyntaxTree) (index : Nat) : Option Node := do
  let number ← (tree.node 0).children[index]?
  tree.nodes[number]?

/-- The first clean child after an errored one, each looked up in the order of the scan. -/
def scanChildren? (tree : SyntaxTree) : Bool → List Nat → Option (Option Node)
  | _, [] => some none
  | seen, index :: rest => do
      let child ← tree.child? index
      if child.hasError then scanChildren? tree true rest
      else if seen then return some child
      else scanChildren? tree seen rest

/-- The child to cut at, guarded: `margin` without a scan, else where the scan stops, or `last`;
    none keeps the whole text. -/
def boundary? (tree : SyntaxTree) (floor : Nat) (margin last : Option Nat)
    (order : Option (List Nat)) : Option (Option Node) := do
  let root ← tree.nodes[0]?
  if Trim.marginOnly root.hasError root.children.length floor then
    if root.children.length < 2 then return none
    else return some (← tree.child? (← margin))
  else
    let stop ← tree.scanChildren? false (← order)
    let fallback ← tree.child? (← last)
    return some (stop.getD fallback)

/-- The text without a malformed end, guarded. -/
def trimEnd? (tree : SyntaxTree) (minimum : Nat) : Option String := do
  let count := tree.topCount
  let floor := Trim.floorOf minimum
  match ← tree.boundary? floor (Word.minus? count 2) (Word.minus? floor 1)
      (some (List.range' floor (count - floor)).reverse) with
  | none => return tree.source
  | some child =>
      return String.ofList (← Trim.keepThrough? tree.source.toList child.span.stop)

/-- The text without a malformed start, guarded. -/
def trimStart? (tree : SyntaxTree) (minimum : Nat) : Option String := do
  let count := tree.topCount
  let floor := Trim.floorOf minimum
  match ← tree.boundary? floor (some 1) (Word.minus? count floor)
      ((Word.minus? count floor).map List.range) with
  | none => return tree.source
  | some child =>
      return String.ofList (← Trim.keepFrom? tree.source.toList child.span.start)

section Linked

variable {tree : SyntaxTree} (hl : tree.Linked)

include hl

theorem child?_eq {i : Nat} (hi : i < tree.topCount) : tree.child? i = some (tree.topNode i) := by
  have hget : (tree.node 0).children[i]? = some (tree.node 0).children[i] :=
    List.getElem?_eq_getElem hi
  obtain ⟨-, hsize, -⟩ := hl.child 0 _ (List.getElem_mem hi)
  rw [child?, topNode, List.getD_eq_getElem?_getD, hget]
  show tree.nodes[(tree.node 0).children[i]]? = some (tree.nodes.getD _ Node.blank)
  rw [Array.getD_eq_getD_getElem?, Option.getD_some, Array.getElem?_eq_getElem hsize]
  rfl

theorem scanChildren?_eq (seen : Bool) {scanned : List (Bool × Nat)}
    (h : ∀ entry ∈ scanned, tree.childErrors[entry.2]? = some entry.1) :
    tree.scanChildren? seen (scanned.map Prod.snd)
      = some ((Trim.firstCleanAfterError seen scanned).map tree.topNode) := by
  induction scanned generalizing seen with
  | nil => rfl
  | cons entry rest ih =>
      obtain ⟨errored, i⟩ := entry
      obtain ⟨hi, herror⟩ := childErrors_eq_some_iff.mp (h _ List.mem_cons_self)
      have hrest := fun seen => ih seen fun entry hentry => h entry (List.mem_cons_of_mem _ hentry)
      rw [List.map_cons, scanChildren?, child?_eq hl hi]
      dsimp only [Option.bind_eq_bind, Option.bind_some]
      rw [herror, Trim.firstCleanAfterError]
      cases errored with
      | true => exact hrest true
      | false =>
          cases seen with
          | true => rfl
          | false => exact hrest false

/-- No guard fails where margin and fallback are children and the scan is one of children. -/
theorem boundary?_eq {floor m l : Nat} {margin last stop : Option Nat} {order : Option (List Nat)}
    {is : List Nat} (hmargin : 2 ≤ tree.topCount → margin = some m ∧ m < tree.topCount)
    (hlast : floor < tree.topCount → last = some l ∧ l < tree.topCount)
    (horder : floor < tree.topCount →
      order = some is ∧ tree.scanChildren? false is = some (stop.map tree.topNode)) :
    tree.boundary? floor margin last order
      = some ((if Trim.marginOnly tree.hasError tree.topCount floor then
          if tree.topCount < 2 then none else some m
        else some (stop.getD l)).map tree.topNode) := by
  have hroot : tree.nodes[0]? = some (tree.node 0) := by
    rw [node, Array.getD_eq_getD_getElem?, Array.getElem?_eq_getElem hl.size_pos]
    rfl
  rw [boundary?, hroot]
  show (if Trim.marginOnly tree.hasError tree.topCount floor then
    if tree.topCount < 2 then _ else _ else _) = _
  split
  · split
    · rfl
    · next hmany =>
        obtain ⟨rfl, hm⟩ := hmargin (by omega)
        rw [Option.bind_eq_bind, Option.bind_some, child?_eq hl hm]
        rfl
  · next hscan =>
      rw [Trim.marginOnly_iff, not_or, Nat.not_le] at hscan
      obtain ⟨rfl, hlt⟩ := hlast hscan.2
      obtain ⟨rfl, hstop⟩ := horder hscan.2
      simp only [Option.bind_eq_bind, Option.bind_some, hstop, child?_eq hl hlt]
      exact congrArg (fun node => some (some node)) (Option.getD_map tree.topNode l stop)

/-- The end of the text is cut at the boundary of the scan from the last child inward. -/
theorem boundary?_end (minimum : Nat) :
    tree.boundary? (Trim.floorOf minimum) (Word.minus? tree.topCount 2)
        (Word.minus? (Trim.floorOf minimum) 1)
        (some (List.range' (Trim.floorOf minimum)
          (tree.topCount - Trim.floorOf minimum)).reverse)
      = some ((Trim.endBoundary? tree.hasError tree.childErrors minimum).map tree.topNode) := by
  have hfloor : 1 ≤ Trim.floorOf minimum := Nat.le_max_right ..
  rw [Trim.endBoundary?, length_childErrors]
  generalize Trim.floorOf minimum = floor at hfloor ⊢
  have horder : (tree.childErrors.zipIdx.drop floor).reverse.map Prod.snd
      = (List.range' floor (tree.topCount - floor)).reverse := by
    rw [List.map_reverse, List.map_drop, List.zipIdx_map_snd, List.drop_range', length_childErrors,
      Nat.mul_one, Nat.zero_add]
  have hscan : tree.scanChildren? false (List.range' floor (tree.topCount - floor)).reverse
      = some ((Trim.firstCleanAfterError false
          (tree.childErrors.zipIdx.drop floor).reverse).map tree.topNode) := by
    rw [← horder]
    refine scanChildren?_eq hl false fun entry hentry => ?_
    exact (Trim.mem_zipIdx_drop.mp (List.mem_reverse.mp hentry)).2
  exact boundary?_eq hl (fun hmany => ⟨Word.minus?_of_le hmany, by omega⟩)
    (fun hcount => ⟨Word.minus?_of_le hfloor, by omega⟩) fun _ => ⟨rfl, hscan⟩

/-- The start of the text is cut at the boundary of the scan from the first child inward. -/
theorem boundary?_start (minimum : Nat) :
    tree.boundary? (Trim.floorOf minimum) (some 1)
        (Word.minus? tree.topCount (Trim.floorOf minimum))
        ((Word.minus? tree.topCount (Trim.floorOf minimum)).map List.range)
      = some ((Trim.startBoundary? tree.hasError tree.childErrors minimum).map tree.topNode) := by
  have hfloor : 1 ≤ Trim.floorOf minimum := Nat.le_max_right ..
  rw [Trim.startBoundary?, length_childErrors]
  generalize Trim.floorOf minimum = floor at hfloor ⊢
  have horder : (tree.childErrors.zipIdx.take (tree.topCount - floor)).map Prod.snd
      = List.range (tree.topCount - floor) := by
    rw [List.map_take, List.zipIdx_map_snd, ← List.range_eq_range', length_childErrors,
      List.take_range, Nat.min_eq_left (Nat.sub_le ..)]
  have hscan : tree.scanChildren? false (List.range (tree.topCount - floor))
      = some ((Trim.firstCleanAfterError false
          (tree.childErrors.zipIdx.take (tree.topCount - floor))).map tree.topNode) := by
    rw [← horder]
    refine scanChildren?_eq hl false fun entry hentry => ?_
    exact (Trim.mem_zipIdx_take.mp hentry).2
  exact boundary?_eq hl (fun hmany => ⟨rfl, hmany⟩)
    (fun hcount => ⟨Word.minus?_of_le hcount.le, by omega⟩)
    fun hcount => ⟨congrArg (Option.map List.range) (Word.minus?_of_le hcount.le), hscan⟩

end Linked

section Slices

variable {tree : SyntaxTree}
variable (hrows : ∀ i < tree.topCount, (tree.topNode i).span.stop.row < Word.greatest)

/-- The child whose end is the new end of the text is there. -/
theorem lt_topCount_of_endBoundary? {minimum b : Nat}
    (h : Trim.endBoundary? tree.hasError tree.childErrors minimum = some b) :
    b < tree.topCount :=
  (Trim.lt_length_of_endBoundary? h).trans_eq tree.length_childErrors

include hrows in
theorem trimEnd?_eq (hl : tree.Linked) (minimum : Nat) :
    tree.trimEnd? minimum = some (tree.trimEnd minimum) := by
  rw [trimEnd?, trimEnd, boundary?_end hl]
  cases hb : Trim.endBoundary? tree.hasError tree.childErrors minimum with
  | none => rfl
  | some b =>
      have hrow := hrows b (lt_topCount_of_endBoundary? hb)
      simp only [Option.map_some, Option.bind_eq_bind, Option.bind_some,
        Trim.keepThrough?_eq _ hrow]
      rfl

include hrows in
theorem trimEnd_prefix (minimum : Nat) :
    (tree.trimEnd minimum).toList <+: tree.source.toList := by
  rw [trimEnd]
  cases hb : Trim.endBoundary? tree.hasError tree.childErrors minimum with
  | none => exact List.prefix_refl _
  | some b =>
      have hrow := hrows b (lt_topCount_of_endBoundary? hb)
      dsimp only
      rw [String.toList_ofList, Text.keepThrough_eq_upTo _ hrow]
      exact ⟨_, Text.upTo_append_onFrom ..⟩

theorem trimStart?_eq (hl : tree.Linked) (minimum : Nat) :
    tree.trimStart? minimum = some (tree.trimStart minimum) := by
  rw [trimStart?, trimStart, boundary?_start hl]
  cases Trim.startBoundary? tree.hasError tree.childErrors minimum with
  | none => rfl
  | some b =>
      simp only [Option.map_some, Option.bind_eq_bind, Option.bind_some, Trim.keepFrom?_eq]
      rfl

theorem trimStart_suffix (tree : SyntaxTree) (minimum : Nat) :
    (tree.trimStart minimum).toList <:+ tree.source.toList := by
  rw [trimStart]
  cases Trim.startBoundary? tree.hasError tree.childErrors minimum with
  | none => exact List.suffix_refl _
  | some b =>
      dsimp only
      rw [String.toList_ofList, Text.keepFrom_eq_onFrom]
      exact ⟨_, Text.upTo_append_onFrom ..⟩

end Slices

/-- **Trimming is always a clean slice.**  Whatever positions the nodes of a flattened tree claim,
    if only the rows where its topmost ones end can be counted: with every look-up, difference,
    count and cut guarded, both trims still succeed with the same result; and what they keep is a
    leading, and a trailing, part of the source. -/
theorem trims_are_slices (source : String) (parsed : ParseTree) (minimum : Nat)
    (hrows : ∀ i < (ofParse source parsed).topCount,
      ((ofParse source parsed).topNode i).span.stop.row < Word.greatest) :
    let tree := ofParse source parsed
    (tree.trimEnd? minimum = some (tree.trimEnd minimum) ∧
      (tree.trimEnd minimum).toList <+: source.toList) ∧
    (tree.trimStart? minimum = some (tree.trimStart minimum) ∧
      (tree.trimStart minimum).toList <:+ source.toList) := by
  intro tree
  have hl : tree.Linked := linked_ofParse source parsed
  exact ⟨⟨trimEnd?_eq hrows hl minimum, trimEnd_prefix hrows minimum⟩,
    ⟨trimStart?_eq hl minimum, trimStart_suffix tree minimum⟩⟩

/-- Three nodes out of place: the first ends inside a character, the second past the last row,
    and the third, which starts inside a character, before its own start. -/
def strayNodes : ParseTree :=
  let node := fun (errored : Bool) (start stop : Point) =>
    (⟨"node", none, true, errored, ⟨7, 3, start, stop⟩⟩ : EngineNode)
  ⟨⟨"text", none, true, true, ⟨0, 0, ⟨0, 0⟩, ⟨0, 0⟩⟩⟩,
    .cons (node false ⟨9, 1⟩ ⟨0, 2⟩) .nil
      (.cons (node true ⟨0, 9⟩ ⟨9, 0⟩) .nil (.cons (node false ⟨1, 1⟩ ⟨0, 0⟩) .nil .nil))⟩

/-- Both trims of a text with stray nodes are slices of it, cut before the character that the
    first node ends in, and before the one that the third node starts in. -/
theorem trims_are_slices_strayNodes :
    let tree := ofParse "hé\nы" strayNodes
    (tree.trimEnd? 0 = some "h" ∧ "h".toList <+: "hé\nы".toList) ∧
    (tree.trimStart? 0 = some "ы" ∧ "ы".toList <:+ "hé\nы".toList) := by
  intro tree
  have hrows : ∀ i < tree.topCount, (tree.topNode i).span.stop.row < Word.greatest := by
    decide +kernel
  have hend : tree.trimEnd 0 = "h" := by decide +kernel
  have hstart : tree.trimStart 0 = "ы" := by decide +kernel
  rw [← hend, ← hstart]
  exact trims_are_slices "hé\nы" strayNodes 0 hrows

end SyntaxTree

end CodeBlocks
