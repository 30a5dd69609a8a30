import CodeBlocks.SyntaxTree.Search
import CodeBlocks.Proofs.Point
import CodeBlocks.Proofs.SyntaxTree.Subtrees
import Mathlib.Data.List.Pairwise

/-! # Scanning — the pruned scan is the plain filter

    A scan with a window leaves out whole subtrees and stops early.  It
    never returns a node that a filter over all descendants would not
    return, in whatever order the nodes lie.  Where starts never go back
    and nothing ends after an ancestor, it returns all of them: what it
    left out ended with the node it left out, and what it did not reach
    starts as late as the node it stopped at.

    `Scans` is the scan without a bound on its steps.  A scan that ends is
    a derivation of it, so that `ofKind` has one says that the scan ends;
    a subtree that ends after its node is what it takes. -/

namespace CodeBlocks

namespace Window

/-- Whether a span and a window share a point, ends included. -/
def overlaps (w : Window) (span : Span) : Bool :=
  decide (span.start ≤ w.last ∧ w.first ≤ span.stop)

/-- Whether a span overlaps the window, if there is one. -/
def admits : Option Window → Span → Bool
  | some w, span => w.overlaps span
  | none,   _    => true

theorem admits_of_endsBefore {window : Option Window} {span : Span}
    (h : endsBefore window span = true) : admits window span = false := by
  cases window with
  | none => cases h
  | some w =>
      refine decide_eq_false ?_
      rintro ⟨hstart, -⟩
      exact not_le_of_gt (of_decide_eq_true h) hstart

theorem admits_of_startsAfter {window : Option Window} {span : Span}
    (h : startsAfter window span = true) : admits window span = false := by
  cases window with
  | none => cases h
  | some w =>
      refine decide_eq_false ?_
      rintro ⟨-, hstop⟩
      exact not_le_of_gt (of_decide_eq_true h) hstop

theorem admits_of_neither {window : Option Window} {span : Span}
    (hbefore : endsBefore window span = false) (hafter : startsAfter window span = false) :
    admits window span = true := by
  cases window with
  | none => rfl
  | some w =>
      have hstart : ¬ w.last < span.start := of_decide_eq_false hbefore
      have hstop : ¬ span.stop < w.first := of_decide_eq_false hafter
      exact decide_eq_true ⟨not_lt.mp hstart, not_lt.mp hstop⟩

/-- A window that ends before a span ends before what starts no earlier than that. -/
theorem endsBefore_of_le {window : Option Window} {span later : Span}
    (h : endsBefore window span = true) (hle : span.start ≤ later.start) :
    endsBefore window later = true := by
  cases window with
  | none => cases h
  | some w =>
      have hlast : w.last < span.start := of_decide_eq_true h
      exact decide_eq_true (lt_of_lt_of_le hlast hle)

/-- A window that starts after a span starts after what ends no later than that. -/
theorem startsAfter_of_le {window : Option Window} {span inner : Span}
    (h : startsAfter window span = true) (hle : inner.stop ≤ span.stop) :
    startsAfter window inner = true := by
  cases window with
  | none => cases h
  | some w =>
      have hfirst : span.stop < w.first := of_decide_eq_true h
      exact decide_eq_true (lt_of_le_of_lt hle hfirst)

end Window

/-! ## Segments of numbers -/

theorem segment_eq_cons {i stop : Nat} (h : i < stop) :
    List.range' i (stop - i) = i :: List.range' (i + 1) (stop - (i + 1)) := by
  rw [show stop - i = stop - (i + 1) + 1 by omega, List.range'_succ]

theorem segment_sublist {i j : Nat} (h : i ≤ j) (stop : Nat) :
    (List.range' j (stop - j)).Sublist (List.range' i (stop - i)) := by
  rcases Nat.le_total j stop with hj | hj
  · have happend : List.range' i (j - i) ++ List.range' j (stop - j)
        = List.range' i (stop - i) := by
      rw [show stop - i = (j - i) + (stop - j) by omega, ← List.range'_append_1,
        show i + (j - i) = j by omega]
    rw [← happend]
    exact List.sublist_append_right ..
  · rw [Nat.sub_eq_zero_of_le hj]
    exact List.nil_sublist _

/-- A filter that takes nothing before `j` can start there. -/
theorem filter_segment_of_le {i j stop : Nat} {p : Nat → Bool} (h : i ≤ j)
    (hp : ∀ k, i ≤ k → k < j → k < stop → p k = false) :
    (List.range' i (stop - i)).filter p = (List.range' j (stop - j)).filter p := by
  obtain ⟨n, rfl⟩ := Nat.exists_eq_add_of_le h
  induction n with
  | zero => rfl
  | succ n ih =>
      rw [ih (Nat.le_add_right i n) fun k hk hkj => hp k hk (Nat.lt_succ_of_lt hkj)]
      by_cases hstop : i + n < stop
      · have hnot := hp (i + n) (Nat.le_add_right i n) (Nat.lt_succ_self _) hstop
        rw [segment_eq_cons hstop, List.filter_cons_of_neg (by rw [hnot]; exact Bool.false_ne_true)]
        rfl
      · rw [Nat.sub_eq_zero_of_le (Nat.le_of_not_lt hstop), Nat.sub_eq_zero_of_le (by omega)]
        rfl

namespace SyntaxTree

/-- Whether a node is of one of the kinds and overlaps the window. -/
def wanted (tree : SyntaxTree) (kinds : List String) (window : Option Window) (d : Nat) : Bool :=
  kinds.contains (tree.node d).kind && Window.admits window (tree.node d).span

/-- A scan of the numbers up to `stop` that ends, with what it finds.  It reads nodes in use
    only. -/
inductive Scans (tree : SyntaxTree) (kinds : List String) (window : Option Window)
    (stop : Nat) : Nat → List Nat → Prop where
  | past {i : Nat} : stop ≤ i → Scans tree kinds window stop i []
  | late {i : Nat} : i < stop → i < tree.size →
      Window.endsBefore window (tree.node i).span = true → Scans tree kinds window stop i []
  | skip {i : Nat} {found : List Nat} : i < stop → i < tree.size →
      Window.endsBefore window (tree.node i).span = false →
      Window.startsAfter window (tree.node i).span = true →
      Scans tree kinds window stop (tree.node i).subtreeEnd found →
      Scans tree kinds window stop i found
  | take {i : Nat} {found : List Nat} : i < stop → i < tree.size →
      Window.endsBefore window (tree.node i).span = false →
      Window.startsAfter window (tree.node i).span = false →
      kinds.contains (tree.node i).kind = true →
      Scans tree kinds window stop (i + 1) found →
      Scans tree kinds window stop i (i :: found)
  | leave {i : Nat} {found : List Nat} : i < stop → i < tree.size →
      Window.endsBefore window (tree.node i).span = false →
      Window.startsAfter window (tree.node i).span = false →
      kinds.contains (tree.node i).kind = false →
      Scans tree kinds window stop (i + 1) found →
      Scans tree kinds window stop i found

/-- The order in which the engine leaves what is below a node: starts never go back in
    pre-order, and nothing ends after a node above it. -/
structure OrderedBelow (tree : SyntaxTree) (i : Nat) : Prop where
  starts : (tree.descendants i).IsChain fun a b =>
    (tree.node a).span.start ≤ (tree.node b).span.start
  stops : ∀ a ∈ tree.descendants i, ∀ d, tree.Above a d →
    (tree.node d).span.stop ≤ (tree.node a).span.stop

/-- Pruning between two numbers loses nothing: a window that ends before a node ends before all
    that follow, and one that starts after a node starts after all that is below it. -/
structure Prunable (tree : SyntaxTree) (window : Option Window) (start stop : Nat) : Prop where
  late : ∀ j k, start ≤ j → j ≤ k → k < stop →
    Window.endsBefore window (tree.node j).span = true →
    Window.endsBefore window (tree.node k).span = true
  skip : ∀ j k, start ≤ j → j ≤ k → k < stop → k < (tree.node j).subtreeEnd →
    Window.startsAfter window (tree.node j).span = true →
    Window.startsAfter window (tree.node k).span = true

namespace Nested

variable {tree : SyntaxTree} (h : tree.Nested) {kinds : List String} {window : Option Window}
variable {stop : Nat}

include h

/-- With a step for each number the scan ends. -/
theorem scans_scan (hstop : stop ≤ tree.size) {fuel i : Nat} (hfuel : stop ≤ fuel + i) :
    tree.Scans kinds window stop i (tree.scan kinds window stop fuel i) := by
  induction fuel generalizing i with
  | zero => exact .past (by omega)
  | succ fuel ih =>
      rw [scan]
      by_cases hi : stop ≤ i
      · rw [if_pos hi]
        exact .past hi
      · have hlt : i < stop := Nat.lt_of_not_le hi
        have hsize : i < tree.size := Nat.lt_of_lt_of_le hlt hstop
        rw [if_neg hi]
        cases hbefore : Window.endsBefore window (tree.node i).span with
        | true => exact .late hlt hsize hbefore
        | false =>
            cases hafter : Window.startsAfter window (tree.node i).span with
            | true =>
                have hend := (h.bounds i hsize).1
                exact .skip hlt hsize hbefore hafter (ih (by omega))
            | false =>
                cases hkind : kinds.contains (tree.node i).kind with
                | true => exact .take hlt hsize hbefore hafter hkind (ih (by omega))
                | false => exact .leave hlt hsize hbefore hafter hkind (ih (by omega))

/-- **A scan finds nothing that the filter does not.** -/
theorem sublist_filter {i : Nat} {found : List Nat}
    (hscans : tree.Scans kinds window stop i found) :
    found.Sublist ((List.range' i (stop - i)).filter (tree.wanted kinds window)) := by
  induction hscans with
  | past _ => exact List.nil_sublist _
  | late _ _ _ => exact List.nil_sublist _
  | skip _ hsize _ _ _ ih =>
      have hend := (h.bounds _ hsize).1
      exact ih.trans ((segment_sublist (Nat.le_of_lt hend) stop).filter _)
  | @take i found hlt _ hbefore hafter hkind _ ih =>
      have hwanted : tree.wanted kinds window i = true := by
        rw [wanted, hkind, Window.admits_of_neither hbefore hafter]
        rfl
      rw [segment_eq_cons hlt, List.filter_cons_of_pos hwanted]
      exact ih.cons_cons i
  | leave _ _ _ _ _ _ ih =>
      exact ih.trans ((segment_sublist (Nat.le_succ _) stop).filter _)

/-- **Where pruning loses nothing, a scan finds all that the filter does.** -/
theorem eq_filter {start i : Nat} {found : List Nat} (hprune : tree.Prunable window start stop)
    (hscans : tree.Scans kinds window stop i found) (hi : start ≤ i) :
    found = (List.range' i (stop - i)).filter (tree.wanted kinds window) := by
  induction hscans with
  | past hstop =>
      rw [Nat.sub_eq_zero_of_le hstop]
      rfl
  | @late i hlt _ hbefore =>
      refine (List.filter_eq_nil_iff.mpr ?_).symm
      intro k hk hwanted
      obtain ⟨hle, hkstop⟩ := List.mem_range'_1.mp hk
      have hlate := hprune.late i k hi hle (by omega) hbefore
      rw [wanted, Window.admits_of_endsBefore hlate, Bool.and_false] at hwanted
      cases hwanted
  | @skip i found _ hsize _ hafter _ ih =>
      have hend := (h.bounds i hsize).1
      rw [ih (by omega)]
      refine (filter_segment_of_le (Nat.le_of_lt hend) fun k hle hk hkstop => ?_).symm
      have hinner := hprune.skip i k hi hle hkstop hk hafter
      rw [wanted, Window.admits_of_startsAfter hinner, Bool.and_false]
  | @take i found hlt _ hbefore hafter hkind _ ih =>
      have hwanted : tree.wanted kinds window i = true := by
        rw [wanted, hkind, Window.admits_of_neither hbefore hafter]
        rfl
      rw [segment_eq_cons hlt, List.filter_cons_of_pos hwanted, ← ih (Nat.le_succ_of_le hi)]
  | @leave i found hlt _ _ _ hkind _ ih =>
      have hnot : ¬ tree.wanted kinds window i = true := by
        rw [wanted, hkind]
        exact Bool.false_ne_true
      rw [segment_eq_cons hlt, List.filter_cons_of_neg hnot, ← ih (Nat.le_succ_of_le hi)]

omit h in
/-- Below an ordered node a later descendant starts no earlier. -/
theorem start_le_of_lt {i j k : Nat} (hordered : tree.OrderedBelow i) (hij : i < j) (hlt : j < k)
    (hk : k < (tree.node i).subtreeEnd) :
    (tree.node j).span.start ≤ (tree.node k).span.start := by
  let earlier := fun a b => (tree.node a).span.start ≤ (tree.node b).span.start
  have htrans : Trans earlier earlier earlier := ⟨fun hab hbc => le_trans hab hbc⟩
  have hpairwise : (tree.descendants i).Pairwise earlier :=
    List.isChain_iff_pairwise.mp hordered.starts
  have hlength : (tree.descendants i).length = (tree.node i).subtreeEnd - (i + 1) :=
    List.length_range'
  have hat := List.pairwise_iff_getElem.mp hpairwise (j - (i + 1)) (k - (i + 1)) (by omega)
    (by omega) (by omega)
  simp only [descendants, List.getElem_range'] at hat
  rw [show i + 1 + 1 * (j - (i + 1)) = j by omega,
    show i + 1 + 1 * (k - (i + 1)) = k by omega] at hat
  exact hat

/-- The order the engine leaves makes pruning safe. -/
theorem prunable_of_ordered (hl : tree.Linked) {i : Nat} (hordered : tree.OrderedBelow i)
    (window : Option Window) : tree.Prunable window (i + 1) (tree.node i).subtreeEnd := by
  constructor
  · intro j k hj hle hk hbefore
    rcases Nat.eq_or_lt_of_le hle with rfl | hlt
    · exact hbefore
    · exact Window.endsBefore_of_le hbefore (start_le_of_lt hordered hj hlt hk)
  · intro j k hj hle hkstop hk hafter
    rcases Nat.eq_or_lt_of_le hle with rfl | hlt
    · exact hafter
    · have hjmem : j ∈ tree.descendants i := mem_descendants.mpr ⟨hj, Nat.lt_trans hlt hkstop⟩
      have habove : tree.Above j k := (h.mem_descendants_iff hl).mp (mem_descendants.mpr ⟨hlt, hk⟩)
      exact Window.startsAfter_of_le hafter (hordered.stops j hjmem k habove)

omit h in
/-- Without a window nothing is pruned. -/
theorem prunable_none (start : Nat) : tree.Prunable none start stop :=
  ⟨fun _ _ _ _ _ hbefore => (nomatch hbefore), fun _ _ _ _ _ _ hafter => (nomatch hafter)⟩

/-- The scan of a node's descendants ends. -/
theorem scans_ofKind (i : Nat) (kinds : List String) (window : Option Window) :
    tree.Scans kinds window (tree.node i).subtreeEnd (i + 1) (tree.ofKind i kinds window) := by
  have hstop : (tree.node i).subtreeEnd ≤ tree.size := by
    by_cases hi : i < tree.size
    · exact (h.bounds i hi).2
    · rw [node_eq_blank (Nat.le_of_not_lt hi)]
      exact Nat.zero_le _
  exact h.scans_scan hstop (by omega)

end Nested

end SyntaxTree

/-- **The pruned scan is the plain filter.**  In every flattened tree and from every node the scan
    ends; it returns, in document order and each once, only descendants of the kinds that overlap
    the window.  Where the descendants are ordered it returns all of them, and without a window it
    always does. -/
theorem window_scan_is_filter (source : String) (parsed : ParseTree) (i : Nat)
    (kinds : List String) :
    let tree := SyntaxTree.ofParse source parsed
    let matching := fun (w : Window) (d : Nat) =>
      kinds.contains (tree.node d).kind && w.overlaps (tree.node d).span
    (∀ window, tree.Scans kinds window (tree.node i).subtreeEnd (i + 1)
      (tree.ofKind i kinds window)) ∧
    (∀ window, (tree.ofKind i kinds window).Pairwise (· < ·)) ∧
    (∀ w, (tree.ofKind i kinds (some w)).Sublist ((tree.descendants i).filter (matching w))) ∧
    (tree.OrderedBelow i →
      ∀ w, tree.ofKind i kinds (some w) = (tree.descendants i).filter (matching w)) ∧
    tree.ofKind i kinds none
      = (tree.descendants i).filter fun d => kinds.contains (tree.node d).kind := by
  intro tree matching
  have hn : tree.Nested := SyntaxTree.nested_ofParse source parsed
  have hl : tree.Linked := SyntaxTree.linked_ofParse source parsed
  have hscans := hn.scans_ofKind i kinds
  refine ⟨hscans, ?_, ?_, ?_, ?_⟩
  · intro window
    have hsublist := (hn.sublist_filter (hscans window)).trans List.filter_sublist
    exact List.Pairwise.sublist hsublist (List.pairwise_lt_range' ..)
  · intro w
    exact hn.sublist_filter (hscans (some w))
  · intro hordered w
    exact hn.eq_filter (hn.prunable_of_ordered hl hordered (some w)) (hscans (some w))
      (Nat.le_refl _)
  · have hall := hn.eq_filter (SyntaxTree.Nested.prunable_none (i + 1)) (hscans none)
      (Nat.le_refl _)
    rw [hall]
    refine List.filter_congr fun d _ => ?_
    exact Bool.and_true _

/-- Three functions on three lines, each with its name. -/
def threeFunctions : ParseTree :=
  let function := fun (row : Nat) (after : Forest) =>
    Forest.cons ⟨"function_definition", none, true, false,
        ⟨14 * row, 14 * row + 13, ⟨row, 0⟩, ⟨row, 13⟩⟩⟩
      (.cons ⟨"def", none, false, false, ⟨14 * row, 14 * row + 3, ⟨row, 0⟩, ⟨row, 3⟩⟩⟩ .nil
        (.cons ⟨"identifier", some "name", true, false,
          ⟨14 * row + 4, 14 * row + 5, ⟨row, 4⟩, ⟨row, 5⟩⟩⟩ .nil .nil)) after
  ⟨⟨"module", none, true, false, ⟨0, 42, ⟨0, 0⟩, ⟨3, 0⟩⟩⟩,
    function 0 (function 1 (function 2 .nil))⟩

/-- A window in the second line: the first function is left out with its name, the third ends the
    scan. -/
theorem window_scan_threeFunctions :
    let tree := SyntaxTree.ofParse "def a(): pass\ndef b(): pass\ndef c(): pass\n" threeFunctions
    tree.OrderedBelow 0 ∧
      tree.ofKind 0 ["function_definition"] (some ⟨⟨1, 0⟩, ⟨1, 5⟩⟩) = [3] := by
  intro tree
  have hn : tree.Nested := SyntaxTree.nested_ofParse _ threeFunctions
  have hl : tree.Linked := SyntaxTree.linked_ofParse _ threeFunctions
  have hstops : ∀ a ∈ tree.descendants 0, ∀ d ∈ tree.descendants a,
      (tree.node d).span.stop ≤ (tree.node a).span.stop := by decide +kernel
  have hordered : tree.OrderedBelow 0 :=
    ⟨by decide +kernel, fun a ha d habove => hstops a ha d ((hn.mem_descendants_iff hl).mpr habove)⟩
  obtain ⟨-, -, -, hfilter, -⟩ :=
    window_scan_is_filter _ threeFunctions 0 ["function_definition"]
  refine ⟨hordered, (hfilter hordered ⟨⟨1, 0⟩, ⟨1, 5⟩⟩).trans ?_⟩
  decide +kernel

end CodeBlocks
