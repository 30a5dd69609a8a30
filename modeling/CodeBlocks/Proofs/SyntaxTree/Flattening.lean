import CodeBlocks.Proofs.SyntaxTree.Arena
import Mathlib.Logic.Relation

/-! # Flattening is faithful — the walk builds the arena

    The walk is a loop over a cursor: it counts the depth by hand, keeps a
    list of open nodes that it shortens only when the next node is met,
    and writes the ends of subtrees when it shortens the list or at the
    end.  Its result is the arena of `Forest.arena`.  In three stages:

    * the loop is a recursion over the tree (`resume_enter`): what follows
      a node in pre-order is what is below it, then what is after it, then
      what the path above holds;
    * closing late is closing in time (`settle_settle`): a node that is
      closed for a higher depth would be closed for a lower one as well,
      and between the two nothing is numbered;
    * so a whole forest adds its arena to the nodes, and its topmost
      numbers to the children of the node it lies under
      (`settle_process`). -/

namespace CodeBlocks

/-- What a walk writes: the kept nodes, and depth and number of the open ones. -/
abbrev Ledger := Array Node × List (Int × Nat)

namespace Ledger

/-- Closes the open nodes that lie no higher than `depth`. -/
def settle (depth : Int) (s : Ledger) : Ledger := Walk.close depth s.1 s.2

/-- Meets a node: closes what ended before it, and keeps it if it is named or the
    root. -/
def meet (node : EngineNode) (depth : Int) (s : Ledger) : Ledger :=
  let s := s.settle depth
  if node.named || depth == 0 then
    (Walk.keep s.1 node (s.2.head?.map Prod.snd), (depth, s.1.size) :: s.2)
  else s

/-- The kept nodes, with all that were still open closed. -/
def finish (s : Ledger) : Array Node :=
  s.2.foldl (fun nodes entry => Walk.setEnd nodes entry.2) s.1

/-- Meets all nodes of a forest whose trees start at `depth`. -/
def process (depth : Int) : Forest → Ledger → Ledger
  | .nil, s => s
  | .cons node below after, s =>
      process depth after (process (depth + 1) below (s.meet node depth))

end Ledger

namespace Cursor

/-- Where a walk goes when the trees of a forest come next, below this path. -/
def enter? (forest : Forest) (path : List Crumb) (depth : Int) : Option (Cursor × Int) :=
  match forest, path with
  | .cons node below after, path => some (⟨node, below, after, path⟩, depth)
  | .nil, [] => none
  | .nil, crumb :: path => climb? ⟨crumb.node, crumb.below, crumb.after, path⟩ (depth - 1)

/-- Climbing goes on with the later siblings. -/
theorem climb?_eq_enter? (node : EngineNode) (below after : Forest) (path : List Crumb)
    (depth : Int) : climb? ⟨node, below, after, path⟩ depth = enter? after path depth := by
  rw [climb?]
  cases after with
  | cons => rfl
  | nil => cases path <;> rfl

/-- Advancing goes on with what is below. -/
theorem advance?_eq_enter? (node : EngineNode) (below after : Forest) (path : List Crumb)
    (depth : Int) :
    advance? ⟨node, below, after, path⟩ depth
      = enter? below (⟨node, below, after⟩ :: path) (depth + 1) := by
  cases below with
  | cons => rfl
  | nil =>
      show climb? ⟨node, .nil, after, path⟩ depth
        = climb? ⟨node, .nil, after, path⟩ (depth + 1 - 1)
      rw [Int.add_sub_cancel]

/-- After the trees below a node come its later siblings. -/
theorem enter?_nil_cons (crumb : Crumb) (path : List Crumb) (depth : Int) :
    enter? .nil (crumb :: path) (depth + 1) = enter? crumb.after path depth := by
  show climb? ⟨crumb.node, crumb.below, crumb.after, path⟩ (depth + 1 - 1) = _
  rw [Int.add_sub_cancel, climb?_eq_enter?]

end Cursor

namespace Walk

/-- Goes on with a walk that has written `s`. -/
def resume (next : Option (Cursor × Int)) (s : Ledger) : Array Node :=
  match next with
  | some (cursor, depth) => run ⟨cursor, depth, s.1, s.2⟩
  | none => s.finish

/-- A walk meets the node under its cursor and goes on. -/
theorem run_eq_resume (cursor : Cursor) (depth : Int) (s : Ledger) :
    run ⟨cursor, depth, s.1, s.2⟩
      = resume (cursor.advance? depth) (s.meet cursor.node depth) := by
  have hvisit : (Walk.visit ⟨cursor, depth, s.1, s.2⟩).nodes = (s.meet cursor.node depth).1 ∧
      (Walk.visit ⟨cursor, depth, s.1, s.2⟩).openNodes = (s.meet cursor.node depth).2 := by
    by_cases hkeep : (cursor.node.named || depth == 0) = true
    · simp [Walk.visit, Ledger.meet, Ledger.settle, hkeep]
    · simp [Walk.visit, Ledger.meet, Ledger.settle, hkeep]
  rw [run]
  split
  · next next depth' hnext =>
      have hnext : cursor.advance? depth = some (next, depth') := hnext
      show run ⟨next, depth', (Walk.visit ⟨cursor, depth, s.1, s.2⟩).nodes,
        (Walk.visit ⟨cursor, depth, s.1, s.2⟩).openNodes⟩ = _
      rw [hnext, hvisit.1, hvisit.2]
      rfl
  · next hnext =>
      have hnext : cursor.advance? depth = none := hnext
      rw [hnext, Walk.finish, hvisit.1, hvisit.2]
      rfl

/-- **The loop is a recursion**: a walk that comes to a forest meets its nodes by
    structural recursion, and then goes on above it. -/
theorem resume_enter (forest : Forest) (path : List Crumb) (depth : Int) (s : Ledger) :
    resume (Cursor.enter? forest path depth) s
      = resume (Cursor.enter? .nil path depth) (s.process depth forest) := by
  induction forest generalizing path depth s with
  | nil => rfl
  | cons node below after ihBelow ihAfter =>
      -- the node is met; what is below it comes next, and the path keeps what is after it
      show run ⟨⟨node, below, after, path⟩, depth, s.1, s.2⟩ = _
      rw [run_eq_resume, Cursor.advance?_eq_enter?, ihBelow, Cursor.enter?_nil_cons, ihAfter]
      rfl

end Walk

/-- The nodes of a tree, written by recursion over it. -/
theorem ParseTree.nodes_eq_finish (tree : ParseTree) :
    tree.nodes = (Ledger.process 0 (.cons tree.root tree.below .nil) (#[], [])).finish :=
  Walk.resume_enter (.cons tree.root tree.below .nil) [] 0 (#[], [])

/-! ## Closing late -/

namespace Ledger

theorem settle_of_lt {depth level : Int} (nodes : Array Node) (i : Nat)
    (rest : List (Int × Nat)) (h : level < depth) :
    settle depth (nodes, (level, i) :: rest) = (nodes, (level, i) :: rest) := by
  show Walk.close depth nodes ((level, i) :: rest) = _
  rw [Walk.close, if_pos h]

theorem settle_of_le {depth level : Int} (nodes : Array Node) (i : Nat)
    (rest : List (Int × Nat)) (h : depth ≤ level) :
    settle depth (nodes, (level, i) :: rest) = settle depth (Walk.setEnd nodes i, rest) := by
  show Walk.close depth nodes ((level, i) :: rest) = _
  rw [Walk.close, if_neg (Int.not_lt.mpr h)]
  rfl

/-- What is closed for a depth is closed for every lower one. -/
theorem settle_settle {low high : Int} (h : low ≤ high) (s : Ledger) :
    (s.settle high).settle low = s.settle low := by
  obtain ⟨nodes, openNodes⟩ := s
  induction openNodes generalizing nodes with
  | nil => rfl
  | cons entry rest ih =>
      obtain ⟨level, i⟩ := entry
      -- closing for `high` stops here, or closes the entry as closing for `low` does
      by_cases hlevel : level < high
      · rw [settle_of_lt nodes i rest hlevel]
      · have hhigh : high ≤ level := Int.not_lt.mp hlevel
        rw [settle_of_le nodes i rest hhigh, settle_of_le nodes i rest (Int.le_trans h hhigh)]
        exact ih (Walk.setEnd nodes i)

theorem meet_settle (node : EngineNode) (depth : Int) (s : Ledger) :
    (s.settle depth).meet node depth = s.meet node depth := by
  rw [meet, meet, settle_settle (Int.le_refl depth)]

/-- Closing before a forest changes nothing that closing after it does not. -/
theorem settle_process_settle (depth : Int) (forest : Forest) (s : Ledger) :
    ((s.settle depth).process depth forest).settle depth
      = (s.process depth forest).settle depth := by
  cases forest with
  | nil => exact settle_settle (Int.le_refl depth) s
  | cons node below after => rw [process, process, meet_settle]

/-- At the end all open nodes are closed, also those closed before. -/
theorem finish_settle (depth : Int) (s : Ledger) : (s.settle depth).finish = s.finish := by
  obtain ⟨nodes, openNodes⟩ := s
  induction openNodes generalizing nodes with
  | nil => rfl
  | cons entry rest ih =>
      obtain ⟨level, i⟩ := entry
      by_cases hlevel : level < depth
      · rw [settle_of_lt nodes i rest hlevel]
      · rw [settle_of_le nodes i rest (Int.not_lt.mp hlevel), ih]
        rfl

/-! ## What a forest adds -/

/-- More children for a node. -/
def adopt (children : List Nat) (node : Node) : Node :=
  { node with children := node.children ++ children }

/-- The nodes after a forest below `parent`: its topmost numbers are new children
    of the parent, its arena follows. -/
def graft (nodes : Array Node) (parent : Nat) (forest : Forest) : Array Node :=
  nodes.modify parent (adopt (forest.tops nodes.size)) ++ forest.arena parent nodes.size

@[simp] theorem toList_graft (nodes : Array Node) (parent : Nat) (forest : Forest) :
    (graft nodes parent forest).toList
      = nodes.toList.modify parent (adopt (forest.tops nodes.size))
        ++ forest.arena parent nodes.size := by
  simp [graft]

@[simp] theorem size_graft (nodes : Array Node) (parent : Nat) (forest : Forest) :
    (graft nodes parent forest).size = nodes.size + forest.kept := by
  rw [← Array.length_toList, toList_graft]
  simp

theorem modify_append_left {α : Type} {front : List α} (back : List α) {i : Nat} (f : α → α)
    (h : i < front.length) : (front ++ back).modify i f = front.modify i f ++ back := by
  induction front generalizing i with
  | nil => exact absurd h (Nat.not_lt_zero i)
  | cons a front ih =>
      cases i with
      | zero => rfl
      | succ i => simpa using ih (Nat.lt_of_succ_lt_succ h)

theorem modify_append_length {α : Type} (front back : List α) (a : α) (f : α → α) :
    (front ++ a :: back).modify front.length f = front ++ f a :: back := by
  induction front with
  | nil => rfl
  | cons b front ih => simpa using ih

theorem graft_nil (nodes : Array Node) (parent : Nat) : graft nodes parent .nil = nodes := by
  have hadopt : adopt [] = id := by
    funext node
    simp [adopt]
  apply Array.toList_inj.mp
  simp [Forest.tops, Forest.arena, hadopt]

/-- Children adopted one after the other are adopted together. -/
theorem adopt_comp (front back : List Nat) : adopt back ∘ adopt front = adopt (front ++ back) := by
  funext node
  simp [adopt]

/-- A node without a name adds what is below it, and then what is after it. -/
theorem graft_graft {nodes : Array Node} {parent : Nat} {node : EngineNode}
    (below after : Forest) (hparent : parent < nodes.size) (hnamed : ¬ node.named) :
    graft (graft nodes parent below) parent after
      = graft nodes parent (.cons node below after) := by
  have hlength : parent < (nodes.toList.modify parent
      (adopt (below.tops nodes.size))).length := by
    simpa using hparent
  apply Array.toList_inj.mp
  rw [toList_graft, toList_graft, toList_graft, size_graft, modify_append_left _ _ hlength,
    List.modify_modify_eq, adopt_comp]
  simp [Forest.tops, Forest.arena, hnamed]

/-- A named node is a child of the parent; what is below it becomes its own, and it
    is closed before what is after it. -/
theorem graft_keep {nodes : Array Node} {parent : Nat} {node : EngineNode}
    (below after : Forest) (hparent : parent < nodes.size) (hnamed : node.named) :
    graft (Walk.setEnd (graft (Walk.keep nodes node (some parent)) nodes.size below) nodes.size)
        parent after
      = graft nodes parent (.cons node below after) := by
  -- the list is followed through the four changes; `front` is what stood before
  obtain ⟨front, hfront⟩ : ∃ front, front = nodes.toList.modify parent (adopt [nodes.size]) :=
    ⟨_, rfl⟩
  have hlength : front.length = nodes.size := by simp [hfront]
  have hkeep : (Walk.keep nodes node (some parent)).toList
      = front ++ [Walk.fresh node (some parent)] := by
    show ((nodes.push (Walk.fresh node (some parent))).modify parent (adopt [nodes.size])).toList
      = _
    rw [Array.toList_modify, Array.toList_push, modify_append_left _ _ (by simpa using hparent),
      hfront]
  have hsize : (Walk.keep nodes node (some parent)).size = nodes.size + 1 := by
    rw [← Array.length_toList, hkeep]
    simp [hlength]
  have hbelow : (graft (Walk.keep nodes node (some parent)) nodes.size below).toList
      = front ++ adopt (below.tops (nodes.size + 1)) (Walk.fresh node (some parent))
        :: below.arena nodes.size (nodes.size + 1) := by
    rw [toList_graft, hkeep, hsize]
    have hat := modify_append_length front [] (Walk.fresh node (some parent))
      (adopt (below.tops (nodes.size + 1)))
    rw [hlength] at hat
    simp [hat]
  have hend : (Walk.setEnd (graft (Walk.keep nodes node (some parent)) nodes.size below)
        nodes.size).toList
      = front ++ { adopt (below.tops (nodes.size + 1)) (Walk.fresh node (some parent)) with
          subtreeEnd := nodes.size + 1 + below.kept }
        :: below.arena nodes.size (nodes.size + 1) := by
    rw [Walk.setEnd, Array.toList_modify, hbelow, size_graft, hsize]
    have hat := modify_append_length front (below.arena nodes.size (nodes.size + 1))
      (adopt (below.tops (nodes.size + 1)) (Walk.fresh node (some parent)))
      (fun node => { node with subtreeEnd := nodes.size + 1 + below.kept })
    rw [hlength] at hat
    exact hat
  have hsizeEnd : (Walk.setEnd (graft (Walk.keep nodes node (some parent)) nodes.size below)
      nodes.size).size = nodes.size + 1 + below.kept := by
    rw [Walk.setEnd, Array.size_modify, size_graft, hsize]
  apply Array.toList_inj.mp
  rw [toList_graft, hend, hsizeEnd, modify_append_left _ _ (hlength ▸ hparent), hfront,
    List.modify_modify_eq, adopt_comp, toList_graft]
  simp [Forest.tops, Forest.arena, hnamed, Walk.fresh, adopt]

/-- Below the root, a node is kept if it is named. -/
theorem meet_of_lt {depth level : Int} (node : EngineNode) (nodes : Array Node) (i : Nat)
    (rest : List (Int × Nat)) (hlevel : level < depth) (hdepth : 0 < depth) :
    meet node depth (nodes, (level, i) :: rest)
      = if node.named then
          (Walk.keep nodes node (some i), (depth, nodes.size) :: (level, i) :: rest)
        else (nodes, (level, i) :: rest) := by
  have hroot : (depth == 0) = false := by simpa using Int.ne_of_gt hdepth
  rw [meet, settle_of_lt nodes i rest hlevel, hroot, Bool.or_false]
  rfl

/-- **A forest adds its arena**: after the nodes of a forest below an open node are
    met, and those that ended closed, the nodes are the ones that were there
    with the forest grafted on, and the same nodes are open. -/
theorem settle_process (forest : Forest) {depth level : Int} {nodes : Array Node} {i : Nat}
    (rest : List (Int × Nat)) (hlevel : level < depth) (hdepth : 0 < depth)
    (hi : i < nodes.size) :
    (process depth forest (nodes, (level, i) :: rest)).settle depth
      = (graft nodes i forest, (level, i) :: rest) := by
  -- the invariant is about the state closed down to `depth`, not the state as it is
  induction forest generalizing depth level nodes i rest with
  | nil =>
      rw [process, settle_of_lt nodes i rest hlevel, graft_nil]
  | cons node below after ihBelow ihAfter =>
      have hdeeper : 0 < depth + 1 := by omega
      have hdepths : depth ≤ depth + 1 := by omega
      rw [process, ← settle_process_settle, meet_of_lt node nodes i rest hlevel hdepth]
      by_cases hnamed : node.named
      · -- what is below is grafted onto the new node, which is then closed
        have hsize : (Walk.keep nodes node (some i)).size = nodes.size + 1 := by
          simp [Walk.keep, Walk.addChild]
        have hnew := ihBelow ((level, i) :: rest) (Int.lt_succ depth) hdeeper
          (show nodes.size < (Walk.keep nodes node (some i)).size by omega)
        have hclosed : settle depth (process (depth + 1) below
              (Walk.keep nodes node (some i), (depth, nodes.size) :: (level, i) :: rest))
            = (Walk.setEnd (graft (Walk.keep nodes node (some i)) nodes.size below) nodes.size,
              (level, i) :: rest) := by
          rw [← settle_settle hdepths, hnew, settle_of_le _ _ _ (Int.le_refl depth),
            settle_of_lt _ i rest hlevel]
        have hgrown : i < (Walk.setEnd
            (graft (Walk.keep nodes node (some i)) nodes.size below) nodes.size).size := by
          rw [Walk.setEnd, Array.size_modify, size_graft, hsize]
          omega
        rw [if_pos hnamed, hclosed, ihAfter rest hlevel hdepth hgrown,
          graft_keep below after hi hnamed]
      · -- what is below is grafted onto the same node as the rest
        have hsame := ihBelow rest (Int.lt_trans hlevel (Int.lt_succ depth)) hdeeper hi
        have hclosed : settle depth (process (depth + 1) below (nodes, (level, i) :: rest))
            = (graft nodes i below, (level, i) :: rest) := by
          rw [← settle_settle hdepths, hsame, settle_of_lt _ i rest hlevel]
        have hgrown : i < (graft nodes i below).size := by
          rw [size_graft]
          omega
        rw [if_neg hnamed, hclosed, ihAfter rest hlevel hdepth hgrown,
          graft_graft below after hi hnamed]

end Ledger

/-- The walk over a tree builds its arena. -/
theorem ParseTree.toList_nodes (tree : ParseTree) : tree.nodes.toList = tree.arena := by
  have hroot : Ledger.meet tree.root 0 (#[], [])
      = (#[Walk.fresh tree.root none], [((0 : Int), 0)]) := by
    simp [Ledger.meet, Ledger.settle, Walk.close, Walk.keep]
  have hbelow := Ledger.settle_process tree.below [] Int.zero_lt_one Int.zero_lt_one
    (show 0 < #[Walk.fresh tree.root none].size from Nat.zero_lt_one)
  rw [ParseTree.nodes_eq_finish, Ledger.process, Ledger.process, hroot, Int.zero_add,
    ← Ledger.finish_settle 1, hbelow]
  simp [Ledger.finish, Walk.setEnd, ParseTree.arena, Ledger.adopt, Walk.fresh]

/-! ## The loop ends, and its depth is never negative -/

namespace Cursor

/-- One move of a cursor, with what it does to the depth. -/
inductive Move : Cursor × Int → Cursor × Int → Prop where
  | down {c child : Cursor} {depth : Int} :
      c.firstChild? = some child → Move (c, depth) (child, depth + 1)
  | across {c next : Cursor} {depth : Int} :
      c.nextSibling? = some next → Move (c, depth) (next, depth)
  | up {c parent : Cursor} {depth : Int} :
      c.parent? = some parent → Move (c, depth) (parent, depth - 1)

/-- A move keeps the depth equal to the number of ancestors. -/
theorem Move.depth_eq {s t : Cursor × Int} (h : Move s t) (hdepth : s.2 = s.1.path.length) :
    t.2 = t.1.path.length := by
  cases h with
  | @down c child depth hchild =>
      rw [firstChild?] at hchild
      split at hchild
      · cases hchild
      · obtain rfl := Option.some.inj hchild
        have hlength : depth = (c.path.length : Int) := hdepth
        show depth + 1 = ((c.path.length + 1 : Nat) : Int)
        omega
  | across hnext =>
      rw [nextSibling?] at hnext
      split at hnext
      · cases hnext
      · obtain rfl := Option.some.inj hnext
        exact hdepth
  | @up c parent depth hparent =>
      rw [parent?] at hparent
      split at hparent
      · cases hparent
      · next crumb path hpath =>
          obtain rfl := Option.some.inj hparent
          have hlength : depth = ((path.length + 1 : Nat) : Int) := by
            rw [show depth = (c.path.length : Int) from hdepth, hpath]
            rfl
          show depth - 1 = (path.length : Int)
          omega

/-- Wherever a cursor goes from the root, the depth is the number of ancestors. -/
theorem depth_eq_of_moves {tree : ParseTree} {c : Cursor} {depth : Int}
    (h : Relation.ReflTransGen Move (tree.walk, 0) (c, depth)) : depth = c.path.length := by
  have hall : ∀ state, Relation.ReflTransGen Move (tree.walk, 0) state →
      state.2 = state.1.path.length := by
    intro state hstate
    induction hstate with
    | refl => rfl
    | tail _ hmove ih => exact hmove.depth_eq ih
  exact hall (c, depth) h

/-- Climbing is made of moves. -/
theorem moves_climb? {c next : Cursor} {depth depth' : Int}
    (h : c.climb? depth = some (next, depth')) :
    Relation.ReflTransGen Move (c, depth) (next, depth') := by
  fun_induction climb? c depth with
  | case1 c depth sibling hs =>
      obtain ⟨rfl, rfl⟩ := Prod.mk.inj (Option.some.inj h)
      exact .single (.across hs)
  | case2 c depth _ up hp ih => exact .head (.up hp) (ih h)
  | case3 => cases h

theorem moves_advance? {c next : Cursor} {depth depth' : Int}
    (h : c.advance? depth = some (next, depth')) :
    Relation.ReflTransGen Move (c, depth) (next, depth') := by
  rw [advance?] at h
  split at h
  · next child hc =>
      obtain ⟨rfl, rfl⟩ := Prod.mk.inj (Option.some.inj h)
      exact .single (.down hc)
  · exact moves_climb? h

/-- A walk has nowhere to go only if no node is ahead. -/
theorem pending_of_enter?_eq_none {forest : Forest} {path : List Crumb} {depth : Int}
    (h : enter? forest path depth = none) : forest.size + pendingAbove path = 0 := by
  induction path generalizing forest depth with
  | nil =>
      cases forest with
      | nil => rfl
      | cons => cases h
  | cons crumb path ih =>
      cases forest with
      | nil =>
          -- nothing is left at this depth, so the walk would go on one higher
          have hup : enter? crumb.after path (depth - 1) = none := by
            rw [← climb?_eq_enter? crumb.node crumb.below]
            exact h
          have hzero := ih hup
          simp only [Forest.size, pendingAbove]
          omega
      | cons => cases h

theorem pending_of_advance?_eq_none {c : Cursor} {depth : Int}
    (h : c.advance? depth = none) : c.pending = 0 := by
  rw [advance?_eq_enter?] at h
  exact pending_of_enter?_eq_none h

end Cursor

namespace Walk

/-- A walk before its first node. -/
def start (tree : ParseTree) : Walk := ⟨tree.walk, 0, #[], []⟩

/-- One round of the loop: meets a node and advances; none if that was the last. -/
def round? (w : Walk) : Option Walk :=
  (w.cursor.advance? w.depth).map fun next =>
    { w.visit with cursor := next.1, depth := next.2 }

/-- A number of rounds; none if the loop ends before. -/
def rounds : Nat → Walk → Option Walk
  | 0, w => some w
  | n + 1, w => w.round?.bind (rounds n)

/-- The loop makes as many rounds as there are nodes ahead, and then ends. -/
theorem exists_last_round (w : Walk) :
    ∃ last, rounds w.cursor.pending w = some last ∧ last.round? = none ∧
      w.run = last.visit.finish := by
  -- each round uses up one of the nodes ahead
  obtain ⟨n, hn⟩ : ∃ n, n = w.cursor.pending := ⟨_, rfl⟩
  rw [← hn]
  induction n generalizing w with
  | zero =>
      have hend : w.cursor.advance? w.depth = none := by
        cases hnext : w.cursor.advance? w.depth with
        | none => rfl
        | some next =>
            have hone := Cursor.pending_advance hnext
            omega
      refine ⟨w, rfl, by rw [round?, hend]; rfl, ?_⟩
      rw [run]
      split
      · next hnext => cases hend.symm.trans hnext
      · rfl
  | succ n ih =>
      cases hnext : w.cursor.advance? w.depth with
      | none =>
          have hzero := Cursor.pending_of_advance?_eq_none hnext
          omega
      | some next =>
          have hone := Cursor.pending_advance hnext
          obtain ⟨last, hrounds, hlast, hrun⟩ :=
            ih { w.visit with cursor := next.1, depth := next.2 } (by
              show n = next.1.pending
              omega)
          refine ⟨last, ?_, hlast, ?_⟩
          · rw [rounds, round?, hnext]
            exact hrounds
          · rw [← hrun, run]
            split
            · next cursor depth heq =>
                obtain rfl := Option.some.inj (hnext.symm.trans heq)
                rfl
            · next heq => cases hnext.symm.trans heq

/-- The loop goes where the moves of its cursor go. -/
theorem moves_rounds {n : Nat} {w w' : Walk} (h : rounds n w = some w') :
    Relation.ReflTransGen Cursor.Move (w.cursor, w.depth) (w'.cursor, w'.depth) := by
  induction n generalizing w with
  | zero =>
      obtain rfl := Option.some.inj h
      exact .refl
  | succ n ih =>
      obtain ⟨mid, hmid, hrest⟩ := Option.bind_eq_some_iff.mp h
      obtain ⟨next, hnext, rfl⟩ := Option.map_eq_some_iff.mp hmid
      exact (Cursor.moves_advance? hnext).trans (ih hrest)

end Walk

/-- **Flattening is faithful.**  The loop over the cursor ends after one round for
    each node below the root, and the depth it counts is nowhere negative.  The
    nodes it leaves are the arena of the tree: the root and then the named nodes
    in pre-order with their own data, each with the number of the nearest kept
    node above it, the numbers of the nearest kept nodes below it in order, and
    the number after the last kept node below it.  There are no more of them
    than the tree has nodes, so numbers fit where the tree's size does. -/
theorem nodes_are_the_arena (tree : ParseTree) :
    (∃ last, Walk.rounds tree.below.size (Walk.start tree) = some last ∧ last.round? = none ∧
      tree.nodes = last.visit.finish) ∧
    (∀ n w, Walk.rounds n (Walk.start tree) = some w →
      Relation.ReflTransGen Cursor.Move (tree.walk, 0) (w.cursor, w.depth)) ∧
    (∀ c depth, Relation.ReflTransGen Cursor.Move (tree.walk, 0) (c, depth) → 0 ≤ depth) ∧
    tree.nodes.toList = tree.arena ∧
    tree.nodes.toList.map Node.data
      = (tree.root :: tree.below.preorder.filter (·.named)).map EngineNode.data ∧
    tree.nodes.size ≤ tree.below.size + 1 := by
  refine ⟨?_, ?_, ?_, tree.toList_nodes, ?_, ?_⟩
  · have hpending : (Walk.start tree).cursor.pending = tree.below.size := rfl
    rw [← hpending]
    exact Walk.exists_last_round (Walk.start tree)
  · intro n w hw
    exact Walk.moves_rounds hw
  · intro c depth hmoves
    rw [Cursor.depth_eq_of_moves hmoves]
    exact Int.natCast_nonneg _
  · rw [tree.toList_nodes]
    exact tree.map_data_arena
  · have hsize : tree.nodes.size = tree.below.kept + 1 := by
      rw [← Array.length_toList, tree.toList_nodes]
      simp [ParseTree.arena]
    have hkept := tree.below.kept_le_size
    omega

end CodeBlocks
