import Mathlib.Data.Nat.Basic
import Mathlib.Tactic.SplitIfs
import Trace4J.Library.SearchTree

/-!
# The splay tree of intervals

`SplayTree` keeps half-open intervals in a binary tree that every operation splays at an
address first. Splaying leaves the order of the nodes alone and splits them: what is left of
the root ends at the address or before, and what is right of it starts after the address.
Insert, lookup and delete read everything else off the root.
-/

namespace Trace4J.Profiler
open Library.SearchTree

structure IntervalNode (C : Type) where
  start : ℕ
  stop : ℕ
  nodeCtxt : C

abbrev IntervalTree (C : Type) := BinaryTree (IntervalNode C)

variable {C : Type}

/-! ## The operations -/

def assembleRoot (ltree rtree : Spine (IntervalNode C)) (root : IntervalNode C)
    (left right : IntervalTree C) : IntervalTree C :=
  .node root (underLeft ltree left) (underRight rtree right)

/-- The loop of `interval_tree_splay`. The head of `ltree` is `ltree_max` and the head of
`rtree` is `rtree_min`, and an empty list is the dummy node. -/
def splayLoop (addr : ℕ) (ltree rtree : Spine (IntervalNode C)) : IntervalTree C → IntervalTree C
  | .nil => .nil
  | .node root left right =>
    if addr < root.start then
      match left with
      | .nil => assembleRoot ltree rtree root .nil right
      | .node y yl yr =>
        if addr < y.start then
          -- rotate right
          match yl with
          | .nil => assembleRoot ltree rtree y .nil (.node root yr right)
          | .node z zl zr =>
            splayLoop addr ltree ((y, .node root yr right) :: rtree) (.node z zl zr)
        else splayLoop addr ltree ((root, right) :: rtree) (.node y yl yr)
    else if root.stop ≤ addr then
      match right with
      | .nil => assembleRoot ltree rtree root left .nil
      | .node y yl yr =>
        if y.stop ≤ addr then
          -- rotate left
          match yr with
          | .nil => assembleRoot ltree rtree y (.node root left yl) .nil
          | .node z zl zr =>
            splayLoop addr ((y, .node root left yl) :: ltree) rtree (.node z zl zr)
        else splayLoop addr ((root, left) :: ltree) rtree (.node y yl yr)
    else assembleRoot ltree rtree root left right

def intervalTreeSplay (root : IntervalTree C) (addr : ℕ) : IntervalTree C :=
  splayLoop addr [] [] root

/-- The node that is found, `*startaddress` and the root. -/
def intervalTreeLookup (root : IntervalTree C) (addr startaddress : ℕ) :
    Option (IntervalNode C) × ℕ × IntervalTree C :=
  match intervalTreeSplay root addr with
  | .nil => (none, startaddress, .nil)
  | .node root left right =>
    if root.start ≤ addr ∧ addr < root.stop then
      (some root, root.start, .node root left right)
    else (none, startaddress, .node root left right)

def endsBefore (node : IntervalNode C) : IntervalTree C → Bool
  | .nil => true
  | .node t _ _ => node.stop ≤ t.start

/-- The value that is returned and the root. Only the empty tree is splayed to one. -/
def intervalTreeInsert (root : IntervalTree C) (node : IntervalNode C) : ℕ × IntervalTree C :=
  if node.stop ≤ node.start then (1, root)
  else
    match intervalTreeSplay root node.start with
    | .nil => (0, .node node .nil .nil)
    | .node root left right =>
      if node.stop ≤ root.start then (0, .node node left (.node root .nil right))
      else
        let t := intervalTreeSplay right root.start
        if root.stop ≤ node.start ∧ endsBefore node t then (0, .node node (.node root left .nil) t)
        else (1, .node root left t)

def combinePieces (ltree rtree : IntervalTree C) (stop : ℕ) : IntervalTree C :=
  match ltree, rtree with
  | .nil, rtree => rtree
  | ltree, .nil => ltree
  | ltree, rtree =>
    match intervalTreeSplay ltree stop with
    | .nil => rtree
    | .node root left _ => .node root left rtree

/-- `ltree` and what is left of the tree. -/
def cutStart (root : IntervalTree C) (start : ℕ) : IntervalTree C × IntervalTree C :=
  match intervalTreeSplay root start with
  | .nil => (.nil, .nil)
  | .node t left right =>
    if t.stop ≤ start then (.node t left .nil, right) else (left, .node t .nil right)

/-- `*del_tree` and `rtree`. -/
def cutStop (t : IntervalTree C) (stop : ℕ) : IntervalTree C × IntervalTree C :=
  match intervalTreeSplay t stop with
  | .nil => (.nil, .nil)
  | .node t left right =>
    if stop ≤ t.start then (left, .node t .nil right) else (.node t left .nil, right)

/-- `*del_tree` and the root. -/
def intervalTreeDelete (root : IntervalTree C) (node : IntervalNode C) :
    IntervalTree C × IntervalTree C :=
  match root with
  | .nil => (.nil, .nil)
  | root =>
    let (ltree, t) := cutStart root node.start
    let (delTree, rtree) := cutStop t node.stop
    (delTree, combinePieces ltree rtree node.stop)

/-! ## Splaying -/

/-- The intervals of a tree are not empty, and each ends before the next one starts. -/
structure Ordered (elems : List (IntervalNode C)) : Prop where
  start_lt : ∀ e ∈ elems, e.start < e.stop
  stop_le : elems.Pairwise fun a b => a.stop ≤ b.start

structure OrderedNode (root : IntervalNode C) (left right : IntervalTree C) : Prop where
  orderedLeft : Ordered (inorder left)
  orderedRight : Ordered (inorder right)
  start_lt : root.start < root.stop
  before : ∀ e ∈ inorder left, e.stop ≤ root.start
  after : ∀ e ∈ inorder right, root.stop ≤ e.start

structure SplitAt (addr : ℕ) (elems : List (IntervalNode C)) (root : IntervalNode C)
    (left right : IntervalTree C) : Prop where
  elems_eq : inorder (.node root left right) = elems
  stop_le : ∀ e ∈ inorder left, e.stop ≤ addr
  lt_start : ∀ e ∈ inorder right, addr < e.start

section Splay
variable {addr : ℕ} {elems : List (IntervalNode C)} {root : IntervalNode C}
  {left right t : IntervalTree C} {ltree rtree : Spine (IntervalNode C)}

theorem Ordered.node (h : Ordered (inorder (.node root left right))) :
    OrderedNode root left right := by
  obtain ⟨hleft, hright, hbefore, hafter, -⟩ := pairwise_node h.stop_le
  have hmem : ∀ e ∈ inorder left ++ root :: inorder right, e.start < e.stop := h.start_lt
  simp only [List.forall_mem_append, List.forall_mem_cons] at hmem
  exact ⟨⟨hmem.1, hleft⟩, ⟨hmem.2.2, hright⟩, hmem.2.1, hbefore, hafter⟩

theorem Ordered.rotateRight {y : IntervalNode C} {yl yr : IntervalTree C}
    (h : Ordered (inorder (.node root (.node y yl yr) right))) :
    Ordered (inorder (.node y yl (.node root yr right))) := by
  rw [inorder_node, inorder_node] at h ⊢
  simpa using h

theorem Ordered.rotateLeft {y : IntervalNode C} {yl yr : IntervalTree C}
    (h : Ordered (inorder (.node root left (.node y yl yr)))) :
    Ordered (inorder (.node y (.node root left yl) yr)) := by
  rw [inorder_node, inorder_node] at h ⊢
  simpa using h

theorem OrderedNode.stop_le (h : OrderedNode root left right) (haddr : root.stop ≤ addr) :
    ∀ e ∈ inorder left, e.stop ≤ addr := by
  intro e he
  have hbefore := h.before e he
  have hlt := h.start_lt
  omega

theorem OrderedNode.lt_start (h : OrderedNode root left right) (haddr : addr < root.start) :
    ∀ e ∈ inorder right, addr < e.start := by
  intro e he
  have hafter := h.after e he
  have hlt := h.start_lt
  omega

theorem OrderedNode.linkLeft (h : OrderedNode root left right) (haddr : root.stop ≤ addr)
    (hl : ∀ e ∈ leftElems ltree, e.stop ≤ addr) :
    ∀ e ∈ leftElems ((root, left) :: ltree), e.stop ≤ addr := by
  rw [leftElems, List.forall_mem_append, List.forall_mem_append, List.forall_mem_singleton]
  exact ⟨hl, h.stop_le haddr, haddr⟩

theorem OrderedNode.linkRight (h : OrderedNode root left right) (haddr : addr < root.start)
    (hr : ∀ e ∈ rightElems rtree, addr < e.start) :
    ∀ e ∈ rightElems ((root, right) :: rtree), addr < e.start := by
  rw [rightElems, List.forall_mem_append, List.forall_mem_cons]
  exact ⟨⟨haddr, h.lt_start haddr⟩, hr⟩

theorem SplitAt.assemble (h : SplitAt addr (inorder (.node root left right)) root left right)
    (hl : ∀ e ∈ leftElems ltree, e.stop ≤ addr) (hr : ∀ e ∈ rightElems rtree, addr < e.start) :
    ∃ root' left' right', assembleRoot ltree rtree root left right = .node root' left' right' ∧
      SplitAt addr (leftElems ltree ++ inorder (.node root left right) ++ rightElems rtree) root'
        left' right' := by
  refine ⟨_, _, _, rfl, ?_, ?_, ?_⟩
  · rw [inorder_node, inorder_node, inorder_underLeft, inorder_underRight]
    simp
  · rw [inorder_underLeft, List.forall_mem_append]
    exact ⟨hl, h.stop_le⟩
  · rw [inorder_underRight, List.forall_mem_append]
    exact ⟨h.lt_start, hr⟩

/-- The loop keeps the nodes in order, with those to the left of the search on the left and
those to the right of it on the right. -/
theorem splayLoop_splitAt (hne : t ≠ .nil) (ht : Ordered (inorder t))
    (hl : ∀ e ∈ leftElems ltree, e.stop ≤ addr) (hr : ∀ e ∈ rightElems rtree, addr < e.start) :
    ∃ root left right, splayLoop addr ltree rtree t = .node root left right ∧
      SplitAt addr (leftElems ltree ++ inorder t ++ rightElems rtree) root left right := by
  fun_induction splayLoop addr ltree rtree t with
  | case1 => exact absurd rfl hne
  | case2 ltree rtree root right h =>
    exact SplitAt.assemble ⟨rfl, forall_inorder_nil, ht.node.lt_start h⟩ hl hr
  | case3 ltree rtree root right h y yr hy =>
    have hrotated := ht.rotateRight
    obtain ⟨x, a, b, hroot, hsplit⟩ :=
      SplitAt.assemble ⟨rfl, forall_inorder_nil, hrotated.node.lt_start hy⟩ hl hr
    exact ⟨x, a, b, hroot, by simpa using hsplit⟩
  | case4 ltree rtree root right h y yr hy z zl zr ih =>
    have hrotated := ht.rotateRight
    obtain ⟨x, a, b, hroot, hsplit⟩ :=
      ih nofun hrotated.node.orderedLeft hl (hrotated.node.linkRight hy hr)
    exact ⟨x, a, b, hroot, by simpa [rightElems] using hsplit⟩
  | case5 ltree rtree root right h y yl yr hy ih =>
    obtain ⟨x, a, b, hroot, hsplit⟩ :=
      ih nofun ht.node.orderedLeft hl (ht.node.linkRight h hr)
    exact ⟨x, a, b, hroot, by simpa [rightElems] using hsplit⟩
  | case6 ltree rtree root left h hstop =>
    exact SplitAt.assemble ⟨rfl, ht.node.stop_le hstop, forall_inorder_nil⟩ hl hr
  | case7 ltree rtree root left h hstop y yl hy =>
    have hrotated := ht.rotateLeft
    obtain ⟨x, a, b, hroot, hsplit⟩ :=
      SplitAt.assemble ⟨rfl, hrotated.node.stop_le hy, forall_inorder_nil⟩ hl hr
    exact ⟨x, a, b, hroot, by simpa using hsplit⟩
  | case8 ltree rtree root left h hstop y yl hy z zl zr ih =>
    have hrotated := ht.rotateLeft
    obtain ⟨x, a, b, hroot, hsplit⟩ :=
      ih nofun hrotated.node.orderedRight (hrotated.node.linkLeft hy hl) hr
    exact ⟨x, a, b, hroot, by simpa [leftElems] using hsplit⟩
  | case9 ltree rtree root left h hstop y yl yr hy ih =>
    obtain ⟨x, a, b, hroot, hsplit⟩ :=
      ih nofun ht.node.orderedRight (ht.node.linkLeft hstop hl) hr
    exact ⟨x, a, b, hroot, by simpa [leftElems] using hsplit⟩
  | case10 ltree rtree root left right h hstop =>
    have hnode := ht.node
    apply SplitAt.assemble ⟨rfl, ?_, ?_⟩ hl hr
    · intro e he
      have hbefore := hnode.before e he
      omega
    · intro e he
      have hafter := hnode.after e he
      omega

theorem intervalTreeSplay_splitAt (hne : t ≠ .nil) (ht : Ordered (inorder t)) (addr : ℕ) :
    ∃ root left right, intervalTreeSplay t addr = .node root left right ∧
      SplitAt addr (inorder t) root left right := by
  have hl : ∀ e ∈ leftElems ([] : Spine (IntervalNode C)), e.stop ≤ addr := nofun
  have hr : ∀ e ∈ rightElems ([] : Spine (IntervalNode C)), addr < e.start := nofun
  obtain ⟨root, left, right, hroot, hsplit⟩ := splayLoop_splitAt hne ht hl hr
  exact ⟨root, left, right, hroot, by simpa [leftElems, rightElems] using hsplit⟩

theorem SplitAt.ordered (h : SplitAt addr elems root left right) (helems : Ordered elems) :
    OrderedNode root left right := by
  rw [← h.elems_eq] at helems
  exact helems.node

theorem intervalTreeSplay_first (ht : Ordered (inorder t)) (hlt : ∀ e ∈ inorder t, addr < e.stop) :
    (t = .nil ∧ intervalTreeSplay t addr = .nil) ∨
      ∃ root right, intervalTreeSplay t addr = .node root .nil right ∧
        inorder t = root :: inorder right := by
  by_cases hne : t = .nil
  · exact .inl ⟨hne, by rw [hne]; rfl⟩
  · right
    obtain ⟨root, left, right, hroot, hsplit⟩ := intervalTreeSplay_splitAt hne ht addr
    have hleft : left = .nil := by
      apply inorder_eq_nil
      rw [List.eq_nil_iff_forall_not_mem]
      intro e he
      have hmem : e ∈ inorder t := by
        rw [← hsplit.elems_eq, inorder_node]
        exact List.mem_append_left _ he
      have hstop := hsplit.stop_le e he
      have hpast := hlt e hmem
      omega
    rw [hleft] at hroot hsplit
    exact ⟨root, right, hroot, hsplit.elems_eq.symm⟩

theorem intervalTreeSplay_last (hne : t ≠ .nil) (ht : Ordered (inorder t))
    (hle : ∀ e ∈ inorder t, e.start ≤ addr) :
    ∃ root left, intervalTreeSplay t addr = .node root left .nil ∧
      inorder t = inorder left ++ [root] := by
  obtain ⟨root, left, right, hroot, hsplit⟩ := intervalTreeSplay_splitAt hne ht addr
  have hright : right = .nil := by
    apply inorder_eq_nil
    rw [List.eq_nil_iff_forall_not_mem]
    intro e he
    have hmem : e ∈ inorder t := by
      rw [← hsplit.elems_eq, inorder_node]
      exact List.mem_append_right _ (List.mem_cons_of_mem _ he)
    have hstart := hsplit.lt_start e he
    have hbefore := hle e hmem
    omega
  rw [hright] at hroot hsplit
  exact ⟨root, left, hroot, hsplit.elems_eq.symm⟩

end Splay

/-! ## What the operations do -/

def Overlap (a b : IntervalNode C) : Prop := a.start < b.stop ∧ b.start < a.stop

instance : DecidableRel (Overlap (C := C)) := fun _ _ => inferInstanceAs (Decidable (_ ∧ _))

structure LookupSpec (root : IntervalTree C) (addr startaddress : ℕ)
    (out : Option (IntervalNode C) × ℕ × IntervalTree C) : Prop where
  found : ∀ e, out.1 = some e ↔ e ∈ inorder root ∧ e.start ≤ addr ∧ addr < e.stop
  startaddress : out.2.1 = (out.1.map IntervalNode.start).getD startaddress
  unchanged : inorder out.2.2 = inorder root

structure InsertSpec (root : IntervalTree C) (node : IntervalNode C)
    (out : ℕ × IntervalTree C) : Prop where
  succeeds : out.1 = 0 ↔ node.start < node.stop ∧ ∀ e ∈ inorder root, ¬Overlap e node
  inserted : out.1 = 0 → ∃ before after, inorder root = before ++ after ∧
    inorder out.2 = before ++ node :: after ∧ (∀ e ∈ before, e.stop ≤ node.start) ∧
    ∀ e ∈ after, node.stop ≤ e.start
  unchanged : out.1 ≠ 0 → inorder out.2 = inorder root

structure DeleteSpec (root : IntervalTree C) (node : IntervalNode C)
    (out : IntervalTree C × IntervalTree C) : Prop where
  deleted : inorder out.1 = (inorder root).filter fun e => Overlap e node
  kept : inorder out.2 = (inorder root).filter fun e => ¬Overlap e node

section Operations
variable {root : IntervalTree C} {node : IntervalNode C} {addr startaddress : ℕ}

theorem intervalTreeLookup_spec (h : Ordered (inorder root)) (addr startaddress : ℕ) :
    LookupSpec root addr startaddress (intervalTreeLookup root addr startaddress) := by
  by_cases hne : root = .nil
  · subst hne
    exact ⟨fun e => by simp [intervalTreeLookup, intervalTreeSplay, splayLoop], rfl, rfl⟩
  · obtain ⟨x, left, right, hroot, hsplit⟩ := intervalTreeSplay_splitAt hne h addr
    have honly : ∀ e ∈ inorder root, e.start ≤ addr → addr < e.stop → e = x := by
      intro e he hstart hstop
      rw [← hsplit.elems_eq, inorder_node, List.mem_append, List.mem_cons] at he
      obtain hleft | heq | hright := he
      · have hle := hsplit.stop_le e hleft
        omega
      · exact heq
      · have hlt := hsplit.lt_start e hright
        omega
    have hx : x ∈ inorder root := by
      rw [← hsplit.elems_eq]
      simp
    unfold intervalTreeLookup
    rw [hroot]
    dsimp only
    split_ifs with hholds
    · refine ⟨?_, rfl, hsplit.elems_eq⟩
      intro e
      constructor
      · intro heq
        cases heq
        exact ⟨hx, hholds⟩
      · intro he
        rw [honly e he.1 he.2.1 he.2.2]
    · refine ⟨?_, rfl, hsplit.elems_eq⟩
      intro e
      constructor
      · nofun
      · intro he
        rw [honly e he.1 he.2.1 he.2.2] at he
        exact absurd he.2 hholds

theorem InsertSpec.of_fits {t : IntervalTree C} {before after : List (IntervalNode C)}
    (hlt : node.start < node.stop) (hroot : inorder root = before ++ after)
    (hbefore : ∀ e ∈ before, e.stop ≤ node.start) (hafter : ∀ e ∈ after, node.stop ≤ e.start)
    (ht : inorder t = before ++ node :: after) : InsertSpec root node (0, t) := by
  refine ⟨iff_of_true rfl ⟨hlt, ?_⟩, fun _ => ⟨before, after, hroot, ht, hbefore, hafter⟩,
    absurd rfl⟩
  intro e he hoverlap
  have hstart := hoverlap.1
  have hstop := hoverlap.2
  rw [hroot, List.mem_append] at he
  obtain hmem | hmem := he
  · have hle := hbefore e hmem
    omega
  · have hle := hafter e hmem
    omega

theorem InsertSpec.of_overlap {t : IntervalTree C} {e : IntervalNode C} (he : e ∈ inorder root)
    (hoverlap : Overlap e node) (ht : inorder t = inorder root) : InsertSpec root node (1, t) := by
  refine ⟨iff_of_false Nat.one_ne_zero ?_, nofun, fun _ => ht⟩
  intro hfree
  exact hfree.2 e he hoverlap

theorem endsBefore_splay {right : IntervalTree C} (hright : Ordered (inorder right))
    (hlt : ∀ e ∈ inorder right, addr < e.stop) (node : IntervalNode C) :
    inorder (intervalTreeSplay right addr) = inorder right ∧
      (endsBefore node (intervalTreeSplay right addr) = true ↔
        ∀ e ∈ inorder right, node.stop ≤ e.start) := by
  obtain ⟨rfl, hnil⟩ | ⟨z, after, hz, helems⟩ := intervalTreeSplay_first hright hlt
  · rw [hnil]
    exact ⟨rfl, iff_of_true rfl nofun⟩
  · rw [hz, helems]
    refine ⟨rfl, ?_⟩
    rw [helems] at hright
    have hbehind := (List.pairwise_cons.mp hright.stop_le).1
    have hzlt := hright.start_lt z List.mem_cons_self
    rw [endsBefore, decide_eq_true_iff, List.forall_mem_cons]
    refine ⟨fun hle => ⟨hle, ?_⟩, fun hle => hle.1⟩
    intro e he
    have hafter := hbehind e he
    omega

theorem intervalTreeInsert_spec (h : Ordered (inorder root)) (node : IntervalNode C) :
    InsertSpec root node (intervalTreeInsert root node) := by
  unfold intervalTreeInsert
  split_ifs with hempty
  · exact ⟨iff_of_false Nat.one_ne_zero fun hfree => absurd hfree.1 (by omega), nofun, fun _ => rfl⟩
  have hlt : node.start < node.stop := not_le.mp hempty
  by_cases hne : root = .nil
  · subst hne
    have hnone : ∀ e ∈ ([] : List (IntervalNode C)), e.stop ≤ node.start := nofun
    have hnone' : ∀ e ∈ ([] : List (IntervalNode C)), node.stop ≤ e.start := nofun
    exact InsertSpec.of_fits hlt rfl hnone hnone' rfl
  · obtain ⟨x, left, right, hroot, hsplit⟩ := intervalTreeSplay_splitAt hne h node.start
    have hnode := hsplit.ordered h
    have hpast : ∀ e ∈ inorder right, x.start < e.stop := by
      intro e he
      have hafter := hnode.after e he
      have hxlt := hnode.start_lt
      have helt := hnode.orderedRight.start_lt e he
      omega
    obtain ⟨hbehind, hfree⟩ := endsBefore_splay hnode.orderedRight hpast node
    rw [hroot]
    dsimp only
    split_ifs with hleft hright
    · -- in front of the root
      refine InsertSpec.of_fits hlt hsplit.elems_eq.symm hsplit.stop_le ?_ rfl
      rw [List.forall_mem_cons]
      refine ⟨hleft, ?_⟩
      intro e he
      have hafter := hnode.after e he
      have hxlt := hnode.start_lt
      omega
    · -- between the root and the first node behind it
      have helems : inorder root = (inorder left ++ [x]) ++
          inorder (intervalTreeSplay right x.start) := by
        rw [hbehind, ← hsplit.elems_eq, inorder_node]
        simp
      refine InsertSpec.of_fits hlt helems ?_ ?_ (by simp)
      · rw [List.forall_mem_append, List.forall_mem_singleton]
        exact ⟨hsplit.stop_le, hright.1⟩
      · rw [hbehind]
        exact hfree.mp hright.2
    · have hunchanged : inorder (.node x left (intervalTreeSplay right x.start)) =
          inorder root := by
        rw [inorder_node, hbehind]
        exact hsplit.elems_eq
      by_cases hover : x.stop ≤ node.start
      · have hsome : ∃ e ∈ inorder right, e.start < node.stop := by
          by_contra hnone
          push Not at hnone
          exact hright ⟨hover, hfree.mpr hnone⟩
        obtain ⟨e, he, hestart⟩ := hsome
        have hmem : e ∈ inorder root := by
          rw [← hsplit.elems_eq, inorder_node]
          exact List.mem_append_right _ (List.mem_cons_of_mem _ he)
        have hbegin := hsplit.lt_start e he
        have helt := h.start_lt e hmem
        exact InsertSpec.of_overlap hmem ⟨hestart, by omega⟩ hunchanged
      · have hx : x ∈ inorder root := by
          rw [← hsplit.elems_eq]
          simp
        exact InsertSpec.of_overlap hx ⟨by omega, by omega⟩ hunchanged

theorem cutStart_spec (h : Ordered (inorder root)) (start : ℕ) :
    ∃ ltree t, cutStart root start = (ltree, t) ∧ inorder ltree ++ inorder t = inorder root ∧
      (∀ e ∈ inorder ltree, e.stop ≤ start) ∧ ∀ e ∈ inorder t, start < e.stop := by
  by_cases hne : root = .nil
  · subst hne
    exact ⟨.nil, .nil, rfl, rfl, nofun, nofun⟩
  · obtain ⟨x, left, right, hroot, hsplit⟩ := intervalTreeSplay_splitAt hne h start
    have hnode := hsplit.ordered h
    have hright : ∀ e ∈ inorder right, start < e.stop := by
      intro e he
      have hlt := hsplit.lt_start e he
      have helt := hnode.orderedRight.start_lt e he
      omega
    rw [cutStart, hroot, ← hsplit.elems_eq]
    dsimp only
    split_ifs with hstop
    · refine ⟨_, _, rfl, by simp, ?_, hright⟩
      rw [inorder_node, inorder_nil, List.forall_mem_append, List.forall_mem_singleton]
      exact ⟨hsplit.stop_le, hstop⟩
    · refine ⟨_, _, rfl, by simp, hsplit.stop_le, ?_⟩
      rw [inorder_node, inorder_nil, List.nil_append, List.forall_mem_cons]
      exact ⟨not_le.mp hstop, hright⟩

theorem cutStop_spec {t : IntervalTree C} (h : Ordered (inorder t)) (stop : ℕ) :
    ∃ delTree rtree, cutStop t stop = (delTree, rtree) ∧
      inorder delTree ++ inorder rtree = inorder t ∧
      (∀ e ∈ inorder delTree, e.start < stop) ∧ ∀ e ∈ inorder rtree, stop ≤ e.start := by
  by_cases hne : t = .nil
  · subst hne
    exact ⟨.nil, .nil, rfl, rfl, nofun, nofun⟩
  · obtain ⟨x, left, right, hroot, hsplit⟩ := intervalTreeSplay_splitAt hne h stop
    have hnode := hsplit.ordered h
    have hleft : ∀ e ∈ inorder left, e.start < stop := by
      intro e he
      have hle := hsplit.stop_le e he
      have helt := hnode.orderedLeft.start_lt e he
      omega
    have hright : ∀ e ∈ inorder right, stop ≤ e.start := fun e he =>
      Nat.le_of_lt (hsplit.lt_start e he)
    rw [cutStop, hroot, ← hsplit.elems_eq]
    dsimp only
    split_ifs with hstart
    · refine ⟨_, _, rfl, by simp, hleft, ?_⟩
      rw [inorder_node, inorder_nil, List.nil_append, List.forall_mem_cons]
      exact ⟨hstart, hright⟩
    · refine ⟨_, _, rfl, by simp, ?_, hright⟩
      rw [inorder_node, inorder_nil, List.forall_mem_append, List.forall_mem_singleton]
      exact ⟨hleft, not_le.mp hstart⟩

theorem inorder_combinePieces {ltree rtree : IntervalTree C} {stop : ℕ}
    (h : Ordered (inorder ltree)) (hle : ∀ e ∈ inorder ltree, e.start ≤ stop) :
    inorder (combinePieces ltree rtree stop) = inorder ltree ++ inorder rtree := by
  unfold combinePieces
  split
  · rfl
  · simp
  · rename_i hltree _
    obtain ⟨x, left, hroot, helems⟩ := intervalTreeSplay_last hltree h hle
    rw [hroot, helems]
    simp

theorem Ordered.of_append {xs ys : List (IntervalNode C)} (h : Ordered (xs ++ ys)) :
    Ordered xs ∧ Ordered ys := by
  have hstart := List.forall_mem_append.mp h.start_lt
  have hstop := List.pairwise_append.mp h.stop_le
  exact ⟨⟨hstart.1, hstop.1⟩, hstart.2, hstop.2.1⟩

theorem intervalTreeDelete_spec (h : Ordered (inorder root)) (hlt : node.start < node.stop) :
    DeleteSpec root node (intervalTreeDelete root node) := by
  by_cases hne : root = .nil
  · subst hne
    exact ⟨rfl, rfl⟩
  · obtain ⟨ltree, t, hstart, hcut, hbefore, hpast⟩ := cutStart_spec h node.start
    rw [← hcut] at h
    obtain ⟨hltree, ht⟩ := h.of_append
    obtain ⟨delTree, rtree, hstop, hcut', hwithin, hbehind⟩ := cutStop_spec ht node.stop
    rw [← hcut', List.forall_mem_append] at hpast
    have hl : ∀ e ∈ inorder ltree, ¬Overlap e node := by
      intro e he hoverlap
      have hle := hbefore e he
      have hafter := hoverlap.2
      omega
    have hdel : ∀ e ∈ inorder delTree, Overlap e node := fun e he =>
      ⟨hwithin e he, hpast.1 e he⟩
    have hr : ∀ e ∈ inorder rtree, ¬Overlap e node := by
      intro e he hoverlap
      have hle := hbehind e he
      have hahead := hoverlap.1
      omega
    have hstarts : ∀ e ∈ inorder ltree, e.start ≤ node.stop := by
      intro e he
      have hle := hbefore e he
      have helt := hltree.start_lt e he
      omega
    have hout : intervalTreeDelete root node =
        (delTree, combinePieces ltree rtree node.stop) := by
      cases root with
      | nil => exact absurd rfl hne
      | node x left right => simp only [intervalTreeDelete, hstart, hstop]
    rw [hout]
    constructor
    · rw [← hcut, ← hcut', List.filter_append, List.filter_append,
        List.filter_eq_nil_iff.mpr (by simpa using hl),
        List.filter_eq_self.mpr (by simpa using hdel),
        List.filter_eq_nil_iff.mpr (by simpa using hr), List.append_nil, List.nil_append]
    · rw [inorder_combinePieces hltree hstarts, ← hcut, ← hcut', List.filter_append,
        List.filter_append, List.filter_eq_self.mpr (by simpa using hl),
        List.filter_eq_nil_iff.mpr (by simpa using hdel),
        List.filter_eq_self.mpr (by simpa using hr), List.nil_append]

end Operations

/-! ## Sequences of calls -/

inductive Call (C : Type)
  | insert (node : IntervalNode C)
  | lookup (addr startaddress : ℕ)
  | delete (node : IntervalNode C)

def Call.Valid : Call C → Prop
  | .delete node => node.start < node.stop
  | _ => True

def Call.root (root : IntervalTree C) : Call C → IntervalTree C
  | .insert node => (intervalTreeInsert root node).2
  | .lookup addr startaddress => (intervalTreeLookup root addr startaddress).2.2
  | .delete node => (intervalTreeDelete root node).2

def rootAfter (calls : List (Call C)) : IntervalTree C := calls.foldl Call.root .nil

section Calls
variable {root : IntervalTree C} {node : IntervalNode C} {call : Call C}

theorem InsertSpec.ordered {out : ℕ × IntervalTree C} (h : InsertSpec root node out)
    (hroot : Ordered (inorder root)) : Ordered (inorder out.2) := by
  by_cases hzero : out.1 = 0
  · obtain ⟨hlt, hfree⟩ := h.succeeds.mp hzero
    obtain ⟨before, after, hsplit, hout, hbefore, hafter⟩ := h.inserted hzero
    rw [hsplit] at hroot
    have hstart := List.forall_mem_append.mp hroot.start_lt
    have hstop := List.pairwise_append.mp hroot.stop_le
    rw [hout]
    constructor
    · rw [List.forall_mem_append, List.forall_mem_cons]
      exact ⟨hstart.1, hlt, hstart.2⟩
    · rw [List.pairwise_append, List.pairwise_cons]
      refine ⟨hstop.1, ⟨hafter, hstop.2.1⟩, ?_⟩
      intro e he
      rw [List.forall_mem_cons]
      exact ⟨hbefore e he, hstop.2.2 e he⟩
  · rw [h.unchanged hzero]
    exact hroot

theorem Call.ordered (hroot : Ordered (inorder root)) (hcall : call.Valid) :
    Ordered (inorder (call.root root)) := by
  cases call with
  | insert node => exact (intervalTreeInsert_spec hroot node).ordered hroot
  | lookup addr startaddress =>
    rw [Call.root, (intervalTreeLookup_spec hroot addr startaddress).unchanged]
    exact hroot
  | delete node =>
    rw [Call.root, (intervalTreeDelete_spec hroot hcall).kept]
    exact ⟨fun e he => hroot.start_lt e (List.mem_filter.mp he).1, hroot.stop_le.filter _⟩

theorem foldl_ordered {calls : List (Call C)} (hroot : Ordered (inorder root))
    (h : ∀ call ∈ calls, call.Valid) : Ordered (inorder (calls.foldl Call.root root)) := by
  induction calls generalizing root with
  | nil => exact hroot
  | cons call calls ih =>
    rw [List.forall_mem_cons] at h
    exact ih (Call.ordered hroot h.1) h.2

/-- After any calls the tree is ordered, and every further call does what it should. -/
theorem intervalTree_calls {calls : List (Call C)} (h : ∀ call ∈ calls, call.Valid) :
    Ordered (inorder (rootAfter calls)) ∧
      (∀ node, InsertSpec (rootAfter calls) node (intervalTreeInsert (rootAfter calls) node)) ∧
      (∀ addr startaddress, LookupSpec (rootAfter calls) addr startaddress
        (intervalTreeLookup (rootAfter calls) addr startaddress)) ∧
      ∀ node, (Call.delete node).Valid →
        DeleteSpec (rootAfter calls) node (intervalTreeDelete (rootAfter calls) node) := by
  have hordered : Ordered (inorder (rootAfter calls)) := foldl_ordered ⟨nofun, .nil⟩ h
  refine ⟨hordered, intervalTreeInsert_spec hordered, intervalTreeLookup_spec hordered, ?_⟩
  intro node hlt
  exact intervalTreeDelete_spec hordered hlt

def someCalls : List (Call Unit) :=
  [.insert ⟨4, 6, ()⟩, .insert ⟨1, 3, ()⟩, .lookup 2 0, .insert ⟨6, 9, ()⟩, .delete ⟨8, 9, ()⟩]

theorem intervalTree_someCalls :
    inorder (rootAfter someCalls) = [⟨1, 3, ()⟩, ⟨4, 6, ()⟩] ∧
      DeleteSpec (rootAfter someCalls) ⟨2, 5, ()⟩
        (intervalTreeDelete (rootAfter someCalls) ⟨2, 5, ()⟩) := by
  have hvalid : ∀ call ∈ someCalls, call.Valid := by
    simp [someCalls, Call.Valid]
  exact ⟨rfl, (intervalTree_calls hvalid).2.2.2 ⟨2, 5, ()⟩ (by decide : 2 < 5)⟩

end Calls
end Trace4J.Profiler
