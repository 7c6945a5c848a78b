import Mathlib.Data.List.AList
import Trace4J.Library.BucketSet
import Trace4J.Library.Run
import Trace4J.Profiler.ContextTreeShape

/-!
# The context tree in memory

`ContextTree::addContext` on objects behind pointers: the children of a context are a hash
set of pointers, the probe is an object of its own that is freed when the context is there,
and `_context_map` finds a context by its id. The tree is a trie over the keys of the
frames, and it is the tree of `ContextTree` once a pointer is read as the id behind it.
-/

namespace Trace4J.Profiler
open Library

abbrev CtxtPtr := ℕ

/-- A frame with what its key leaves out. -/
structure SourceFrame extends ContextFrame where
  methodName : List Char := []
  sourceFile : List Char := []
  srcLineno : ℤ := 0

structure ContextObj where
  id : UInt32
  frame : SourceFrame := {}
  children : List CtxtPtr := []
  parent : Option CtxtPtr := none

def SourceFrame.key (f : SourceFrame) : ContextFrame := f.toContextFrame
def ContextObj.key (o : ContextObj) : ContextFrame := o.frame.key

structure ContextHeap where
  heap : CtxtPtr → Option ContextObj
  contextMap : AList fun _ : UInt32 => CtxtPtr
  root : CtxtPtr
  idCounter : UInt32

inductive ContextFault
  | assertion
  | dangling

namespace ContextHeap

def new (root : CtxtPtr) : ContextHeap where
  heap := Function.update (fun _ => none) root (some { id := 0 })
  contextMap := AList.insert 0 root ∅
  root := root
  idCounter := 1

def contextRefHash (h : ContextHeap) (ctxt : CtxtPtr) : Option ℤ :=
  (h.heap ctxt).map fun o => o.key.bci

def contextPtrEqual (h : ContextHeap) (a b : CtxtPtr) : Bool :=
  match h.heap a, h.heap b with
  | some x, some y => contextRefEqual x.key y.key
  | _, _ => false

def findChild (h : ContextHeap) (parent : ContextObj) (ctxt : CtxtPtr) : Option CtxtPtr :=
  bucketFind h.contextRefHash h.contextPtrEqual parent.children ctxt

def modify (h : ContextHeap) (p : CtxtPtr) (f : ContextObj → ContextObj) : ContextHeap :=
  { h with heap := Function.update h.heap p ((h.heap p).map f) }

def addChild (h : ContextHeap) (parent ctxt : CtxtPtr) : ContextHeap :=
  (h.modify parent fun o => { o with
    children := bucketInsert h.contextRefHash h.contextPtrEqual o.children ctxt }).modify ctxt
      fun o => { o with parent := some parent }

def alloc (h : ContextHeap) (newCtxt : CtxtPtr) (frame : SourceFrame) : ContextHeap :=
  { h with heap := Function.update h.heap newCtxt (some { id := h.idCounter, frame := frame }) }

/-- `addContext(Context *, frame)`; `newCtxt` is what `new` has returned. -/
def addContextAt (h : ContextHeap) (parent : CtxtPtr) (frame : SourceFrame)
    (newCtxt : CtxtPtr) : Except ContextFault (ContextHeap × CtxtPtr) :=
  let h' := h.alloc newCtxt frame
  match h'.heap parent with
  | none => .error .dangling
  | some o =>
    match h'.findChild o newCtxt with
    | some child => .ok ({ h' with heap := Function.update h'.heap newCtxt none }, child)
    | none => .ok ({ h'.addChild parent newCtxt with
        contextMap := h.contextMap.insert h.idCounter newCtxt
        idCounter := h.idCounter + 1 }, newCtxt)

/-- `addContext(uint32_t, frame)` -/
def addContext (h : ContextHeap) (parentId : UInt32) (frame : SourceFrame)
    (newCtxt : CtxtPtr) : Except ContextFault (ContextHeap × CtxtPtr) :=
  match h.contextMap.lookup parentId with
  | none => .error .assertion
  | some parent => h.addContextAt parent frame newCtxt

end ContextHeap

inductive AddCall
  | byId (parentId : UInt32) (frame : SourceFrame) (newCtxt : CtxtPtr)
  | byPtr (parent : CtxtPtr) (frame : SourceFrame) (newCtxt : CtxtPtr)

def AddCall.newCtxt : AddCall → CtxtPtr
  | .byId _ _ newCtxt => newCtxt
  | .byPtr _ _ newCtxt => newCtxt

def AddCall.frame : AddCall → SourceFrame
  | .byId _ frame _ => frame
  | .byPtr _ frame _ => frame

def AddCall.parent (h : ContextHeap) : AddCall → Option CtxtPtr
  | .byId parentId _ _ => h.contextMap.lookup parentId
  | .byPtr parent _ _ => some parent

def AddCall.exec (h : ContextHeap) : AddCall → Except ContextFault (ContextHeap × CtxtPtr)
  | .byId parentId frame newCtxt => h.addContext parentId frame newCtxt
  | .byPtr parent frame newCtxt => h.addContextAt parent frame newCtxt

def addStep (c : AddCall) (h : ContextHeap) : Except ContextFault ContextHeap :=
  (c.exec h).map Prod.fst

/-- The parent is a node of the tree, `new` returns memory that is not in use, and fewer
than 2^32 nodes result. -/
structure AddCall.Valid (c : AddCall) (h : ContextHeap) : Prop where
  known : ∃ p o, c.parent h = some p ∧ h.heap p = some o
  fresh : h.heap c.newCtxt = none
  fits : ∀ h' x, c.exec h = .ok (h', x) → h'.contextMap.entries.length < 2 ^ 32

namespace ContextHeap

structure Trie (h : ContextHeap) : Prop where
  rootNode : ∃ o, h.heap h.root = some o ∧ o.parent = none ∧ o.id = 0
  below : ∀ p o, h.heap p = some o → o.id.toNat < h.idCounter.toNat
  mapped : ∀ id p, h.contextMap.lookup id = some p ↔ ∃ o, h.heap p = some o ∧ o.id = id
  counted : h.contextMap.entries.length = h.idCounter.toNat
  parent : ∀ p o, h.heap p = some o → p ≠ h.root →
    ∃ q oq, o.parent = some q ∧ h.heap q = some oq ∧ oq.id < o.id ∧ p ∈ oq.children
  child : ∀ q oq, h.heap q = some oq → ∀ c ∈ oq.children,
    ∃ oc, h.heap c = some oc ∧ oc.parent = some q
  nodup : ∀ q oq, h.heap q = some oq → oq.children.Nodup
  keys : ∀ q oq, h.heap q = some oq → ∀ c ∈ oq.children, ∀ d ∈ oq.children, ∀ oc od,
    h.heap c = some oc → h.heap d = some od → oc.key = od.key → c = d

variable {h h' h₁ h₂ h₃ : ContextHeap} {p q c parent newCtxt x y : CtxtPtr}
variable {o oq : ContextObj} {frame : SourceFrame}

theorem Trie.ptr_eq (hT : h.Trie) {o o' : ContextObj} (hp : h.heap p = some o)
    (hq : h.heap q = some o') (hid : o.id = o'.id) : p = q := by
  have hlp := (hT.mapped o.id p).mpr ⟨o, hp, rfl⟩
  have hlq := (hT.mapped o.id q).mpr ⟨o', hq, hid.symm⟩
  exact Option.some.inj (hlp.symm.trans hlq)

/-! ## One call -/

def grow (h : ContextHeap) (parent newCtxt : CtxtPtr) (frame : SourceFrame) : ContextHeap where
  heap n :=
    if n = newCtxt then some { id := h.idCounter, frame := frame, parent := some parent }
    else if n = parent then
      (h.heap parent).map fun o => { o with children := o.children ++ [newCtxt] }
    else h.heap n
  contextMap := h.contextMap.insert h.idCounter newCtxt
  root := h.root
  idCounter := h.idCounter + 1

theorem alloc_free (hfree : h.heap newCtxt = none) :
    { h.alloc newCtxt frame with
      heap := Function.update (h.alloc newCtxt frame).heap newCtxt none } = h := by
  simp only [alloc, Function.update_idem, ← hfree, Function.update_eq_self]

theorem alloc_heap_of_ne (hne : p ≠ newCtxt) : (h.alloc newCtxt frame).heap p = h.heap p :=
  Function.update_of_ne hne _ _

theorem findChild_eq (hT : h.Trie) (hp : h.heap parent = some o) (hfree : h.heap newCtxt = none) :
    (h.alloc newCtxt frame).findChild o newCtxt =
      o.children.find? fun c => (h.alloc newCtxt frame).contextPtrEqual c newCtxt := by
  apply bucketFind_eq_find
  intro c hc heq
  obtain ⟨oc, hoc, -⟩ := hT.child parent o hp c hc
  have hne : c ≠ newCtxt := by
    rintro rfl
    cases hoc.symm.trans hfree
  have hnew : (h.alloc newCtxt frame).heap newCtxt =
      some { id := h.idCounter, frame := frame } := Function.update_self _ _ _
  simp only [contextPtrEqual, alloc_heap_of_ne hne, hoc, hnew, contextRefEqual_iff] at heq
  simp only [contextRefHash, alloc_heap_of_ne hne, hoc, hnew, Option.map_some, heq]

theorem equal_new (hne : c ≠ newCtxt) (hc : h.heap c = some o) :
    (h.alloc newCtxt frame).contextPtrEqual c newCtxt = true ↔ o.key = frame.key := by
  have hnew : (h.alloc newCtxt frame).heap newCtxt =
      some { id := h.idCounter, frame := frame } := Function.update_self _ _ _
  simp only [contextPtrEqual, alloc_heap_of_ne hne, hc, hnew, contextRefEqual_iff]
  rfl

theorem addChild_eq_grow (hne : parent ≠ newCtxt) (hp : h.heap parent = some o)
    (hfind : (h.alloc newCtxt frame).findChild o newCtxt = none) :
    { (h.alloc newCtxt frame).addChild parent newCtxt with
      contextMap := h.contextMap.insert h.idCounter newCtxt
      idCounter := h.idCounter + 1 } = h.grow parent newCtxt frame := by
  have hins : bucketInsert (h.alloc newCtxt frame).contextRefHash
      (h.alloc newCtxt frame).contextPtrEqual o.children newCtxt = o.children ++ [newCtxt] :=
    bucketInsert_of_find hfind
  simp only [grow, addChild, modify, ContextHeap.mk.injEq, and_true, true_and]
  refine ⟨?_, rfl⟩
  funext n
  by_cases hn : n = newCtxt
  · subst hn
    simp [alloc, Function.update, hne.symm]
  · by_cases hnp : n = parent
    · subst hnp
      simp only [Function.update_of_ne hn, Function.update_self, alloc_heap_of_ne hne, hp,
        Option.map_some, hins, if_neg hn, if_true]
    · simp only [Function.update_of_ne hn, Function.update_of_ne hnp, alloc_heap_of_ne hn,
        if_neg hn, if_neg hnp]

theorem addContextAt_cases (hT : h.Trie) (hp : h.heap parent = some o)
    (hfree : h.heap newCtxt = none) (frame : SourceFrame) :
    (∃ c ∈ o.children, ∃ oc, h.heap c = some oc ∧ oc.key = frame.key ∧
      h.addContextAt parent frame newCtxt = .ok (h, c)) ∨
    ((∀ c ∈ o.children, ∀ oc, h.heap c = some oc → oc.key ≠ frame.key) ∧
      h.addContextAt parent frame newCtxt = .ok (h.grow parent newCtxt frame, newCtxt)) := by
  have hne : parent ≠ newCtxt := by
    rintro rfl
    cases hp.symm.trans hfree
  have hchild : ∀ c ∈ o.children, c ≠ newCtxt ∧ ∃ oc, h.heap c = some oc := by
    intro c hc
    obtain ⟨oc, hoc, -⟩ := hT.child parent o hp c hc
    refine ⟨?_, oc, hoc⟩
    rintro rfl
    cases hoc.symm.trans hfree
  have hparent : (h.alloc newCtxt frame).heap parent = some o := by
    rw [alloc_heap_of_ne hne, hp]
  have hfind : (h.alloc newCtxt frame).findChild o newCtxt =
      o.children.find? fun c => (h.alloc newCtxt frame).contextPtrEqual c newCtxt :=
    findChild_eq hT hp hfree
  cases hf : o.children.find? fun c => (h.alloc newCtxt frame).contextPtrEqual c newCtxt with
  | some c =>
    left
    have hc := List.mem_of_find?_eq_some hf
    obtain ⟨hcne, oc, hoc⟩ := hchild c hc
    have hequal : (h.alloc newCtxt frame).contextPtrEqual c newCtxt = true := by
      simpa using List.find?_some hf
    have hkey := (equal_new hcne hoc).mp hequal
    refine ⟨c, hc, oc, hoc, hkey, ?_⟩
    simp only [addContextAt, hparent, hfind, hf, alloc_free hfree]
  | none =>
    right
    constructor
    · intro c hc oc hoc hkey
      have hno := List.find?_eq_none.mp hf c hc
      exact hno ((equal_new (hchild c hc).1 hoc).mpr hkey)
    · simp only [addContextAt, hparent, hfind, hf]
      rw [addChild_eq_grow hne hp (hfind.trans hf)]

/-! ## A new node -/

theorem grow_new : (h.grow parent newCtxt frame).heap newCtxt =
    some { id := h.idCounter, frame := frame, parent := some parent } := if_pos rfl

theorem grow_parent (hne : parent ≠ newCtxt) (hp : h.heap parent = some o) :
    (h.grow parent newCtxt frame).heap parent =
      some { o with children := o.children ++ [newCtxt] } := by
  simp [grow, hne, hp]

theorem grow_other (hn : p ≠ newCtxt) (hp : p ≠ parent) :
    (h.grow parent newCtxt frame).heap p = h.heap p := by
  simp [grow, hn, hp]

theorem grow_old (hne : p ≠ newCtxt) (hp : h.heap p = some o) :
    (h.grow parent newCtxt frame).heap p = some { o with
      children := if p = parent then o.children ++ [newCtxt] else o.children } := by
  by_cases hpp : p = parent
  · subst hpp
    simp [grow_parent hne hp]
  · simp [grow_other hne hpp, hp, hpp]

theorem grow_cases {o' : ContextObj} (hfree : h.heap newCtxt = none)
    (ho : (h.grow parent newCtxt frame).heap p = some o') :
    (p = newCtxt ∧ o' = { id := h.idCounter, frame := frame, parent := some parent }) ∨
    (p ≠ newCtxt ∧ ∃ o, h.heap p = some o ∧ o' = { o with
      children := if p = parent then o.children ++ [newCtxt] else o.children }) := by
  by_cases hn : p = newCtxt
  · subst hn
    rw [grow_new] at ho
    exact .inl ⟨rfl, (Option.some.inj ho).symm⟩
  · right
    refine ⟨hn, ?_⟩
    cases hp : h.heap p with
    | none =>
      by_cases hpp : p = parent
      · subst hpp
        simp [grow, hn, hp] at ho
      · rw [grow_other hn hpp, hp] at ho
        cases ho
    | some o =>
      rw [grow_old hn hp] at ho
      exact ⟨o, rfl, (Option.some.inj ho).symm⟩

theorem Trie.map_insert (hT : h.Trie) (hfree : h.heap newCtxt = none) (id : UInt32) :
    (h.contextMap.insert h.idCounter newCtxt).lookup id = some p ↔
      (id = h.idCounter ∧ p = newCtxt) ∨ ∃ o, h.heap p = some o ∧ o.id = id := by
  by_cases hid : id = h.idCounter
  · subst hid
    rw [AList.lookup_insert, Option.some.injEq]
    constructor
    · rintro rfl
      exact .inl ⟨rfl, rfl⟩
    · rintro (⟨-, rfl⟩ | ⟨o, ho, hid⟩)
      · rfl
      · have hlt := hT.below p o ho
        rw [hid] at hlt
        exact absurd hlt (lt_irrefl _)
  · rw [AList.lookup_insert_ne hid, hT.mapped]
    simp [hid]

theorem Trie.counter_notMem (hT : h.Trie) : h.idCounter ∉ h.contextMap := by
  intro hmem
  obtain ⟨p, hp⟩ := Option.isSome_iff_exists.mp (AList.lookup_isSome.mpr hmem)
  obtain ⟨o, ho, hid⟩ := (hT.mapped _ p).mp hp
  have hlt := hT.below p o ho
  rw [hid] at hlt
  exact absurd hlt (lt_irrefl _)

theorem Trie.grow_size (hT : h.Trie) :
    (h.grow parent newCtxt frame).contextMap.entries.length = h.idCounter.toNat + 1 := by
  rw [← hT.counted]
  simp only [grow, AList.entries_insert_of_notMem hT.counter_notMem, List.length_cons]

theorem mem_grownChildren {l : List CtxtPtr} (hc : c ∈ if q = parent then l ++ [newCtxt] else l) :
    c ∈ l ∨ (q = parent ∧ c = newCtxt) := by
  split_ifs at hc with hqp
  · simpa [hqp] using hc
  · exact .inl hc

theorem Trie.grow_child (hT : h.Trie) (hfree : h.heap newCtxt = none) {oc : ContextObj}
    (hq : h.heap q = some oq) (hc : c ∈ oq.children)
    (hoc : (h.grow parent newCtxt frame).heap c = some oc) :
    ∃ o₀, h.heap c = some o₀ ∧ o₀.key = oc.key := by
  obtain ⟨o₀, ho₀, -⟩ := hT.child q oq hq c hc
  have hne : c ≠ newCtxt := by
    rintro rfl
    cases ho₀.symm.trans hfree
  rw [grow_old hne ho₀, Option.some.injEq] at hoc
  exact ⟨o₀, ho₀, hoc ▸ rfl⟩

theorem Trie.grow_keys (hT : h.Trie) (hp : h.heap parent = some o) (hfree : h.heap newCtxt = none)
    (hkey : ∀ c ∈ o.children, ∀ oc, h.heap c = some oc → oc.key ≠ frame.key)
    {d : CtxtPtr} {oc od : ContextObj} (hq : h.heap q = some oq)
    (hc : c ∈ oq.children ∨ (q = parent ∧ c = newCtxt))
    (hd : d ∈ oq.children ∨ (q = parent ∧ d = newCtxt))
    (hoc : (h.grow parent newCtxt frame).heap c = some oc)
    (hod : (h.grow parent newCtxt frame).heap d = some od) (hcd : oc.key = od.key) : c = d := by
  have hfresh : ∀ {c : CtxtPtr} {oc od : ContextObj}, q = parent → c ∈ oq.children →
      (h.grow parent newCtxt frame).heap c = some oc →
      (h.grow parent newCtxt frame).heap newCtxt = some od → oc.key ≠ od.key := by
    rintro c oc od rfl hc hoc hod
    obtain rfl := Option.some.inj (hq.symm.trans hp)
    obtain ⟨o₀, ho₀, hk⟩ := hT.grow_child hfree hq hc hoc
    rw [grow_new, Option.some.injEq] at hod
    rw [← hk, ← hod]
    exact hkey c hc o₀ ho₀
  obtain hcq | ⟨hqp, rfl⟩ := hc
  · obtain hdq | ⟨hqp, rfl⟩ := hd
    · obtain ⟨c₀, hc₀, hkc⟩ := hT.grow_child hfree hq hcq hoc
      obtain ⟨d₀, hd₀, hkd⟩ := hT.grow_child hfree hq hdq hod
      exact hT.keys q oq hq c hcq d hdq c₀ d₀ hc₀ hd₀ (hkc.trans (hcd.trans hkd.symm))
    · exact absurd hcd (hfresh hqp hcq hoc hod)
  · obtain hdq | ⟨-, rfl⟩ := hd
    · exact absurd hcd.symm (hfresh hqp hdq hod hoc)
    · rfl

theorem Trie.grow (hT : h.Trie) (hp : h.heap parent = some o) (hfree : h.heap newCtxt = none)
    (hkey : ∀ c ∈ o.children, ∀ oc, h.heap c = some oc → oc.key ≠ frame.key)
    (hsize : (h.grow parent newCtxt frame).contextMap.entries.length < 2 ^ 32) :
    (h.grow parent newCtxt frame).Trie := by
  have hne : ∀ {n : CtxtPtr} {on : ContextObj}, h.heap n = some on → n ≠ newCtxt := by
    rintro n on hn rfl
    cases hn.symm.trans hfree
  rw [hT.grow_size] at hsize
  have hcount : (h.grow parent newCtxt frame).idCounter.toNat = h.idCounter.toNat + 1 := by
    change (h.idCounter + 1).toNat = _
    rw [UInt32.toNat_add]
    exact Nat.mod_eq_of_lt hsize
  have hold := @grow_old h
  refine ⟨?_, ?_, ?_, ?_, ?_, ?_, ?_, ?_⟩
  · obtain ⟨r, hr, hpar, hid⟩ := hT.rootNode
    exact ⟨_, hold (hne hr) hr, hpar, hid⟩
  · intro p o' ho'
    rw [hcount]
    obtain ⟨-, rfl⟩ | ⟨-, o, ho, rfl⟩ := grow_cases hfree ho'
    · exact Nat.lt_succ_self _
    · exact (hT.below p o ho).trans (Nat.lt_succ_self _)
  · intro id p
    change (h.contextMap.insert h.idCounter newCtxt).lookup id = some p ↔ _
    rw [hT.map_insert hfree]
    constructor
    · rintro (⟨rfl, rfl⟩ | ⟨o, ho, hid⟩)
      · exact ⟨_, grow_new, rfl⟩
      · exact ⟨_, hold (hne ho) ho, hid⟩
    · rintro ⟨o', ho', hid⟩
      obtain ⟨rfl, rfl⟩ | ⟨-, o, ho, rfl⟩ := grow_cases hfree ho'
      · exact .inl ⟨hid.symm, rfl⟩
      · exact .inr ⟨o, ho, hid⟩
  · rw [hT.grow_size, hcount]
  · intro p o' ho' hroot
    obtain ⟨rfl, rfl⟩ | ⟨-, op, hop, rfl⟩ := grow_cases hfree ho'
    · refine ⟨parent, _, rfl, hold (hne hp) hp, ?_, by simp⟩
      exact UInt32.lt_iff_toNat_lt.mpr (hT.below parent o hp)
    · obtain ⟨q, oq, hpar, hq, hlt, hmem⟩ := hT.parent p op hop hroot
      refine ⟨q, _, hpar, hold (hne hq) hq, hlt, ?_⟩
      dsimp only
      split_ifs
      · exact List.mem_append_left _ hmem
      · exact hmem
  · intro q o' ho' c hc
    obtain ⟨-, rfl⟩ | ⟨-, oq, hq, rfl⟩ := grow_cases hfree ho'
    · cases hc
    · obtain hc | ⟨rfl, rfl⟩ := mem_grownChildren hc
      · obtain ⟨oc, hoc, hpar⟩ := hT.child q oq hq c hc
        exact ⟨_, hold (hne hoc) hoc, hpar⟩
      · exact ⟨_, grow_new, rfl⟩
  · intro q o' ho'
    obtain ⟨-, rfl⟩ | ⟨-, oq, hq, rfl⟩ := grow_cases hfree ho'
    · exact List.nodup_nil
    · dsimp only
      split_ifs
      · refine List.nodup_append.mpr ⟨hT.nodup q oq hq, List.nodup_singleton _, ?_⟩
        rintro c hc d hd rfl
        obtain rfl := List.mem_singleton.mp hd
        obtain ⟨oc, hoc, -⟩ := hT.child q oq hq _ hc
        exact hne hoc rfl
      · exact hT.nodup q oq hq
  · intro q o' ho' c hc d hd oc od hoc hod hcd
    obtain ⟨-, rfl⟩ | ⟨-, oq, hq, rfl⟩ := grow_cases hfree ho'
    · cases hc
    · exact hT.grow_keys hp hfree hkey hq (mem_grownChildren hc) (mem_grownChildren hd) hoc hod hcd

end ContextHeap
end Trace4J.Profiler
