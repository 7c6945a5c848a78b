import Trace4J.Profiler.ContextHeap

/-!
# The trie over call paths

Calls of `addContext` keep every node with its id, its frame and its parent, so a node
keeps the path of keys that leads to it, and two nodes with one path are one node.
-/

namespace Trace4J.Profiler
open Library

namespace ContextHeap

structure Extends (h h' : ContextHeap) : Prop where
  root : h'.root = h.root
  node : ∀ p o, h.heap p = some o → ∃ o', h'.heap p = some o' ∧ o'.id = o.id ∧
    o'.key = o.key ∧ o'.parent = o.parent ∧ ∀ c ∈ o.children, c ∈ o'.children

def IsChild (h : ContextHeap) (p x : CtxtPtr) (key : ContextFrame) : Prop :=
  ∃ op ox, h.heap p = some op ∧ x ∈ op.children ∧ h.heap x = some ox ∧ ox.parent = some p ∧
    ox.key = key

def RunsTo (h h' : ContextHeap) : Prop :=
  ∃ calls, Meets addStep AddCall.Valid calls h ∧ run addStep calls h = .ok h'

inductive AddsPath : ContextHeap → CtxtPtr → List SourceFrame → ContextHeap → CtxtPtr → Prop
  | nil {h : ContextHeap} {p : CtxtPtr} : AddsPath h p [] h p
  | cons {h h₁ h' : ContextHeap} {p c x newCtxt : CtxtPtr} {f : SourceFrame}
      {fs : List SourceFrame} : (AddCall.byPtr p f newCtxt).Valid h →
      h.addContextAt p f newCtxt = .ok (h₁, c) → AddsPath h₁ c fs h' x →
      AddsPath h p (f :: fs) h' x

inductive Path (h : ContextHeap) : CtxtPtr → List ContextFrame → Prop
  | root : Path h h.root []
  | child {p x : CtxtPtr} {key : ContextFrame} {keys : List ContextFrame} :
      Path h p keys → h.IsChild p x key → Path h x (keys ++ [key])

/-- Whatever is added in between, two sequences of frames lead from the root to the same
context when they agree key by key, and only then. -/
def SameNodeIffSameKeys (h : ContextHeap) : Prop :=
  ∀ fs h₁ x h₂ gs h₃ y, AddsPath h h.root fs h₁ x → RunsTo h₁ h₂ →
    AddsPath h₂ h₂.root gs h₃ y → (x = y ↔ fs.map SourceFrame.key = gs.map SourceFrame.key)

/-- Adding a key under a parent again returns the same context and makes no node. -/
def RepeatsAddNothing (h : ContextHeap) : Prop :=
  ∀ (c c' : AddCall) (h₁ h₂ : ContextHeap) (x : CtxtPtr), c.Valid h → c.exec h = .ok (h₁, x) →
    RunsTo h₁ h₂ → c'.Valid h₂ → c'.parent h₂ = c.parent h → c'.frame.key = c.frame.key →
    c'.exec h₂ = .ok (h₂, x)

variable {h h' h₁ h₂ h₃ : ContextHeap} {p q x y newCtxt : CtxtPtr} {o : ContextObj}
variable {key : ContextFrame} {keys keys' : List ContextFrame} {f : SourceFrame}
variable {fs : List SourceFrame} {c : AddCall} {t t' : ContextTree}

theorem Extends.refl : Extends h h :=
  ⟨rfl, fun _ o hp => ⟨o, hp, rfl, rfl, rfl, fun _ hc => hc⟩⟩

theorem Extends.trans (h₁₂ : Extends h₁ h₂) (h₂₃ : Extends h₂ h₃) : Extends h₁ h₃ := by
  refine ⟨h₂₃.root.trans h₁₂.root, ?_⟩
  intro p o hp
  obtain ⟨o', hp', hid, hkey, hpar, hch⟩ := h₁₂.node p o hp
  obtain ⟨o'', hp'', hid', hkey', hpar', hch'⟩ := h₂₃.node p o' hp'
  exact ⟨o'', hp'', hid'.trans hid, hkey'.trans hkey, hpar'.trans hpar,
    fun c hc => hch' c (hch c hc)⟩

theorem Extends.grow (hfree : h.heap newCtxt = none) : h.Extends (h.grow p newCtxt f) := by
  refine ⟨rfl, ?_⟩
  intro q o hq
  have hne : q ≠ newCtxt := by
    rintro rfl
    cases hq.symm.trans hfree
  refine ⟨_, grow_old hne hq, rfl, rfl, rfl, ?_⟩
  intro c hc
  dsimp only
  split_ifs
  · exact List.mem_append_left _ hc
  · exact hc

theorem IsChild.extends (hc : h.IsChild p x key) (he : h.Extends h') : h'.IsChild p x key := by
  obtain ⟨op, ox, hp, hmem, hx, hpar, hkey⟩ := hc
  obtain ⟨op', hp', -, -, -, hsub⟩ := he.node p op hp
  obtain ⟨ox', hx', -, hkey', hpar', -⟩ := he.node x ox hx
  exact ⟨op', ox', hp', hsub x hmem, hx', hpar'.trans hpar, hkey'.trans hkey⟩

/-! ## Calls and runs -/

theorem exec_of_parent (hp : c.parent h = some p) :
    c.exec h = h.addContextAt p c.frame c.newCtxt := by
  cases c with
  | byId parentId frame newCtxt =>
    have hlookup : h.contextMap.lookup parentId = some p := hp
    simp only [AddCall.exec, addContext, hlookup, AddCall.frame, AddCall.newCtxt]
  | byPtr parent frame newCtxt =>
    obtain rfl := Option.some.inj hp
    rfl

theorem Trie.exec (hT : h.Trie) (hv : c.Valid h) (hp : c.parent h = some p) :
    ∃ h' x, c.exec h = .ok (h', x) ∧ h'.Trie ∧ h.Extends h' ∧ h'.IsChild p x c.frame.key := by
  obtain ⟨p', o, hp', ho⟩ := hv.known
  obtain rfl := Option.some.inj (hp.symm.trans hp')
  have hexec := exec_of_parent hp
  obtain ⟨x, hx, ox, hox, hkey, hadd⟩ | ⟨hnone, hadd⟩ :=
    addContextAt_cases hT ho hv.fresh c.frame
  · obtain ⟨ox', hox', hpar⟩ := hT.child p o ho x hx
    obtain rfl := Option.some.inj (hox.symm.trans hox')
    exact ⟨h, x, hexec.trans hadd, hT, .refl, o, ox, ho, hx, hox, hpar, hkey⟩
  · have hne : p ≠ c.newCtxt := by
      rintro rfl
      cases ho.symm.trans hv.fresh
    refine ⟨_, c.newCtxt, hexec.trans hadd, ?_, .grow hv.fresh, ?_⟩
    · exact hT.grow ho hv.fresh hnone (hv.fits _ _ (hexec.trans hadd))
    · exact ⟨_, _, grow_parent hne ho, by simp, grow_new, rfl, rfl⟩

theorem Trie.step (hT : h.Trie) (hv : c.Valid h) :
    ∃ h', addStep c h = .ok h' ∧ h'.Trie ∧ h.Extends h' := by
  obtain ⟨p, o, hp, -⟩ := hv.known
  obtain ⟨h', x, hexec, hT', he, -⟩ := hT.exec hv hp
  exact ⟨h', by rw [addStep, hexec]; rfl, hT', he⟩

theorem Trie.runsTo (hT : h.Trie) (hr : RunsTo h h') : h'.Trie ∧ h.Extends h' := by
  obtain ⟨calls, hcalls, hrun⟩ := hr
  have hkeep : ∀ c s s', (s.Trie ∧ h.Extends s) → AddCall.Valid c s → addStep c s = .ok s' →
      s'.Trie ∧ h.Extends s' := by
    rintro c s s' ⟨hs, he⟩ hv hstep
    obtain ⟨s₁, hstep₁, hs₁, he₁⟩ := hs.step hv
    obtain rfl := Except.ok.inj (hstep₁.symm.trans hstep)
    exact ⟨hs₁, he.trans he₁⟩
  exact run_invariant hkeep ⟨hT, .refl⟩ hcalls hrun

theorem trie_new (root : CtxtPtr) : (new root).Trie := by
  have hheap : ∀ p o, (new root).heap p = some o ↔ p = root ∧ o = { id := 0 } := by
    intro p o
    by_cases hp : p = root
    · subst hp
      simp [new, eq_comm]
    · simp [new, hp]
  refine ⟨⟨_, (hheap root _).mpr ⟨rfl, rfl⟩, rfl, rfl⟩, ?_, ?_, rfl, ?_, ?_, ?_, ?_⟩
  · intro p o ho
    obtain ⟨-, rfl⟩ := (hheap p o).mp ho
    exact Nat.zero_lt_one
  · intro id p
    simp only [hheap]
    by_cases hid : id = 0
    · subst hid
      rw [new, AList.lookup_insert]
      simp [eq_comm]
    · have hlookup : (new root).contextMap.lookup id = none := by
        simp only [new, AList.lookup_insert_ne hid, AList.lookup_empty]
      rw [hlookup]
      constructor
      · rintro ⟨⟩
      · rintro ⟨o, ⟨-, rfl⟩, h0⟩
        exact absurd h0.symm hid
  · intro p o ho hroot
    exact absurd ((hheap p o).mp ho).1 hroot
  · intro q oq hq c hc
    obtain ⟨-, rfl⟩ := (hheap q oq).mp hq
    cases hc
  · intro q oq hq
    obtain ⟨-, rfl⟩ := (hheap q oq).mp hq
    exact List.nodup_nil
  · intro q oq hq c hc
    obtain ⟨-, rfl⟩ := (hheap q oq).mp hq
    cases hc

/-! ## Paths -/

theorem Path.extends (hp : h.Path p keys) (he : h.Extends h') : h'.Path p keys := by
  induction hp with
  | root => exact he.root ▸ Path.root
  | child _ hc ih => exact ih.child (hc.extends he)

theorem Trie.root_no_parent (hT : h.Trie) : ¬h.IsChild p h.root key := by
  rintro ⟨op, ox, -, -, hx, hpar, -⟩
  obtain ⟨o, ho, hnone, -⟩ := hT.rootNode
  obtain rfl := Option.some.inj (ho.symm.trans hx)
  cases hnone.symm.trans hpar

theorem IsChild.unique {key' : ContextFrame} (hp : h.IsChild p x key) (hq : h.IsChild q x key') :
    p = q ∧ key = key' := by
  obtain ⟨-, ox, -, -, hx, hpar, hkey⟩ := hp
  obtain ⟨-, ox', -, -, hx', hpar', hkey'⟩ := hq
  obtain rfl := Option.some.inj (hx.symm.trans hx')
  exact ⟨Option.some.inj (hpar.symm.trans hpar'), hkey.symm.trans hkey'⟩

theorem IsChild.eq (hT : h.Trie) (hx : h.IsChild p x key) (hy : h.IsChild p y key) : x = y := by
  obtain ⟨op, ox, hp, hmem, hox, -, hkey⟩ := hx
  obtain ⟨op', oy, hp', hmem', hoy, -, hkey'⟩ := hy
  obtain rfl := Option.some.inj (hp.symm.trans hp')
  exact hT.keys p op hp x hmem y hmem' ox oy hox hoy (hkey.trans hkey'.symm)

theorem Path.unique (hT : h.Trie) (hp : h.Path p keys) (hp' : h.Path p keys') : keys = keys' := by
  induction hp generalizing keys' with
  | root =>
    cases hp' with
    | root => rfl
    | child _ hc => exact absurd hc hT.root_no_parent
  | child _ hc ih =>
    cases hp' with
    | root => exact absurd hc hT.root_no_parent
    | child hq hc' =>
      obtain ⟨rfl, rfl⟩ := hc.unique hc'
      rw [ih hq]

theorem Path.node_eq (hT : h.Trie) (hp : h.Path p keys) (hq : h.Path q keys) : p = q := by
  generalize hkeys : keys = keys' at hq
  induction hp generalizing q keys' with
  | root =>
    cases hq with
    | root => rfl
    | child => simp at hkeys
  | child _ hc ih =>
    cases hq with
    | root => simp at hkeys
    | child hq hc' =>
      obtain ⟨hfront, hlast⟩ := List.append_inj' hkeys rfl
      obtain rfl := List.singleton_inj.mp hlast
      obtain rfl := ih _ hfront hq
      exact hc.eq hT hc'

theorem AddsPath.spec (ha : AddsPath h p fs h' x) (hT : h.Trie) (hp : h.Path p keys) :
    h'.Trie ∧ h.Extends h' ∧ h'.Path x (keys ++ fs.map SourceFrame.key) := by
  induction ha generalizing keys with
  | nil => exact ⟨hT, .refl, by simpa using hp⟩
  | @cons h h₁ h' p c x newCtxt f fs hv hadd _ ih =>
    obtain ⟨h₂, c', hexec, hT', he, hc⟩ := hT.exec hv rfl
    have hexec' : h.addContextAt p f newCtxt = .ok (h₂, c') := hexec
    obtain ⟨rfl, rfl⟩ := Prod.mk.inj (Except.ok.inj (hexec'.symm.trans hadd))
    obtain ⟨hT'', he', hpath⟩ := ih hT' ((hp.extends he).child hc)
    refine ⟨hT'', he.trans he', ?_⟩
    have hkey : (AddCall.byPtr p f newCtxt).frame.key = f.key := rfl
    simpa [hkey] using hpath

theorem Trie.sameNode (hT : h.Trie) : h.SameNodeIffSameKeys := by
  intro fs h₁ x h₂ gs h₃ y hfs hr hgs
  obtain ⟨hT₁, he₁, hx⟩ := hfs.spec hT .root
  obtain ⟨hT₂, he₂⟩ := hT₁.runsTo hr
  obtain ⟨hT₃, he₃, hy⟩ := hgs.spec hT₂ .root
  have hx₃ := hx.extends (he₂.trans he₃)
  simp only [List.nil_append] at hx₃ hy
  constructor
  · rintro rfl
    exact hx₃.unique hT₃ hy
  · intro hkeys
    rw [hkeys] at hx₃
    exact hx₃.node_eq hT₃ hy

theorem Trie.repeats (hT : h.Trie) : h.RepeatsAddNothing := by
  intro c c' h₁ h₂ x hv hexec hr hv' hparent hkey
  obtain ⟨p, o, hp, -⟩ := hv.known
  obtain ⟨h₁', x', hexec', hT₁, -, hx⟩ := hT.exec hv hp
  obtain ⟨rfl, rfl⟩ := Prod.mk.inj (Except.ok.inj (hexec'.symm.trans hexec))
  obtain ⟨hT₂, he⟩ := hT₁.runsTo hr
  obtain ⟨op, ox, hop, hmem, hox, -, hxkey⟩ := hx.extends he
  rw [exec_of_parent (hparent.trans hp)]
  obtain ⟨d, hd, od, hod, hdkey, hadd⟩ | ⟨hnone, -⟩ :=
    addContextAt_cases hT₂ hop hv'.fresh c'.frame
  · have hsame : od.key = ox.key := hdkey.trans (hkey.trans hxkey.symm)
    rw [hadd, hT₂.keys p op hop d hd _ hmem od ox hod hox hsame]
  · exact absurd (hxkey.trans hkey.symm) (hnone _ hmem ox hox)

/-! ## The tree of ids -/

def idOf (h : ContextHeap) (p : CtxtPtr) : ℕ := ((h.heap p).map fun o => o.id.toNat).getD 0

/-- `t` is the tree of `h` with each pointer read as the id behind it. -/
structure Represents (h : ContextHeap) (t : ContextTree) : Prop where
  counter : t.idCounter = h.idCounter.toNat
  frame : ∀ p o, h.heap p = some o → (t.contextMap (h.idOf p)).frame = o.key
  children : ∀ p o, h.heap p = some o →
    (t.contextMap (h.idOf p)).children = o.children.map h.idOf
  parent : ∀ p o, h.heap p = some o → (t.contextMap (h.idOf p)).parent = o.parent.map h.idOf

theorem idOf_eq (hp : h.heap p = some o) : h.idOf p = o.id.toNat := by
  simp [idOf, hp]

theorem Represents.new (root : CtxtPtr) : (new root).Represents ContextTree.new := by
  have hone : ∀ p o, (ContextHeap.new root).heap p = some o → o = { id := 0 } := by
    intro p o ho
    by_cases hp : p = root
    · subst hp
      simpa [ContextHeap.new, eq_comm] using ho
    · simp [ContextHeap.new, hp] at ho
  refine ⟨rfl, ?_, ?_, ?_⟩
  all_goals
    intro p o ho
    obtain rfl := hone p o ho
    rfl

theorem idOf_grow (hfree : h.heap newCtxt = none) (hq : h.heap q = some o) :
    (h.grow p newCtxt f).idOf q = h.idOf q := by
  have hne : q ≠ newCtxt := by
    rintro rfl
    cases hq.symm.trans hfree
  rw [idOf_eq hq, idOf_eq (grow_old hne hq)]

theorem idOf_grow_new : (h.grow p newCtxt f).idOf newCtxt = h.idCounter.toNat := idOf_eq grow_new

theorem Trie.map_idOf_grow (hT : h.Trie) (hfree : h.heap newCtxt = none) (hq : h.heap q = some o) :
    o.children.map (h.grow p newCtxt f).idOf = o.children.map h.idOf := by
  apply List.map_congr_left
  intro c hc
  obtain ⟨oc, hoc, -⟩ := hT.child q o hq c hc
  exact idOf_grow hfree hoc

theorem Trie.parent_idOf_grow (hT : h.Trie) (hfree : h.heap newCtxt = none)
    (hq : h.heap q = some o) :
    o.parent.map (h.grow p newCtxt f).idOf = o.parent.map h.idOf := by
  by_cases hroot : q = h.root
  · subst hroot
    obtain ⟨o', ho', hnone, -⟩ := hT.rootNode
    obtain rfl := Option.some.inj (hq.symm.trans ho')
    rw [hnone]
    rfl
  · obtain ⟨r, or, hpar, hr, -⟩ := hT.parent q o hq hroot
    rw [hpar, Option.map_some, Option.map_some, idOf_grow hfree hr]

theorem Represents.grow (hR : h.Represents t) (hT : h.Trie) (hp : h.heap p = some o)
    (hfree : h.heap newCtxt = none)
    (hsize : (h.grow p newCtxt f).contextMap.entries.length < 2 ^ 32) :
    (h.grow p newCtxt f).Represents (t.grow (h.idOf p) f.key) := by
  rw [hT.grow_size] at hsize
  have hlt : ∀ {q oq}, h.heap q = some oq → h.idOf q < t.idCounter := by
    intro q oq hq
    rw [hR.counter, idOf_eq hq]
    exact hT.below q oq hq
  have hinj : ∀ {q oq}, h.heap q = some oq → (h.idOf q = h.idOf p ↔ q = p) := by
    intro q oq hq
    constructor
    · intro hid
      rw [idOf_eq hq, idOf_eq hp] at hid
      exact hT.ptr_eq hq hp (UInt32.toNat_inj.mp hid)
    · rintro rfl
      rfl
  refine ⟨?_, ?_, ?_, ?_⟩
  · change t.idCounter + 1 = (h.idCounter + 1).toNat
    rw [UInt32.toNat_add, hR.counter]
    exact (Nat.mod_eq_of_lt hsize).symm
  · intro q o' ho'
    obtain ⟨rfl, rfl⟩ | ⟨-, oq, hq, rfl⟩ := grow_cases hfree ho'
    · rw [idOf_grow_new, ← hR.counter, ContextTree.grow_new]
      rfl
    · rw [idOf_grow hfree hq, (ContextTree.grow_old (hlt hq)).1]
      exact hR.frame q oq hq
  · intro q o' ho'
    obtain ⟨rfl, rfl⟩ | ⟨-, oq, hq, rfl⟩ := grow_cases hfree ho'
    · rw [idOf_grow_new, ← hR.counter, ContextTree.grow_new]
      rfl
    · rw [idOf_grow hfree hq]
      by_cases hqp : q = p
      · subst hqp
        obtain rfl := Option.some.inj (hp.symm.trans hq)
        rw [ContextTree.grow_parent (hlt hq), if_pos rfl, List.map_append,
          hT.map_idOf_grow hfree hq, List.map_singleton, idOf_grow_new, ← hR.counter,
          hR.children q o hq]
      · rw [ContextTree.grow_other (hlt hq) (fun hid => hqp ((hinj hq).mp hid)), if_neg hqp,
          hT.map_idOf_grow hfree hq, hR.children q oq hq]
  · intro q o' ho'
    obtain ⟨rfl, rfl⟩ | ⟨-, oq, hq, rfl⟩ := grow_cases hfree ho'
    · rw [idOf_grow_new, ← hR.counter, ContextTree.grow_new, Option.map_some, idOf_grow hfree hp]
    · rw [idOf_grow hfree hq, (ContextTree.grow_old (hlt hq)).2.2]
      exact (hR.parent q oq hq).trans (hT.parent_idOf_grow hfree hq).symm

/-- A call does to the objects what `addContext` does to the tree of ids. -/
theorem Represents.exec (hR : h.Represents t) (hT : h.Trie) (hv : c.Valid h)
    (hp : c.parent h = some p) (hx : c.exec h = .ok (h', x)) :
    ∃ t', t.addContext (h.idOf p) c.frame.key = (t', h'.idOf x) ∧ h'.Represents t' := by
  obtain ⟨p', o, hp', ho⟩ := hv.known
  obtain rfl := Option.some.inj (hp.symm.trans hp')
  have hframe : ∀ {d od}, d ∈ o.children → h.heap d = some od →
      (t.contextMap (h.idOf d)).frame = od.key := fun _ hod => hR.frame _ _ hod
  have hchildren := hR.children p o ho
  have hexec := exec_of_parent hp
  obtain ⟨d, hd, od, hod, hkey, hadd⟩ | ⟨hnone, hadd⟩ :=
    addContextAt_cases hT ho hv.fresh c.frame
  · obtain ⟨rfl, rfl⟩ := Prod.mk.inj (Except.ok.inj ((hexec.trans hadd).symm.trans hx))
    refine ⟨t, ?_, hR⟩
    -- the tree finds a child with this key too, and no other child has it
    cases hfind : t.findChild (h.idOf p) c.frame.key with
    | none =>
      have hno := List.find?_eq_none.mp hfind (h.idOf d) (hchildren ▸ List.mem_map_of_mem hd)
      exact absurd (contextRefEqual_iff.mpr ((hframe hd hod).trans hkey)) hno
    | some n =>
      have hn := List.mem_of_find?_eq_some hfind
      rw [hchildren] at hn
      obtain ⟨e, he, rfl⟩ := List.mem_map.mp hn
      obtain ⟨oe, hoe, -⟩ := hT.child p o ho e he
      have hequal : contextRefEqual (t.contextMap (h.idOf e)).frame c.frame.key = true := by
        simpa using List.find?_some hfind
      have hekey : oe.key = od.key :=
        (hframe he hoe).symm.trans ((contextRefEqual_iff.mp hequal).trans hkey.symm)
      rw [ContextTree.addContext, hfind, hT.keys p o ho e he d hd oe od hoe hod hekey]
  · obtain ⟨rfl, rfl⟩ := Prod.mk.inj (Except.ok.inj ((hexec.trans hadd).symm.trans hx))
    have hlt : h.idOf p < t.idCounter := by
      rw [hR.counter, idOf_eq ho]
      exact hT.below p o ho
    obtain ⟨n, hn, hnf, -⟩ | hgrow := ContextTree.addContext_cases t c.frame.key hlt
    · rw [hchildren] at hn
      obtain ⟨e, he, rfl⟩ := List.mem_map.mp hn
      obtain ⟨oe, hoe, -⟩ := hT.child p o ho e he
      exact absurd ((hframe he hoe).symm.trans hnf) (hnone e he oe hoe)
    · refine ⟨_, ?_, hR.grow hT ho hv.fresh (hv.fits _ _ hx)⟩
      rw [hgrow, idOf_grow_new, hR.counter]

theorem represents_run {root : CtxtPtr} {calls : List AddCall}
    (hcalls : Meets addStep AddCall.Valid calls (new root))
    (hrun : run addStep calls (new root) = .ok h) : ∃ t, h.Represents t ∧ t.Linked := by
  have hkeep : ∀ c s s', (s.Trie ∧ ∃ t, s.Represents t ∧ t.Linked) → AddCall.Valid c s →
      addStep c s = .ok s' → s'.Trie ∧ ∃ t, s'.Represents t ∧ t.Linked := by
    rintro c s s' ⟨hs, t, hR, hL⟩ hv hstep
    obtain ⟨p, o, hp, ho⟩ := hv.known
    obtain ⟨s₁, x, hexec, hs₁, -⟩ := hs.exec hv hp
    rw [addStep, hexec] at hstep
    obtain rfl := Except.ok.inj hstep
    obtain ⟨t', hadd, hR'⟩ := hR.exec hs hv hp hexec
    have hlt : s.idOf p < t.idCounter := by
      rw [hR.counter, idOf_eq ho]
      exact hs.below p o ho
    have hlinked := (ContextTree.addContext_ensures (f := c.frame.key)
      (fun _ _ _ hl hq => hl.grow hq) (fun _ hl => hl) hL hlt).1
    rw [hadd] at hlinked
    exact ⟨hs₁, t', hR', hlinked⟩
  have hstart : (new root).Trie ∧ ∃ t, (new root).Represents t ∧ t.Linked :=
    ⟨trie_new root, _, .new root, ContextTree.linked_new⟩
  exact (run_invariant hkeep hstart hcalls hrun).2

/-- Any sequence of calls leaves a trie: with ids of their own in `_context_map`, parents
older than their children, and one node for each path of keys. -/
theorem addContext_trie (root : CtxtPtr) (calls : List AddCall)
    (hcalls : Meets addStep AddCall.Valid calls (new root)) :
    ∃ h, run addStep calls (new root) = .ok h ∧ h.Trie ∧ h.SameNodeIffSameKeys ∧
      h.RepeatsAddNothing := by
  have hkeep : ∀ c s, Trie s → AddCall.Valid c s →
      Ensures (fun _ => True) (addStep c s) Trie := by
    intro c s hs hv
    obtain ⟨s', hstep, hs', -⟩ := hs.step hv
    rw [hstep]
    exact .pure hs'
  have hrun := run_ensures hkeep (trie_new root) hcalls
  cases hr : run addStep calls (new root) with
  | error e => exact absurd trivial (hrun.error e hr)
  | ok h =>
    have hT := hrun.ok h hr
    exact ⟨h, rfl, hT, hT.sameNode, hT.repeats⟩

def frameAt (bci : ℤ) : SourceFrame := { methodId := 7, bci := bci }

def threeAdds : List AddCall :=
  [.byId 0 (frameAt 3) 101, .byPtr 101 (frameAt 4) 102, .byId 0 (frameAt 3) 103]

theorem addContext_trie_threeAdds : ∃ h, run addStep threeAdds (new 100) = .ok h ∧ h.Trie ∧
    h.SameNodeIffSameKeys ∧ h.RepeatsAddNothing := by
  apply addContext_trie
  refine ⟨⟨⟨100, _, rfl, rfl⟩, rfl, ?_⟩, fun h hh => ?_⟩
  · rintro h x ⟨⟩
    decide
  obtain rfl := Except.ok.inj hh
  refine ⟨⟨⟨101, _, rfl, rfl⟩, rfl, ?_⟩, fun h hh => ?_⟩
  · rintro h x ⟨⟩
    decide
  obtain rfl := Except.ok.inj hh
  refine ⟨⟨⟨100, _, rfl, rfl⟩, rfl, ?_⟩, fun h hh => trivial⟩
  rintro h x ⟨⟩
  decide

end ContextHeap
end Trace4J.Profiler
