import Trace4J.Offline.MethodManager
import Trace4J.Profiler.CodeCache
import Trace4J.Profiler.ThreadEnd

/-!
# Every written context finds its method

The process as a whole: load and unload callbacks, the signal handlers that ask the code
cache and build contexts, the loop of `threadEnd`, which takes the lock anew for every
context, and the death of the virtual machine. The unload of a method comes after the
callback of its load is done, so the callback that writes a method holds its fields.
-/

namespace Trace4J.Profiler
open Library

/-! ## Elements of the method file -/

def pointerText (p : UInt64) : Text :=
  if p = 0 then ['0'] else '0' :: 'x' :: Nat.toDigits 16 p.toNat

def versionText (v : UInt32) : Text := Nat.toDigits 10 v.toNat

def intText (i : ℤ) : Text :=
  if i < 0 then '-' :: Nat.toDigits 10 i.natAbs else Nat.toDigits 10 i.natAbs

structure MethodNames where
  name : Text
  file : Text
  className : Text

section World
variable (names : JMethodID → MethodNames)

def CompiledMethod.xml (m : CompiledMethod) : Offline.Method where
  methodId := pointerText m.methodId
  version := versionText m.version
  codeSize := intText m.codeSize
  startAddr := Nat.toDigits 10 m.startAddr
  methodName := (names m.methodId).name
  file := (names m.methodId).file
  className := (names m.methodId).className

def interpretXml (methodId : JMethodID) : Offline.Method where
  methodId := pointerText methodId
  version := versionText 0
  codeSize := ['0']
  startAddr := ['0']
  methodName := (names methodId).name
  file := (names methodId).file
  className := (names methodId).className

/-! ## The process -/

structure TracedThread where
  contextTree : ContextTree := .new
  toVisit : Option (List ℕ) := none
  dumpCtxt : List ℕ := []

structure World where
  cache : CodeCacheManager := {}
  writing : ThreadId → Option CompiledMethod := fun _ => none
  threads : ThreadId → TracedThread := fun _ => {}
  seen : List (JMethodID × UInt32) := []
  methodFile : List Offline.Method := []
  dead : Bool := false

inductive WorldEvent
  | load (t : ThreadId) (methodId : JMethodID) (codeSize : ℤ) (codeAddr : ℕ)
  | loaded (t : ThreadId) (newMethod : Ptr)
  | written (t : ThreadId)
  | unload (methodId : JMethodID) (codeAddr : ℕ)
  | lookup (addr : ℕ)
  | construct (t : ThreadId) (trace : CallTrace) (ip methodId : UInt64) (methodVersion : UInt32)
      (calleeCtxtFrame : ContextFrame)
  | record (t : ThreadId) (ctxt : ℕ) (metrics : ContextMetrics)
  | threadEnd (t : ThreadId) (order : List ℕ)
  | visit (t : ThreadId)
  | vmDeath (order : List JMethodID)

def World.setThread (w : World) (t : ThreadId) (s : TracedThread) : World :=
  { w with threads := Function.update w.threads t s }

/-- The body of the loop in `threadEnd`, for the next context. -/
def World.visitContext (w : World) (t : ThreadId) : World :=
  let s := w.threads t
  match s.toVisit with
  | some (ctxt :: rest) =>
    let methodId := (s.contextTree.contextMap ctxt).frame.methodId
    { w.setThread t { s with
        toVisit := some rest
        dumpCtxt := s.contextTree.dumpContext s.dumpCtxt ctxt } with
      cache := w.cache.checkAndMoveMethodToUncompiledSet methodId }
  | _ => w

def worldStep : WorldEvent → World → Except CacheFault World
  | .load t methodId codeSize codeAddr, w =>
    .ok { w with cache := w.cache.beginAdd t methodId codeSize codeAddr }
  | .loaded t newMethod, w => do
    let cache ← w.cache.endAdd t newMethod
    .ok { w with cache := cache, writing := Function.update w.writing t (w.cache.adding t) }
  | .written t, w =>
    .ok { w with
      methodFile := w.methodFile ++ ((w.writing t).map fun m => m.xml names).toList
      writing := Function.update w.writing t none }
  | .unload methodId codeAddr, w => do
    let cache ← w.cache.removeMethod methodId codeAddr
    .ok { w with cache := cache }
  | .lookup addr, w => do
    let m ← w.cache.getMethodAt addr
    .ok { w with seen := w.seen ++ (m.map Prod.snd).toList }
  | .construct t trace ip methodId methodVersion calleeCtxtFrame, w =>
    let s := w.threads t
    .ok (w.setThread t { s with
      contextTree := (constructContext s.contextTree trace ip methodId methodVersion
        calleeCtxtFrame).1 })
  | .record t ctxt metrics, w =>
    let s := w.threads t
    .ok (w.setThread t { s with contextTree := s.contextTree.setMetrics ctxt metrics })
  | .threadEnd t order, w => .ok (w.setThread t { w.threads t with toVisit := some order })
  | .visit t, w => .ok (w.visitContext t)
  | .vmDeath order, w =>
    .ok { w with
      methodFile := w.methodFile ++ (order.filter (· ≠ 0)).map (interpretXml names)
      dead := true }

/-- A thread is in one callback at a time, contexts are built while it runs, its loop meets
each context once, and threads end before the virtual machine does. -/
def Scheduled : WorldEvent → World → Prop
  | .load t _ _ _, w => w.cache.adding t = none ∧ w.writing t = none
  | .loaded t _, w => w.writing t = none
  | .construct t _ _ _ _ _, w => (w.threads t).toVisit = none
  | .record t _ _, w => (w.threads t).toVisit = none
  | .threadEnd t order, w => (w.threads t).toVisit = none ∧ w.dead = false ∧
      order.Perm (List.range (w.threads t).contextTree.idCounter)
  | .visit _, w => w.dead = false
  | .vmDeath order, w => order.Nodup ∧ (∀ id, id ∈ order ↔ id ∈ w.cache.unCompiledMethodCache) ∧
      ∀ t, (w.threads t).toVisit = none ∨ (w.threads t).toVisit = some []
  | _, _ => True

end World

/-! ## What the cache's steps do -/

namespace CodeCacheManager
variable {s s' : CodeCacheManager} {t : ThreadId} {methodId : JMethodID} {codeSize : ℤ}
  {codeAddr : ℕ} {newMethod : Ptr}

def Mapped (s : CodeCacheManager) (id : JMethodID) : Prop := (s.methodIdMap.lookup id).isSome

theorem mapped_insert {id : JMethodID} {g : CompiledMethodGroup}
    (h : s'.methodIdMap = s.methodIdMap.insert id g) (k : JMethodID) :
    s'.Mapped k ↔ k = id ∨ s.Mapped k := by
  unfold Mapped
  rw [h, AList.lookup_isSome, AList.lookup_isSome, AList.mem_insert]

theorem endAdd_ok (h : s.endAdd t newMethod = .ok s') : ∃ m, s.adding t = some m ∧
    (∀ k, s'.Mapped k ↔ k = m.methodId ∨ s.Mapped k) ∧
    s'.unCompiledMethodCache = s.unCompiledMethodCache ∧
    s'.heap = Function.update s.heap newMethod (some m) ∧
    s'.adding = Function.update s.adding t none := by
  unfold endAdd at h
  cases hm : s.adding t with
  | none =>
    rw [hm] at h
    cases h
  | some m =>
    rw [hm] at h
    cases hr : s.methodRangeSet.insert m.startAddr m.lastAddr newMethod with
    | none =>
      simp only [hr] at h
      cases h
    | some ranges =>
      simp only [hr] at h
      obtain rfl := Except.ok.inj h
      exact ⟨m, rfl, mapped_insert rfl, rfl, rfl, rfl⟩

theorem removeMethod_ok (h : s.removeMethod methodId codeAddr = .ok s') :
    (∀ k, s'.Mapped k ↔ s.Mapped k) ∧ s'.unCompiledMethodCache = s.unCompiledMethodCache ∧
      (∀ p m, s'.heap p = some m → s.heap p = some m) ∧ s'.adding = s.adding := by
  unfold removeMethod at h
  cases hg : s.methodIdMap.lookup methodId with
  | none =>
    rw [hg] at h
    obtain rfl := Except.ok.inj h
    exact ⟨fun k => Iff.rfl, rfl, fun p m hp => hp, rfl⟩
  | some g =>
    rw [hg] at h
    have hmapped : s.Mapped methodId := by simp [Mapped, hg]
    cases hr : s.methodRangeSet.remove codeAddr with
    | none =>
      simp only [hr] at h
      cases h
    | some ranges =>
      simp only [hr, removeMethodByAddr] at h
      cases hp : g.addressMethodMap.lookup codeAddr with
      | none =>
        simp only [hp] at h
        obtain rfl := Except.ok.inj h
        exact ⟨fun k => Iff.rfl, rfl, fun p m hp => hp, rfl⟩
      | some p =>
        simp only [hp] at h
        obtain rfl := Except.ok.inj h
        refine ⟨fun k => ?_, rfl, ?_, rfl⟩
        · rw [mapped_insert rfl]
          apply or_iff_right_of_imp
          rintro rfl
          exact hmapped
        · intro q m hq
          by_cases hqp : q = p
          · subst hqp
            simp at hq
          · simpa [Function.update_of_ne hqp] using hq

theorem getMethodAt_ok {addr : ℕ} {p : Ptr} {id : JMethodID} {v : UInt32}
    (h : s.getMethodAt addr = .ok (some (p, id, v))) :
    ∃ m, s.heap p = some m ∧ m.methodId = id ∧ m.version = v := by
  unfold getMethodAt at h
  cases hd : s.methodRangeSet.getData addr with
  | none =>
    rw [hd] at h
    cases h
  | some q =>
    rw [hd] at h
    obtain ⟨m, hderef, hm⟩ := bind_eq_ok.mp h
    unfold deref at hderef
    cases hq : s.heap q with
    | none =>
      rw [hq] at hderef
      cases hderef
    | some m' =>
      rw [hq] at hderef
      obtain rfl := Except.ok.inj hderef
      simp only [Except.ok.injEq, Option.some.injEq, Prod.mk.injEq] at hm
      obtain ⟨rfl, rfl, rfl⟩ := hm
      exact ⟨m', hq, rfl, rfl⟩

theorem checkAndMove_mapped (id k : JMethodID) :
    (s.checkAndMoveMethodToUncompiledSet id).Mapped k ↔ s.Mapped k := by
  unfold checkAndMoveMethodToUncompiledSet
  split <;> rfl

end CodeCacheManager

/-! ## The invariant -/

namespace World

def Entered (w : World) (id : JMethodID) (v : UInt32) : Prop :=
  ∃ e ∈ w.methodFile, e.methodId = pointerText id ∧ e.version = versionText v

def Underway (w : World) (m : CompiledMethod) : Prop :=
  ∃ t, w.cache.adding t = some m ∨ w.writing t = some m

def Recorded (w : World) (id : JMethodID) (v : UInt32) : Prop :=
  w.Entered id v ∨ ∃ m, w.Underway m ∧ m.methodId = id ∧ m.version = v

def Moved (w : World) (id : JMethodID) : Prop :=
  id ∈ w.cache.unCompiledMethodCache ∨ w.cache.Mapped id

structure Registered (w : World) : Prop where
  apart : ∀ id ∈ w.cache.unCompiledMethodCache, ¬w.cache.Mapped id
  adding : ∀ t m, w.cache.adding t = some m → w.cache.Mapped m.methodId
  first : ∀ id, w.cache.Mapped id → w.Recorded id 1
  heap : ∀ p m, w.cache.heap p = some m → w.Recorded m.methodId m.version
  seen : ∀ e ∈ w.seen, w.Recorded e.1 e.2

structure ThreadOk (w : World) (s : TracedThread) : Prop where
  linked : s.contextTree.Linked
  dumped : s.contextTree.Dumped s.dumpCtxt
  running : s.toVisit = none → s.dumpCtxt = []
  pending : ∀ rest, s.toVisit = some rest → ∀ n ∈ rest, n < s.contextTree.idCounter
  visited : ∀ rest, s.toVisit = some rest → ∀ n < s.contextTree.idCounter,
    n ∈ rest ∨ w.Moved (s.contextTree.contextMap n).frame.methodId

structure Resolvable (w : World) : Prop where
  registered : w.Registered
  threads : ∀ t, w.ThreadOk (w.threads t)
  entered : w.dead = true → ∀ id ∈ w.cache.unCompiledMethodCache, id ≠ 0 → w.Entered id 0
  ended : w.dead = true → ∀ t, (w.threads t).toVisit = none ∨ (w.threads t).toVisit = some []

structure Keeps (w w' : World) : Prop where
  entered : ∀ id v, w.Entered id v → w'.Entered id v
  underway : ∀ m, w.Underway m → w'.Recorded m.methodId m.version
  moved : ∀ id, w.Moved id → w'.Moved id

variable {w w' : World}

theorem Keeps.recorded (h : Keeps w w') {id : JMethodID} {v : UInt32} (hr : w.Recorded id v) :
    w'.Recorded id v := by
  obtain he | ⟨m, hm, rfl, rfl⟩ := hr
  · exact .inl (h.entered id v he)
  · exact h.underway m hm

theorem ThreadOk.keep {s : TracedThread} (h : w.ThreadOk s) (hk : Keeps w w') : w'.ThreadOk s :=
  ⟨h.linked, h.dumped, h.running, h.pending,
    fun rest hrest n hn => (h.visited rest hrest n hn).imp_right (hk.moved _)⟩

/-! ## The steps of the callbacks -/

section Callbacks
variable {t : ThreadId} {methodId : JMethodID} {codeSize : ℤ} {codeAddr : ℕ} {newMethod : Ptr}
  {cache : CodeCacheManager}

theorem Registered.load (h : w.Registered) (hidle : w.cache.adding t = none) :
    let w' : World := { w with cache := w.cache.beginAdd t methodId codeSize codeAddr }
    w'.Registered ∧ Keeps w w' := by
  intro w'
  have hmapped : ∀ k, w'.cache.Mapped k ↔ k = methodId ∨ w.cache.Mapped k :=
    CodeCacheManager.mapped_insert rfl
  have hkeeps : Keeps w w' := by
    refine ⟨fun id v he => he, ?_, ?_⟩
    · rintro m ⟨u, hu | hu⟩
      · refine .inr ⟨m, ⟨u, .inl ?_⟩, rfl, rfl⟩
        have hut : u ≠ t := by
          rintro rfl
          rw [hidle] at hu
          cases hu
        simpa only [w', CodeCacheManager.beginAdd, Function.update_of_ne hut] using hu
      · exact .inr ⟨m, ⟨u, .inr hu⟩, rfl, rfl⟩
    · rintro id (hid | hid)
      · by_cases hne : id = methodId
        · exact .inr ((hmapped id).mpr (.inl hne))
        · exact .inl (Finset.mem_erase.mpr ⟨hne, hid⟩)
      · exact .inr ((hmapped id).mpr (.inr hid))
  refine ⟨⟨?_, ?_, ?_, fun p m hp => hkeeps.recorded (h.heap p m hp),
    fun e he => hkeeps.recorded (h.seen e he)⟩, hkeeps⟩
  · intro id hid hm
    obtain ⟨hne, hold⟩ := Finset.mem_erase.mp hid
    obtain rfl | hm := (hmapped id).mp hm
    · exact hne rfl
    · exact h.apart id hold hm
  · intro u m hu
    rw [hmapped]
    by_cases hut : u = t
    · subst hut
      simp only [w', CodeCacheManager.beginAdd, Function.update_self, Option.some.injEq] at hu
      exact .inl (by rw [← hu])
    · simp only [w', CodeCacheManager.beginAdd, Function.update_of_ne hut] at hu
      exact .inr (h.adding u m hu)
  · intro id hid
    by_cases hold : w.cache.Mapped id
    · exact hkeeps.recorded (h.first id hold)
    · -- the first load of the method gets version 1
      obtain rfl : id = methodId := ((hmapped id).mp hid).resolve_right hold
      have hgroup : w.cache.groupOf id = {} := by
        have hnone : w.cache.methodIdMap.lookup id = none := by
          simpa [CodeCacheManager.Mapped] using hold
        rw [CodeCacheManager.groupOf, hnone, Option.getD_none]
      refine .inr ⟨⟨id, 1, codeSize, codeAddr⟩, ⟨t, .inl ?_⟩, rfl, rfl⟩
      simp only [w', CodeCacheManager.beginAdd, hgroup, Function.update_self]
      rfl

theorem Registered.loaded (h : w.Registered) (hidle : w.writing t = none)
    (hend : w.cache.endAdd t newMethod = .ok cache) :
    let w' : World :=
      { w with cache := cache, writing := Function.update w.writing t (w.cache.adding t) }
    w'.Registered ∧ Keeps w w' ∧
      w'.cache.unCompiledMethodCache = w.cache.unCompiledMethodCache := by
  intro w'
  obtain ⟨m, hm, hmapped, huncompiled, hheap, hadding⟩ := CodeCacheManager.endAdd_ok hend
  have hgroup := h.adding t m hm
  have hwriting : w'.writing t = some m := by
    simp only [w', Function.update_self, hm]
  have hkeeps : Keeps w w' := by
    refine ⟨fun id v he => he, ?_, ?_⟩
    · rintro a ⟨u, hu | hu⟩
      · by_cases hut : u = t
        · subst hut
          rw [hm, Option.some.injEq] at hu
          subst hu
          exact .inr ⟨m, ⟨u, .inr hwriting⟩, rfl, rfl⟩
        · refine .inr ⟨a, ⟨u, .inl ?_⟩, rfl, rfl⟩
          simpa only [w', hadding, Function.update_of_ne hut] using hu
      · have hut : u ≠ t := by
          rintro rfl
          rw [hidle] at hu
          cases hu
        refine .inr ⟨a, ⟨u, .inr ?_⟩, rfl, rfl⟩
        simpa only [w', Function.update_of_ne hut] using hu
    · rintro id (hid | hid)
      · exact .inl (huncompiled ▸ hid)
      · exact .inr ((hmapped id).mpr (.inr hid))
  have hmapped' : ∀ k, cache.Mapped k ↔ w.cache.Mapped k := by
    intro k
    rw [hmapped]
    apply or_iff_right_of_imp
    rintro rfl
    exact hgroup
  refine ⟨⟨?_, ?_, ?_, ?_, fun e he => hkeeps.recorded (h.seen e he)⟩, hkeeps, huncompiled⟩
  · intro id hid hmap
    rw [huncompiled] at hid
    exact h.apart id hid ((hmapped' id).mp hmap)
  · intro u a hu
    rw [hmapped']
    by_cases hut : u = t
    · subst hut
      simp [w', hadding] at hu
    · simp only [w', hadding, Function.update_of_ne hut] at hu
      exact h.adding u a hu
  · intro id hid
    exact hkeeps.recorded (h.first id ((hmapped' id).mp hid))
  · intro p a hp
    by_cases hpn : p = newMethod
    · subst hpn
      simp only [w', hheap, Function.update_self, Option.some.injEq] at hp
      subst hp
      exact .inr ⟨m, ⟨t, .inr hwriting⟩, rfl, rfl⟩
    · simp only [w', hheap, Function.update_of_ne hpn] at hp
      exact hkeeps.recorded (h.heap p a hp)

theorem Registered.written (names : JMethodID → MethodNames) (h : w.Registered) :
    let w' : World := { w with
      methodFile := w.methodFile ++ ((w.writing t).map fun m => m.xml names).toList
      writing := Function.update w.writing t none }
    w'.Registered ∧ Keeps w w' := by
  intro w'
  have hkeeps : Keeps w w' := by
    refine ⟨?_, ?_, fun id hid => hid⟩
    · rintro id v ⟨e, he, hid⟩
      exact ⟨e, List.mem_append_left _ he, hid⟩
    · rintro m ⟨u, hu | hu⟩
      · exact .inr ⟨m, ⟨u, .inl hu⟩, rfl, rfl⟩
      · by_cases hut : u = t
        · subst hut
          refine .inl ⟨m.xml names, ?_, rfl, rfl⟩
          simp [w', hu]
        · refine .inr ⟨m, ⟨u, .inr ?_⟩, rfl, rfl⟩
          simpa only [w', Function.update_of_ne hut] using hu
  exact ⟨⟨h.apart, h.adding, fun id hid => hkeeps.recorded (h.first id hid),
    fun p m hp => hkeeps.recorded (h.heap p m hp),
    fun e he => hkeeps.recorded (h.seen e he)⟩, hkeeps⟩

theorem Registered.unload (h : w.Registered)
    (hremove : w.cache.removeMethod methodId codeAddr = .ok cache) :
    let w' : World := { w with cache := cache }
    w'.Registered ∧ Keeps w w' ∧
      w'.cache.unCompiledMethodCache = w.cache.unCompiledMethodCache := by
  intro w'
  obtain ⟨hmapped, huncompiled, hheap, hadding⟩ := CodeCacheManager.removeMethod_ok hremove
  have hkeeps : Keeps w w' := by
    refine ⟨fun id v he => he, ?_, ?_⟩
    · rintro m ⟨u, hu⟩
      exact .inr ⟨m, ⟨u, by simpa only [w', hadding] using hu⟩, rfl, rfl⟩
    · rintro id (hid | hid)
      · exact .inl (huncompiled ▸ hid)
      · exact .inr ((hmapped id).mpr hid)
  refine ⟨⟨?_, ?_, fun id hid => hkeeps.recorded (h.first id ((hmapped id).mp hid)),
    fun p m hp => hkeeps.recorded (h.heap p m (hheap p m hp)),
    fun e he => hkeeps.recorded (h.seen e he)⟩, hkeeps, huncompiled⟩
  · intro id hid hmap
    rw [huncompiled] at hid
    exact h.apart id hid ((hmapped id).mp hmap)
  · intro u m hu
    rw [hmapped]
    exact h.adding u m (by rwa [← hadding])

end Callbacks

/-! ## Every step keeps the invariant -/

theorem Resolvable.callback (h : w.Resolvable) (hreg : w'.Registered) (hk : Keeps w w')
    (hsub : w'.cache.unCompiledMethodCache ⊆ w.cache.unCompiledMethodCache)
    (hthreads : w'.threads = w.threads) (hdead : w'.dead = w.dead) : w'.Resolvable := by
  refine ⟨hreg, fun t => ?_, ?_, ?_⟩
  · rw [hthreads]
    exact (h.threads t).keep hk
  · intro hd id hid hne
    rw [hdead] at hd
    exact hk.entered id 0 (h.entered hd id (hsub hid) hne)
  · rw [hdead, hthreads]
    exact h.ended

theorem Resolvable.lookup (h : w.Resolvable) {addr : ℕ}
    {r : Option (Ptr × JMethodID × UInt32)} (hr : w.cache.getMethodAt addr = .ok r) :
    Resolvable { w with seen := w.seen ++ (r.map Prod.snd).toList } := by
  have hreg := h.registered
  refine ⟨⟨hreg.apart, hreg.adding, hreg.first, hreg.heap, ?_⟩, fun t => ?_, h.entered, h.ended⟩
  · intro e he
    obtain he | he := List.mem_append.mp he
    · exact hreg.seen e he
    · cases r with
      | none => cases he
      | some r =>
        obtain rfl : e = r.2 := by simpa using he
        obtain ⟨m, hm, hid, hv⟩ := CodeCacheManager.getMethodAt_ok hr
        rw [← hid, ← hv]
        exact hreg.heap _ m hm
  · have hthread := h.threads t
    exact ⟨hthread.linked, hthread.dumped, hthread.running, hthread.pending, hthread.visited⟩

theorem setThread_self (w : World) (t : ThreadId) (s : TracedThread) :
    (w.setThread t s).threads t = s := Function.update_self ..

theorem setThread_of_ne (w : World) {t u : ThreadId} (s : TracedThread) (h : u ≠ t) :
    (w.setThread t s).threads u = w.threads u := Function.update_of_ne h ..

theorem Resolvable.setThread (h : w.Resolvable) (t : ThreadId) {s : TracedThread}
    (hs : w.ThreadOk s) (hdead : w.dead = true → s.toVisit = none ∨ s.toVisit = some []) :
    (w.setThread t s).Resolvable := by
  have hreg := h.registered
  refine ⟨⟨hreg.apart, hreg.adding, hreg.first, hreg.heap, hreg.seen⟩, fun u => ?_, h.entered,
    fun hd u => ?_⟩
  · by_cases hut : u = t
    · subst hut
      rw [setThread_self]
      exact ⟨hs.linked, hs.dumped, hs.running, hs.pending, hs.visited⟩
    · have hthread := h.threads u
      rw [setThread_of_ne w s hut]
      exact ⟨hthread.linked, hthread.dumped, hthread.running, hthread.pending, hthread.visited⟩
  · by_cases hut : u = t
    · subst hut
      rw [setThread_self]
      exact hdead hd
    · rw [setThread_of_ne w s hut]
      exact h.ended hd u

theorem ThreadOk.setTree {s : TracedThread} (h : w.ThreadOk s) (hrun : s.toVisit = none)
    {tree : ContextTree} (htree : tree.Linked) : w.ThreadOk { s with contextTree := tree } := by
  refine ⟨htree, ?_, h.running, ?_, ?_⟩
  · simp only [h.running hrun]
    exact tree.dumped_nil
  · intro rest hrest
    simp [hrun] at hrest
  · intro rest hrest
    simp [hrun] at hrest

theorem ThreadOk.threadEnd {s : TracedThread} (h : w.ThreadOk s) {order : List ℕ}
    (horder : order.Perm (List.range s.contextTree.idCounter)) :
    w.ThreadOk { s with toVisit := some order } := by
  have hmem : ∀ n, n ∈ order ↔ n < s.contextTree.idCounter := by
    intro n
    rw [horder.mem_iff, List.mem_range]
  refine ⟨h.linked, h.dumped, by simp, ?_, ?_⟩
  · intro rest hrest n hn
    obtain rfl := Option.some.inj hrest
    exact (hmem n).mp hn
  · intro rest hrest n hn
    obtain rfl := Option.some.inj hrest
    exact .inl ((hmem n).mpr hn)

theorem checkAndMove_moved (w : World) (id : JMethodID) :
    ({ w with cache := w.cache.checkAndMoveMethodToUncompiledSet id } : World).Moved id := by
  unfold Moved CodeCacheManager.checkAndMoveMethodToUncompiledSet
  cases hlookup : w.cache.methodIdMap.lookup id with
  | none => simp
  | some g => simp [CodeCacheManager.Mapped, hlookup]

theorem Registered.checkAndMove (h : w.Registered) (id : JMethodID) :
    let w' : World := { w with cache := w.cache.checkAndMoveMethodToUncompiledSet id }
    w'.Registered ∧ Keeps w w' := by
  intro w'
  cases hlookup : w.cache.methodIdMap.lookup id with
  | some g =>
    have hsame : w' = w := by
      simp only [w', CodeCacheManager.checkAndMoveMethodToUncompiledSet, hlookup]
    rw [hsame]
    exact ⟨h, fun _ _ he => he, fun m hm => .inr ⟨m, hm, rfl, rfl⟩, fun _ hm => hm⟩
  | none =>
    have hcache : w'.cache = { w.cache with
        unCompiledMethodCache := insert id w.cache.unCompiledMethodCache } := by
      simp only [w', CodeCacheManager.checkAndMoveMethodToUncompiledSet, hlookup]
    have hadding : w'.cache.adding = w.cache.adding := by rw [hcache]
    have hmapped : ∀ k, w'.cache.Mapped k ↔ w.cache.Mapped k :=
      CodeCacheManager.checkAndMove_mapped id
    have hkeeps : Keeps w w' := by
      refine ⟨fun id v he => he, ?_, ?_⟩
      · rintro m ⟨u, hu⟩
        exact .inr ⟨m, ⟨u, by simpa only [hadding] using hu⟩, rfl, rfl⟩
      · rintro k (hk | hk)
        · left
          rw [hcache]
          exact Finset.mem_insert_of_mem hk
        · exact .inr ((hmapped k).mpr hk)
    refine ⟨⟨?_, ?_, fun k hk => hkeeps.recorded (h.first k ((hmapped k).mp hk)), ?_,
      fun e he => hkeeps.recorded (h.seen e he)⟩, hkeeps⟩
    · intro k hk hmap
      rw [hmapped] at hmap
      rw [hcache] at hk
      obtain rfl | hk := Finset.mem_insert.mp hk
      · simp [CodeCacheManager.Mapped, hlookup] at hmap
      · exact h.apart k hk hmap
    · intro u m hu
      rw [hmapped]
      exact h.adding u m (by rwa [← hadding])
    · intro p m hp
      rw [hcache] at hp
      exact hkeeps.recorded (h.heap p m hp)

theorem ThreadOk.visit {s : TracedThread} (h : w.ThreadOk s) {ctxt : ℕ} {rest : List ℕ}
    (hvisit : s.toVisit = some (ctxt :: rest)) (hk : Keeps w w')
    (hmoved : w'.Moved (s.contextTree.contextMap ctxt).frame.methodId) :
    w'.ThreadOk { s with
      toVisit := some rest
      dumpCtxt := s.contextTree.dumpContext s.dumpCtxt ctxt } := by
  have hpending := h.pending _ hvisit
  refine ⟨h.linked, ?_, by simp, ?_, ?_⟩
  · exact (ContextTree.dumpContext_dumped h.linked h.dumped (hpending ctxt List.mem_cons_self)).1
  · intro rest' hrest
    obtain rfl := Option.some.inj hrest
    exact fun n hn => hpending n (List.mem_cons_of_mem _ hn)
  · intro rest' hrest n hn
    obtain rfl := Option.some.inj hrest
    obtain hmem | hm := h.visited _ hvisit n hn
    · obtain rfl | hmem := List.mem_cons.mp hmem
      · exact .inr hmoved
      · exact .inl hmem
    · exact .inr (hk.moved _ hm)

theorem Resolvable.visitContext (h : w.Resolvable) (t : ThreadId) (halive : w.dead = false) :
    (w.visitContext t).Resolvable := by
  unfold World.visitContext
  simp only
  split
  · rename_i ctxt rest hvisit
    set id := ((w.threads t).contextTree.contextMap ctxt).frame.methodId
    obtain ⟨hreg, hk⟩ := h.registered.checkAndMove id
    set w₁ : World := { w with cache := w.cache.checkAndMoveMethodToUncompiledSet id }
    have hresolvable : w₁.Resolvable := by
      refine ⟨hreg, fun u => (h.threads u).keep hk, ?_, h.ended⟩
      intro hd
      simp [w₁, halive] at hd
    exact hresolvable.setThread t
      ((h.threads t).visit hvisit hk (checkAndMove_moved w id)) (by simp [w₁, halive])
  · exact h

theorem Resolvable.vmDeath (names : JMethodID → MethodNames) (h : w.Resolvable)
    {order : List JMethodID} (horder : ∀ id, id ∈ order ↔ id ∈ w.cache.unCompiledMethodCache)
    (hended : ∀ t, (w.threads t).toVisit = none ∨ (w.threads t).toVisit = some []) :
    Resolvable { w with
      methodFile := w.methodFile ++ (order.filter (· ≠ 0)).map (interpretXml names)
      dead := true } := by
  set w' : World := { w with
    methodFile := w.methodFile ++ (order.filter (· ≠ 0)).map (interpretXml names)
    dead := true }
  have hkeeps : Keeps w w' := by
    refine ⟨?_, fun m hm => .inr ⟨m, hm, rfl, rfl⟩, fun id hid => hid⟩
    rintro id v ⟨e, he, hid⟩
    exact ⟨e, List.mem_append_left _ he, hid⟩
  have hreg := h.registered
  refine ⟨⟨hreg.apart, hreg.adding, fun id hid => hkeeps.recorded (hreg.first id hid),
    fun p m hp => hkeeps.recorded (hreg.heap p m hp),
    fun e he => hkeeps.recorded (hreg.seen e he)⟩, fun t => (h.threads t).keep hkeeps, ?_,
    fun _ => hended⟩
  intro _ id hid hne
  refine ⟨interpretXml names id, List.mem_append_right _ ?_, rfl, rfl⟩
  refine List.mem_map_of_mem (List.mem_filter.mpr ⟨(horder id).mpr hid, ?_⟩)
  simpa using hne

theorem Resolvable.step (names : JMethodID → MethodNames) (h : w.Resolvable) {ev : WorldEvent}
    (hev : Scheduled ev w) (hstep : worldStep names ev w = .ok w') : w'.Resolvable := by
  cases ev with
  | load t methodId codeSize codeAddr =>
    obtain rfl := Except.ok.inj hstep
    obtain ⟨hreg, hk⟩ := h.registered.load hev.1
    exact h.callback hreg hk (Finset.erase_subset _ _) rfl rfl
  | loaded t newMethod =>
    obtain ⟨cache, hend, hw⟩ := bind_eq_ok.mp hstep
    obtain rfl := Except.ok.inj hw
    obtain ⟨hreg, hk, hsame⟩ := h.registered.loaded hev hend
    exact h.callback hreg hk hsame.subset rfl rfl
  | written t =>
    obtain rfl := Except.ok.inj hstep
    obtain ⟨hreg, hk⟩ := h.registered.written names
    exact h.callback hreg hk (Finset.Subset.refl _) rfl rfl
  | unload methodId codeAddr =>
    obtain ⟨cache, hremove, hw⟩ := bind_eq_ok.mp hstep
    obtain rfl := Except.ok.inj hw
    obtain ⟨hreg, hk, hsame⟩ := h.registered.unload hremove
    exact h.callback hreg hk hsame.subset rfl rfl
  | lookup addr =>
    obtain ⟨r, hr, hw⟩ := bind_eq_ok.mp hstep
    obtain rfl := Except.ok.inj hw
    exact h.lookup hr
  | construct t trace ip methodId methodVersion callee =>
    obtain rfl := Except.ok.inj hstep
    have hthread := h.threads t
    exact h.setThread t (hthread.setTree hev (hthread.linked.constructContext _ _ _ _ _))
      fun _ => .inl hev
  | record t ctxt metrics =>
    obtain rfl := Except.ok.inj hstep
    have hthread := h.threads t
    exact h.setThread t (hthread.setTree hev (hthread.linked.setMetrics _ _)) fun _ => .inl hev
  | threadEnd t order =>
    obtain rfl := Except.ok.inj hstep
    obtain ⟨-, halive, horder⟩ := hev
    exact h.setThread t ((h.threads t).threadEnd horder) (by simp [halive])
  | visit t =>
    obtain rfl := Except.ok.inj hstep
    exact h.visitContext t hev
  | vmDeath order =>
    obtain rfl := Except.ok.inj hstep
    obtain ⟨-, horder, hended⟩ := hev
    exact h.vmDeath names horder hended

theorem resolvable_init : ({} : World).Resolvable := by
  refine ⟨⟨?_, ?_, ?_, ?_, ?_⟩, fun t => ⟨ContextTree.linked_new, ContextTree.dumped_nil _, ?_, ?_, ?_⟩,
    ?_, ?_⟩
  all_goals simp [CodeCacheManager.Mapped]

theorem Recorded.entered {id : JMethodID} {v : UInt32} (h : w.Recorded id v)
    (hdone : ∀ t, w.cache.adding t = none ∧ w.writing t = none) : w.Entered id v := by
  obtain h | ⟨m, ⟨t, ht⟩, -⟩ := h
  · exact h
  · rw [(hdone t).1, (hdone t).2] at ht
    simp at ht

end World

theorem methods_resolve (names : JMethodID → MethodNames) (evs : List WorldEvent) (w : World)
    (hevs : Meets (worldStep names) Scheduled evs {}) (hrun : run (worldStep names) evs {} = .ok w) :
    (∀ id ∈ w.cache.unCompiledMethodCache, w.cache.methodIdMap.lookup id = none) ∧
      (w.dead = true → (∀ t, w.cache.adding t = none ∧ w.writing t = none) →
        ∀ t, ∀ n ∈ (w.threads t).dumpCtxt,
          let frame := ((w.threads t).contextTree.contextMap n).frame
          frame.methodId ≠ 0 →
          frame.methodVersion = 0 ∨ (frame.methodId, frame.methodVersion) ∈ w.seen →
          ((Offline.loadMethod w.methodFile).getMethod (pointerText frame.methodId)
            (versionText frame.methodVersion)).1 ≠ none) := by
  have h : w.Resolvable := run_invariant (fun ev s s' hs hev hstep => hs.step names hev hstep)
    World.resolvable_init hevs hrun
  refine ⟨fun id hid => ?_, ?_⟩
  · have hnot := h.registered.apart id hid
    simpa [CodeCacheManager.Mapped] using hnot
  intro hdead hdone t n hn frame hne hsource
  have hentered : ∀ v, w.Entered frame.methodId v →
      ((Offline.loadMethod w.methodFile).getMethod (pointerText frame.methodId)
        (versionText v)).1 ≠ none := by
    rintro v ⟨e, he, hid, hv⟩
    rw [← hid, ← hv]
    exact Offline.loadMethod_getMethod he
  obtain hzero | hseen := hsource
  · rw [hzero]
    -- the thread has met the context, and has seen to its method
    have hthread := h.threads t
    have hlt := hthread.dumped.known n hn
    have hvisit : (w.threads t).toVisit = some [] := by
      refine (h.ended hdead t).resolve_left fun hnone => ?_
      rw [hthread.running hnone] at hn
      cases hn
    obtain hnil | huncompiled | hmapped := hthread.visited [] hvisit n hlt
    · cases hnil
    · exact hentered 0 (h.entered hdead _ huncompiled hne)
    · obtain ⟨e, he, hid, hv⟩ := (h.registered.first _ hmapped).entered hdone
      rw [← hid]
      exact Offline.loadMethod_getMethod_zero he hv
  · exact hentered _ ((h.registered.seen _ hseen).entered hdone)

/-! ## A run -/

def noNames : JMethodID → MethodNames := fun _ => ⟨[], [], []⟩

def lateLoad : List WorldEvent :=
  [.load 0 7 16 4096, .loaded 0 50, .written 0, .lookup 4100,
    .construct 1 ⟨2, fun _ => ⟨3, 5⟩⟩ 4100 7 1 ⟨4100, 7, 1, -1⟩, .record 1 3 [{ i := 1 }],
    .threadEnd 1 [0, 1, 2, 3], .visit 1, .visit 1, .visit 1, .visit 1,
    .load 0 5 16 8192, .loaded 0 51, .written 0, .vmDeath [0]]

theorem lateLoad_scheduled : Meets (worldStep noNames) Scheduled lateLoad {} := by
  refine .cons_ok ⟨rfl, rfl⟩ rfl ?_
  refine .cons_ok rfl rfl ?_
  refine .cons_ok trivial rfl ?_
  refine .cons_ok trivial rfl ?_
  refine .cons_ok rfl rfl ?_
  refine .cons_ok rfl rfl ?_
  refine .cons_ok ⟨rfl, rfl, List.Perm.refl _⟩ rfl ?_
  refine .cons_ok rfl rfl (.cons_ok rfl rfl (.cons_ok rfl rfl (.cons_ok rfl rfl ?_)))
  refine .cons_ok ⟨rfl, rfl⟩ rfl ?_
  refine .cons_ok rfl rfl ?_
  refine .cons_ok trivial rfl ?_
  refine .cons_ok ⟨by decide, fun id => ?_, fun t => ?_⟩ rfl trivial
  · exact (by simp : id ∈ [0] ↔ id ∈ ({0} : Finset JMethodID))
  · match t with
    | 0 => exact .inl rfl
    | 1 => exact .inr rfl
    | t + 2 => exact .inl rfl

theorem methods_resolve_lateLoad : ∃ w, run (worldStep noNames) lateLoad {} = .ok w ∧
    1 ∈ (w.threads 1).dumpCtxt ∧
    ((Offline.loadMethod w.methodFile).getMethod (pointerText 5) (versionText 0)).1 ≠ none := by
  refine ⟨_, rfl, by decide, ?_⟩
  refine (methods_resolve noNames lateLoad _ lateLoad_scheduled rfl).2 rfl ?_ 1 1 (by decide)
    (by decide) (.inl rfl)
  intro t
  match t with
  | 0 => exact ⟨rfl, rfl⟩
  | t + 1 => exact ⟨rfl, rfl⟩

end Trace4J.Profiler
