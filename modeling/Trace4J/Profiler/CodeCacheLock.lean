import Trace4J.Library.SpinLock
import Trace4J.Profiler.CodeCacheCoupling

/-!
# The lock of the code cache

The calls on `CodeCacheManager` as they run: one read or write after another, each call in a
`LockScope`, and the signal handlers of all threads among them. An actor is a thread or a signal
handler that has interrupted one. `addMethodAndRemoveFromUncompiledSet` is two sections.
-/

namespace Trace4J.Profiler.CodeCacheLock
open Library Library.SpinLock

/-! ## The calls -/

inductive CacheCall
  | addMethodAndRemoveFromUncompiledSet (methodId : JMethodID) (codeSize : ℤ) (codeAddr : ℕ)
      (newMethod : Ptr)
  | removeMethod (methodId : JMethodID) (codeAddr : ℕ)
  | getMethod (addr : ℕ)
  | getMethodAt (addr : ℕ)
  | getMethodOf (methodId : JMethodID)
  | checkAndMoveMethodToUncompiledSet (methodId : JMethodID)

inductive CacheSection
  | beginAdd (methodId : JMethodID) (codeSize : ℤ) (codeAddr : ℕ)
  | endAdd (newMethod : Ptr)
  | removeMethod (methodId : JMethodID) (codeAddr : ℕ)
  | getMethod (addr : ℕ)
  | getMethodAt (addr : ℕ)
  | getMethodOf (methodId : JMethodID)
  | checkAndMove (methodId : JMethodID)

def CacheCall.sections : CacheCall → List CacheSection
  | .addMethodAndRemoveFromUncompiledSet methodId codeSize codeAddr newMethod =>
    [.beginAdd methodId codeSize codeAddr, .endAdd newMethod]
  | .removeMethod methodId codeAddr => [.removeMethod methodId codeAddr]
  | .getMethod addr => [.getMethod addr]
  | .getMethodAt addr => [.getMethodAt addr]
  | .getMethodOf methodId => [.getMethodOf methodId]
  | .checkAndMoveMethodToUncompiledSet methodId => [.checkAndMove methodId]

inductive Answer
  | nothing
  | method (m : Option Ptr)
  | located (m : Option (Ptr × JMethodID × UInt32))

structure CallFrame where
  found : Bool := false
  m : Option Ptr := none
  methodId : JMethodID := 0
  version : UInt32 := 0
  retMethod : Option (Ptr × CompiledMethod) := none
  elems : List Ptr := []
  answer : Answer := .nothing

abbrev CacheAct := Act CacheSystem CallFrame CacheFault
abbrev CacheProg := Prog CacheSystem CallFrame CacheFault

def onCache (f : CodeCacheManager → CallFrame → Except CacheFault (CodeCacheManager × CallFrame)) :
    CacheAct := fun y =>
  (f y.1.cache y.2).map fun out => ({ y.1 with cache := out.1 }, out.2)

def write (f : CodeCacheManager → CodeCacheManager) : CacheAct :=
  onCache fun c r => .ok (f c, r)

def read (f : CodeCacheManager → CallFrame → CallFrame) : CacheAct :=
  onCache fun c r => .ok (c, f c r)

/-- The end of a call. `note` is what it has told of the virtual machine. -/
def ret (note : CacheSystem → CacheSystem) (answer : CallFrame → Answer) : CacheAct := fun y =>
  .ok (note y.1, { answer := answer y.2 })

/-- `_method_id_map.find(method_id)` -/
def findGroup (methodId : JMethodID) : CacheAct :=
  read fun c r => { r with found := (c.methodIdMap.lookup methodId).isSome }

/-- `_method_range_set.getData(addr, m)` -/
def getData (addr : ℕ) : CacheAct :=
  read fun c r => { r with m := c.methodRangeSet.getData addr }

/-! ### The two halves of an addition -/

def newGroup (methodId : JMethodID) (c : CodeCacheManager) : CodeCacheManager :=
  { c with methodIdMap := c.methodIdMap.insert methodId {} }

/-- `++_recent_version`, and the call keeps the version. -/
def nextVersion (t : ThreadId) (methodId : JMethodID) (codeSize : ℤ) (codeAddr : ℕ)
    (c : CodeCacheManager) : CodeCacheManager :=
  let methodGroup := c.groupOf methodId
  let version := methodGroup.recentVersion + 1
  { c with
    methodIdMap := c.methodIdMap.insert methodId { methodGroup with recentVersion := version }
    adding := Function.update c.adding t (some ⟨methodId, version, codeSize, codeAddr⟩) }

def noteLoad (t : ThreadId) (methodId : JMethodID) (codeSize : ℤ) (codeAddr : ℕ)
    (s : CacheSystem) : CacheSystem :=
  { s with
    jvm := s.jvm.load t methodId codeSize codeAddr
    issued := s.issued ++ ((s.cache.adding t).map fun m => (m.methodId, m.version)).toList }

def beginAdd (t : ThreadId) (methodId : JMethodID) (codeSize : ℤ) (codeAddr : ℕ) : CacheProg :=
  let version : CacheProg :=
    .act (write (nextVersion t methodId codeSize codeAddr)) fun _ =>
    .act (ret (noteLoad t methodId codeSize codeAddr) fun _ => .nothing) fun _ => .done
  .act (write fun c =>
    { c with unCompiledMethodCache := c.unCompiledMethodCache.erase methodId }) fun _ =>
  .act (findGroup methodId) fun r =>
  if r.found then version else .act (write (newGroup methodId)) fun _ => version

/-- `_address_method_map[start_addr] = new_method` -/
def setMethod (t : ThreadId) (newMethod : Ptr) : CacheAct := onCache fun c r =>
  match c.adding t with
  | none => .error .notAdding
  | some m =>
    let methodGroup := c.groupOf m.methodId
    .ok ({ c with
      methodIdMap := c.methodIdMap.insert m.methodId
        { methodGroup with
          addressMethodMap := methodGroup.addressMethodMap.insert m.startAddr newMethod }
      heap := Function.update c.heap newMethod (some m) }, r)

def insertRange (t : ThreadId) (newMethod : Ptr) : CacheAct := onCache fun c r =>
  match c.adding t with
  | none => .error .notAdding
  | some m =>
    match c.methodRangeSet.insert m.startAddr m.lastAddr newMethod with
    | none => .error .assertion
    | some ranges => .ok ({ c with methodRangeSet := ranges }, r)

def endAdd (t : ThreadId) (newMethod : Ptr) : CacheProg :=
  .act (setMethod t newMethod) fun _ =>
  .act (insertRange t newMethod) fun _ =>
  .act (write fun c => { c with adding := Function.update c.adding t none }) fun _ =>
  .act (ret (fun s => { s with jvm := s.jvm.loaded t }) fun _ => .method (some newMethod))
    fun _ => .done

/-! ### A removal -/

def findMethod (methodId : JMethodID) (codeAddr : ℕ) : CacheAct :=
  read fun c r => { r with m := (c.groupOf methodId).addressMethodMap.lookup codeAddr }

/-- `delete it->second` -/
def deleteMethod (p : Ptr) (c : CodeCacheManager) : CodeCacheManager :=
  { c with heap := Function.update c.heap p none }

def eraseMethod (methodId : JMethodID) (codeAddr : ℕ) (c : CodeCacheManager) :
    CodeCacheManager :=
  let methodGroup := c.groupOf methodId
  { c with
    methodIdMap := c.methodIdMap.insert methodId
      { methodGroup with addressMethodMap := methodGroup.addressMethodMap.erase codeAddr } }

def removeRange (codeAddr : ℕ) : CacheAct := onCache fun c r =>
  match c.methodRangeSet.remove codeAddr with
  | none => .error .assertion
  | some ranges => .ok ({ c with methodRangeSet := ranges }, r)

def removeMethod (methodId : JMethodID) (codeAddr : ℕ) : CacheProg :=
  let exit : CacheProg :=
    .act (ret (fun s => { s with jvm := s.jvm.unload methodId codeAddr }) fun _ => .nothing)
      fun _ => .done
  let ranges : CacheProg := .act (removeRange codeAddr) fun _ => exit
  .act (findGroup methodId) fun r =>
  if r.found then
    .act (findMethod methodId codeAddr) fun r =>
    match r.m with
    | none => ranges
    | some p =>
      .act (write (deleteMethod p)) fun _ =>
      .act (write (eraseMethod methodId codeAddr)) fun _ => ranges
  else exit

/-! ### Lookups -/

def getMethod (addr : ℕ) : CacheProg :=
  .act (getData addr) fun _ => .act (ret id fun r => .method r.m) fun _ => .done

def readMethod (p : Ptr) (f : CompiledMethod → CallFrame → CallFrame) : CacheAct :=
  onCache fun c r => (c.deref p).map fun m => (c, f m r)

def getMethodAt (addr : ℕ) : CacheProg :=
  .act (getData addr) fun r =>
  match r.m with
  | none => .act (ret id fun _ => .located none) fun _ => .done
  | some p =>
    .act (readMethod p fun m r => { r with methodId := m.methodId }) fun _ =>
    .act (readMethod p fun m r => { r with version := m.version }) fun _ =>
    .act (ret id fun r => .located (some (p, r.methodId, r.version))) fun _ => .done

def visit (p : Ptr) : CacheAct := readMethod p fun m r =>
  { r with
    retMethod :=
      match r.retMethod with
      | none => some (p, m)
      | some (q, best) => if best.version < m.version then some (p, m) else some (q, best) }

def mostRecent (next : CacheProg) : List Ptr → CacheProg
  | [] => next
  | p :: ps => .act (visit p) fun _ => mostRecent next ps

def getMethodOf (hashOrder : (AList fun _ : ℕ => Ptr) → List Ptr) (methodId : JMethodID) :
    CacheProg :=
  .act (findGroup methodId) fun r =>
  if r.found then
    .act (read fun c r => { r with
      retMethod := none
      elems := hashOrder (c.groupOf methodId).addressMethodMap }) fun r =>
    mostRecent (.act (ret id fun r => .method (r.retMethod.map Prod.fst)) fun _ => .done) r.elems
  else .act (ret id fun _ => .method none) fun _ => .done

def checkAndMove (methodId : JMethodID) : CacheProg :=
  let exit : CacheProg := .act (ret id fun _ => .nothing) fun _ => .done
  .act (findGroup methodId) fun r =>
  if r.found then exit
  else
    .act (write fun c =>
      { c with unCompiledMethodCache := insert methodId c.unCompiledMethodCache }) fun _ => exit

/-- Only `unsetLock` asserts that the lock is taken. -/
def cacheCode (hashOrder : (AList fun _ : ℕ => Ptr) → List Ptr) :
    Code ThreadId CacheSection CacheSystem CallFrame CacheFault where
  body
    | (t, .beginAdd methodId codeSize codeAddr) => beginAdd t methodId codeSize codeAddr
    | (t, .endAdd newMethod) => endAdd t newMethod
    | (_, .removeMethod methodId codeAddr) => removeMethod methodId codeAddr
    | (_, .getMethod addr) => getMethod addr
    | (_, .getMethodAt addr) => getMethodAt addr
    | (_, .getMethodOf methodId) => getMethodOf hashOrder methodId
    | (_, .checkAndMove methodId) => checkAndMove methodId
  asserts
    | .beginAdd .. => true
    | _ => false

/-! ## Whole sections -/

def sectionStep (hashOrder : (AList fun _ : ℕ => Ptr) → List Ptr) :
    ThreadId × CacheSection → CacheSystem → Except CacheFault (CacheSystem × Answer)
  | (t, .beginAdd methodId codeSize codeAddr), s =>
    (cacheStep (.load t methodId codeSize codeAddr) s).map (·, .nothing)
  | (t, .endAdd newMethod), s =>
    (cacheStep (.loaded t newMethod) s).map (·, .method (some newMethod))
  | (_, .removeMethod methodId codeAddr), s =>
    (cacheStep (.unload methodId codeAddr) s).map (·, .nothing)
  | (_, .getMethod addr), s => .ok (s, .method (s.cache.getMethod addr))
  | (_, .getMethodAt addr), s => (s.cache.getMethodAt addr).map (s, .located ·)
  | (_, .getMethodOf methodId), s =>
    (s.cache.getMethodOf hashOrder methodId).map (s, .method ·)
  | (_, .checkAndMove methodId), s =>
    .ok ({ s with cache := s.cache.checkAndMoveMethodToUncompiledSet methodId }, .nothing)

/-- A section as one step, which leaves its answer with the actor. -/
def wholeSection (hashOrder : (AList fun _ : ℕ => Ptr) → List Ptr) (e : ThreadId × CacheSection)
    (x : CacheSystem × (ThreadId → CallFrame)) :
    Except CacheFault (CacheSystem × (ThreadId → CallFrame)) :=
  (sectionStep hashOrder e x.1).map fun out =>
    (out.1, Function.update x.2 e.1 { answer := out.2 })

section Whole
variable {s : CacheSystem} {r : CallFrame} {t : ThreadId} {methodId : JMethodID} {codeSize : ℤ}
  {codeAddr addr : ℕ} {newMethod p : Ptr} {hashOrder : (AList fun _ : ℕ => Ptr) → List Ptr}

def close (out : CacheSystem × Answer) : CacheSystem × CallFrame := (out.1, { answer := out.2 })

theorem exec_write {f : CodeCacheManager → CodeCacheManager} {next : CallFrame → CacheProg} :
    (Prog.act (write f) next).exec (s, r) = (next r).exec ({ s with cache := f s.cache }, r) :=
  rfl

theorem exec_read {f : CodeCacheManager → CallFrame → CallFrame} {next : CallFrame → CacheProg} :
    (Prog.act (read f) next).exec (s, r) = (next (f s.cache r)).exec (s, f s.cache r) :=
  rfl

theorem exec_ret {note : CacheSystem → CacheSystem} {answer : CallFrame → Answer} :
    (Prog.act (ret note answer) fun _ => .done).exec (s, r) =
      .ok (note s, { answer := answer r }) :=
  rfl

theorem exec_beginAdd : (beginAdd t methodId codeSize codeAddr).exec (s, r) =
    (sectionStep hashOrder (t, .beginAdd methodId codeSize codeAddr) s).map close := by
  rw [beginAdd, exec_write, findGroup, exec_read]
  dsimp only
  cases hlookup : s.cache.methodIdMap.lookup methodId with
  | none =>
    simp only [Option.isSome_none, Bool.false_eq_true, if_false, exec_write, exec_ret]
    simp [sectionStep, cacheStep, close, Except.map, noteLoad, nextVersion, newGroup,
      CodeCacheManager.beginAdd, CodeCacheManager.groupOf, hlookup, AList.insert_insert]
  | some g =>
    simp only [Option.isSome_some, if_true, exec_write, exec_ret]
    simp [sectionStep, cacheStep, close, Except.map, noteLoad, nextVersion,
      CodeCacheManager.beginAdd, CodeCacheManager.groupOf]

theorem exec_endAdd : (endAdd t newMethod).exec (s, r) =
    (sectionStep hashOrder (t, .endAdd newMethod) s).map close := by
  cases hm : s.cache.adding t with
  | none =>
    simp [endAdd, Prog.exec, setMethod, onCache, hm, sectionStep, cacheStep,
      CodeCacheManager.endAdd, Except.map, bind, Except.bind]
  | some m =>
    cases hins : RangeSet.insert s.cache.methodRangeSet m.startAddr m.lastAddr newMethod with
    | none =>
      simp [endAdd, Prog.exec, setMethod, insertRange, onCache, hm, hins, sectionStep, cacheStep,
        CodeCacheManager.endAdd, Except.map, bind, Except.bind]
    | some ranges =>
      simp [endAdd, Prog.exec, setMethod, insertRange, write, ret, close, onCache, hm, hins,
        sectionStep, cacheStep, CodeCacheManager.endAdd, Except.map, bind, Except.bind]

theorem exec_removeMethod : (removeMethod methodId codeAddr).exec (s, r) =
    (sectionStep hashOrder (t, .removeMethod methodId codeAddr) s).map close := by
  rw [removeMethod, findGroup, exec_read]
  dsimp only
  cases hlookup : s.cache.methodIdMap.lookup methodId with
  | none =>
    simp [exec_ret, sectionStep, cacheStep, CodeCacheManager.removeMethod, hlookup, Except.map,
      bind, Except.bind, close]
  | some g =>
    simp only [Option.isSome_some, if_true, findMethod, exec_read, CodeCacheManager.groupOf,
      hlookup, Option.getD_some]
    cases hm : g.addressMethodMap.lookup codeAddr with
    | none =>
      cases hrem : RangeSet.remove s.cache.methodRangeSet codeAddr with
      | none =>
        simp [Prog.exec, removeRange, onCache, hrem, sectionStep, cacheStep,
          CodeCacheManager.removeMethod, hlookup, Except.map, bind, Except.bind]
      | some ranges =>
        simp [Prog.exec, removeRange, onCache, ret, hrem, sectionStep, cacheStep,
          CodeCacheManager.removeMethod, CodeCacheManager.removeMethodByAddr, hlookup, hm,
          Except.map, bind, Except.bind, close]
    | some p =>
      cases hrem : RangeSet.remove s.cache.methodRangeSet codeAddr with
      | none =>
        simp [Prog.exec, write, deleteMethod, eraseMethod, removeRange, onCache, hrem, sectionStep,
          cacheStep, CodeCacheManager.removeMethod, hlookup, Except.map, bind, Except.bind]
      | some ranges =>
        simp [Prog.exec, write, deleteMethod, eraseMethod, removeRange, onCache, ret, hrem,
          sectionStep, cacheStep, CodeCacheManager.removeMethod,
          CodeCacheManager.removeMethodByAddr, CodeCacheManager.groupOf, hlookup, hm,
          Except.map, bind, Except.bind, close]

theorem exec_getMethodAt : (getMethodAt addr).exec (s, r) =
    (sectionStep hashOrder (t, .getMethodAt addr) s).map close := by
  rw [getMethodAt, getData, exec_read]
  dsimp only
  cases hm : RangeSet.getData s.cache.methodRangeSet addr with
  | none =>
    simp [exec_ret, sectionStep, CodeCacheManager.getMethodAt, hm, Except.map, close]
  | some p =>
    cases hp : s.cache.deref p with
    | error e =>
      simp [Prog.exec, readMethod, onCache, hp, sectionStep, CodeCacheManager.getMethodAt, hm,
        Except.map, bind, Except.bind]
    | ok m =>
      simp [Prog.exec, readMethod, onCache, ret, hp, sectionStep, CodeCacheManager.getMethodAt,
        hm, Except.map, bind, Except.bind, close]

/-- The loop with one read a turn is the loop of `getMethodByVersion`. -/
theorem exec_mostRecent (next : CacheProg) (ps : List Ptr) :
    (mostRecent next ps).exec (s, r) =
      s.cache.mostRecent r.retMethod ps >>= fun ret =>
        next.exec (s, { r with retMethod := ret }) := by
  induction ps generalizing r with
  | nil =>
    rw [mostRecent, CodeCacheManager.mostRecent]
    rfl
  | cons p ps ih =>
    cases hp : s.cache.deref p with
    | error e =>
      cases hret : r.retMethod with
      | none =>
        simp [mostRecent, Prog.exec, visit, readMethod, onCache, hp, Except.map, bind, Except.bind,
          CodeCacheManager.mostRecent]
      | some q =>
        simp [mostRecent, Prog.exec, visit, readMethod, onCache, hp, Except.map, bind, Except.bind,
          CodeCacheManager.mostRecent]
    | ok m =>
      rw [mostRecent, Prog.exec, visit, readMethod, onCache, hp]
      simp only [Except.map, bind, Except.bind]
      rw [ih]
      cases hret : r.retMethod with
      | none => simp [CodeCacheManager.mostRecent, hp, bind, Except.bind]
      | some q => simp [CodeCacheManager.mostRecent, hp, bind, Except.bind]

theorem exec_getMethodOf : (getMethodOf hashOrder methodId).exec (s, r) =
    (sectionStep hashOrder (t, .getMethodOf methodId) s).map close := by
  rw [getMethodOf, findGroup, exec_read]
  dsimp only
  cases hlookup : s.cache.methodIdMap.lookup methodId with
  | none =>
    simp [exec_ret, sectionStep, CodeCacheManager.getMethodOf, hlookup, Except.map, close]
  | some g =>
    simp only [Option.isSome_some, if_true, exec_read, exec_mostRecent, exec_ret]
    simp only [CodeCacheManager.groupOf, hlookup, Option.getD_some, sectionStep,
      CodeCacheManager.getMethodOf, CodeCacheManager.getMethodByVersion]
    cases s.cache.mostRecent none (hashOrder g.addressMethodMap) <;> rfl

theorem exec_body (e : ThreadId × CacheSection) :
    ((cacheCode hashOrder).body e).exec (s, r) = (sectionStep hashOrder e s).map close := by
  obtain ⟨t, k⟩ := e
  cases k with
  | beginAdd methodId codeSize codeAddr => exact exec_beginAdd
  | endAdd newMethod => exact exec_endAdd
  | removeMethod methodId codeAddr => exact exec_removeMethod
  | getMethod addr => rfl
  | getMethodAt addr => exact exec_getMethodAt
  | getMethodOf methodId => exact exec_getMethodOf
  | checkAndMove methodId =>
    change (checkAndMove methodId).exec (s, r) = _
    rw [checkAndMove, findGroup, exec_read]
    cases hlookup : s.cache.methodIdMap.lookup methodId <;>
      simp [exec_write, exec_ret, sectionStep, hlookup, Except.map, close,
        CodeCacheManager.checkAndMoveMethodToUncompiledSet]

theorem atomically_eq : atomically (cacheCode hashOrder) = wholeSection hashOrder := by
  funext e x
  rw [atomically, exec_body, wholeSection]
  cases sectionStep hashOrder e x.1 <;> rfl

end Whole

/-! ## What is promised when a section takes the lock -/

def Announced : ThreadId × CacheSection → CacheSystem → Prop
  | (t, .beginAdd methodId codeSize codeAddr), s => Promised (.load t methodId codeSize codeAddr) s
  | (_, .endAdd newMethod), s => s.cache.heap newMethod = none
  | (_, .removeMethod methodId codeAddr), s => Promised (.unload methodId codeAddr) s
  | _, _ => True

def Ready (e : ThreadId × CacheSection) (x : CacheSystem × (ThreadId → CallFrame)) : Prop :=
  Announced e x.1 ∧ ∀ newMethod, e.2 = .endAdd newMethod → (x.1.jvm.loading e.1).isSome

section Sections
variable {s : CacheSystem} {t : ThreadId} {hashOrder : (AList fun _ : ℕ => Ptr) → List Ptr}
  {init x x' : CacheSystem × (ThreadId → CallFrame)} {left : List (ThreadId × CacheSection)}

theorem loading_of_loaded (j : Jvm) {u : ThreadId} (h : t ≠ u) :
    (j.loaded u).loading t = j.loading t := by
  unfold Jvm.loaded
  split
  · rfl
  · exact Function.update_of_ne h ..

theorem sectionStep_loading {e : ThreadId × CacheSection} {out : CacheSystem × Answer}
    (h : sectionStep hashOrder e s = .ok out) (ht : t ≠ e.1) :
    out.1.jvm.loading t = s.jvm.loading t := by
  obtain ⟨u, k⟩ := e
  cases k <;> rw [sectionStep] at h
  case beginAdd methodId codeSize codeAddr =>
    cases h
    exact Function.update_of_ne ht ..
  case endAdd newMethod =>
    obtain ⟨s', hs, rfl⟩ := map_eq_ok.mp h
    obtain ⟨cache, -, hs⟩ := bind_eq_ok.mp hs
    cases hs
    exact loading_of_loaded s.jvm ht
  case removeMethod methodId codeAddr =>
    obtain ⟨s', hs, rfl⟩ := map_eq_ok.mp h
    obtain ⟨cache, -, hs⟩ := bind_eq_ok.mp hs
    cases hs
    rfl
  case getMethodAt addr =>
    obtain ⟨a, -, rfl⟩ := map_eq_ok.mp h
    rfl
  case getMethodOf methodId =>
    obtain ⟨a, -, rfl⟩ := map_eq_ok.mp h
    rfl
  all_goals
    cases h
    rfl

theorem wholeSection_ok {e : ThreadId × CacheSection} :
    wholeSection hashOrder e x = .ok x' ↔ ∃ out, sectionStep hashOrder e x.1 = .ok out ∧
      x' = (out.1, Function.update x.2 e.1 { answer := out.2 }) := by
  rw [wholeSection, map_eq_ok]
  simp only [eq_comm]

theorem loading_of_beginAdd (hrun : run (wholeSection hashOrder) left init = .ok x)
    {methodId : JMethodID} {codeSize : ℤ} {codeAddr : ℕ}
    (hlast : ((left.filter fun e => e.1 = t).map Prod.snd).getLast? =
      some (.beginAdd methodId codeSize codeAddr)) : (x.1.jvm.loading t).isSome := by
  induction left using List.reverseRecOn generalizing x with
  | nil => simp at hlast
  | append_singleton left e ih =>
    obtain ⟨y, hy, hrun⟩ := run_append.mp hrun
    obtain ⟨x', hx, hx'⟩ := run_cons.mp hrun
    cases hx'
    obtain ⟨out, hout, rfl⟩ := wholeSection_ok.mp hx
    by_cases ht : e.1 = t
    · obtain ⟨u, k⟩ := e
      obtain rfl : u = t := ht
      simp only [List.filter_append, List.filter_cons, decide_true, if_true, List.filter_nil,
        List.map_append, List.map_cons, List.map_nil, List.getLast?_append, List.getLast?_singleton,
        Option.some_or, Option.some.injEq] at hlast
      subst hlast
      cases hout
      simp [Jvm.load]
    · rw [sectionStep_loading hout (Ne.symm ht)]
      apply ih hy
      simpa [ht] using hlast

theorem sections_endAdd {call : CacheCall} {newMethod : Ptr} {l r : List CacheSection}
    (h : call.sections = l ++ .endAdd newMethod :: r) :
    ∃ methodId codeSize codeAddr, l = [.beginAdd methodId codeSize codeAddr] := by
  cases call <;> obtain _ | ⟨k, _ | ⟨k', l⟩⟩ := l <;> simp [CacheCall.sections] at h
  case addMethodAndRemoveFromUncompiledSet.cons.nil =>
    exact ⟨_, _, _, by rw [h.1]⟩

/-- In what an actor runs, the second half of an addition comes right after the first. -/
theorem beginAdd_of_endAdd (calls : List CacheCall) {newMethod : Ptr} {l r : List CacheSection}
    (h : calls.flatMap CacheCall.sections = l ++ .endAdd newMethod :: r) :
    ∃ methodId codeSize codeAddr, l.getLast? = some (.beginAdd methodId codeSize codeAddr) := by
  induction calls generalizing l with
  | nil => simp at h
  | cons call calls ih =>
    rw [List.flatMap_cons] at h
    obtain ⟨l', hl, hl'⟩ | ⟨r', hr, hr'⟩ := List.append_eq_append_iff.mp h
    · obtain ⟨methodId, codeSize, codeAddr, hlast⟩ := ih hl'
      exact ⟨methodId, codeSize, codeAddr, by rw [hl, List.getLast?_append, hlast]; rfl⟩
    · cases r' with
      | nil =>
        obtain ⟨_, _, _, hlast⟩ := ih (l := []) hr'.symm
        simp at hlast
      | cons k r' =>
        obtain ⟨rfl, -⟩ := List.cons.inj hr'
        obtain ⟨methodId, codeSize, codeAddr, rfl⟩ := sections_endAdd hr
        exact ⟨methodId, codeSize, codeAddr, rfl⟩

theorem Coupled.uncompiled (h : Coupled s) (methodId : JMethodID) :
    Coupled { s with cache := s.cache.checkAndMoveMethodToUncompiledSet methodId } := by
  unfold CodeCacheManager.checkAndMoveMethodToUncompiledSet
  split
  · exact ⟨h.valid, h.owned, h.single, h.ranges, h.groups, h.versions, h.adding, h.issued, h.past⟩
  · exact h

variable (horder : ∀ map, (hashOrder map).Perm (map.entries.map Sigma.snd))
include horder

theorem coupled_section (h : Coupled s) {e : ThreadId × CacheSection}
    {locals : ThreadId → CallFrame} (hready : Ready e (s, locals)) :
    ∃ out, sectionStep hashOrder e s = .ok out ∧ Coupled out.1 := by
  have hans := h.answers horder
  obtain ⟨t, k⟩ := e
  cases k <;> simp only [sectionStep]
  case beginAdd methodId codeSize codeAddr =>
    have hpromised : Promised (.load t methodId codeSize codeAddr) s := hready.1
    obtain ⟨s', hs, hs'⟩ := h.step hpromised
    exact ⟨_, map_eq_ok.mpr ⟨s', hs, rfl⟩, hs'⟩
  case endAdd newMethod =>
    have hpromised : Promised (.loaded t newMethod) s := ⟨hready.2 newMethod rfl, hready.1⟩
    obtain ⟨s', hs, hs'⟩ := h.step hpromised
    exact ⟨_, map_eq_ok.mpr ⟨s', hs, rfl⟩, hs'⟩
  case removeMethod methodId codeAddr =>
    have hpromised : Promised (.unload methodId codeAddr) s := hready.1
    obtain ⟨s', hs, hs'⟩ := h.step hpromised
    exact ⟨_, map_eq_ok.mpr ⟨s', hs, rfl⟩, hs'⟩
  case getMethod addr => exact ⟨_, rfl, h⟩
  case getMethodAt addr =>
    by_cases hlive : ∃ m ∈ s.jvm.live, m.Covers addr
    · obtain ⟨m, hm, hcov⟩ := hlive
      obtain ⟨p, -, -, hat⟩ := hans.found addr m hm hcov
      exact ⟨_, map_eq_ok.mpr ⟨_, hat, rfl⟩, h⟩
    · have hmiss : ∀ m ∈ s.jvm.live, ¬m.Covers addr := fun m hm hcov => hlive ⟨m, hm, hcov⟩
      exact ⟨_, map_eq_ok.mpr ⟨_, (hans.missed addr hmiss).2, rfl⟩, h⟩
  case getMethodOf methodId =>
    by_cases hlive : ∃ m ∈ s.jvm.live, m.methodId = methodId
    · obtain ⟨p, m, hof, -⟩ := hans.latest methodId hlive
      exact ⟨_, map_eq_ok.mpr ⟨_, hof, rfl⟩, h⟩
    · have hnone : ∀ m ∈ s.jvm.live, m.methodId ≠ methodId := fun m hm hid => hlive ⟨m, hm, hid⟩
      exact ⟨_, map_eq_ok.mpr ⟨_, hans.absent methodId hnone, rfl⟩, h⟩
  case checkAndMove methodId => exact ⟨_, rfl, Coupled.uncompiled h methodId⟩

theorem reached_coupled {locals : ThreadId → CallFrame}
    (h : Reached (cacheCode hashOrder) Ready ({}, locals) left x) : Coupled x.1 := by
  have hkeep : ∀ e y, Coupled y.1 → Ready e y → Ensures (fun _ => False)
      (atomically (cacheCode hashOrder) e y) fun y => Coupled y.1 := by
    intro e y hy hready
    obtain ⟨out, hout, hcoupled⟩ := coupled_section horder hy hready
    rw [atomically_eq, wholeSection_ok.mpr ⟨out, hout, rfl⟩]
    exact .pure hcoupled
  exact (run_ensures hkeep coupled_init h.meets).ok x h.run

theorem reached_step {locals : ThreadId → CallFrame} {e : ThreadId × CacheSection}
    (h : Reached (cacheCode hashOrder) Ready ({}, locals) left x) (hready : Ready e x) :
    ∃ x', atomically (cacheCode hashOrder) e x = .ok x' := by
  obtain ⟨out, hout, -⟩ := coupled_section horder (reached_coupled horder h) hready
  rw [atomically_eq]
  exact ⟨_, wholeSection_ok.mpr ⟨out, hout, rfl⟩⟩

end Sections

/-! ## Interleaved calls -/

def CacheCall.start (prog : ThreadId → List CacheCall) :
    State ThreadId CacheSection CacheSystem CallFrame CacheFault :=
  SpinLock.start (fun t => (prog t).flatMap CacheCall.sections) ({}, fun _ => {})

/-- The calls have come to the same as whole sections one after another: every section was run
on a cache that answers by what is live, and what a call has returned is what the whole section
returns there. -/
structure Linearized (hashOrder : (AList fun _ : ℕ => Ptr) → List Ptr)
    (prog : ThreadId → List CacheCall)
    (s : State ThreadId CacheSection CacheSystem CallFrame CacheFault) : Prop where
  exclusive : ∀ t u, ¬(s.place t).IsBetween → ¬(s.place u).IsBetween → t = u
  program : ∀ t, s.program t = (prog t).flatMap CacheCall.sections
  whole : ∃ x, run (wholeSection hashOrder) s.left ({}, fun _ => {}) = .ok x ∧
    (∀ t, (s.place t).IsBetween → s.locals t = x.2 t) ∧ (s.word = 0 → s.shared = x.1)
  answers : ∀ l l', s.left = l ++ l' → ∃ x,
    run (wholeSection hashOrder) l ({}, fun _ => {}) = .ok x ∧ Answers hashOrder x.1

section Interleaved
variable {hashOrder : (AList fun _ : ℕ => Ptr) → List Ptr} {prog : ThreadId → List CacheCall}
  {s : State ThreadId CacheSection CacheSystem CallFrame CacheFault}

theorem ready_of_announced (h : Free (cacheCode hashOrder) Ready ({}, fun _ => {}) s)
    (hprog : ∀ t, s.program t = (prog t).flatMap CacheCall.sections) {t : ThreadId}
    (hann : AtEntry (fun e x => Announced e x.1) t s) : AtEntry Ready t s := by
  intro k todo hplace hword
  refine ⟨hann k todo hplace hword, ?_⟩
  rintro newMethod rfl
  have hcalls := (hprog t).symm
  rw [State.program, hplace] at hcalls
  obtain ⟨methodId, codeSize, codeAddr, hlast⟩ := beginAdd_of_endAdd (prog t) hcalls
  have hrun := h.reached.run
  rw [atomically_eq] at hrun
  exact loading_of_beginAdd hrun hlast

variable (horder : ∀ map, (hashOrder map).Perm (map.entries.map Sigma.snd))
include horder

theorem linear_ensures {t : ThreadId} (h : Linear (cacheCode hashOrder) Ready ({}, fun _ => {}) s)
    (hprog : ∀ t, s.program t = (prog t).flatMap CacheCall.sections)
    (hann : AtEntry (fun e x => Announced e x.1) t s) :
    Ensures (fun _ => True) (step (cacheCode hashOrder) t s) fun s' =>
      Linear (cacheCode hashOrder) Ready ({}, fun _ => {}) s' ∧
        ∀ t, s'.program t = (prog t).flatMap CacheCall.sections := by
  have hentry : AtEntry Ready t s := fun k todo hplace hword =>
    ready_of_announced (h.free_of_word hword) hprog hann k todo hplace hword
  have hstep := h.step hentry fun left x e hx hready => reached_step horder hx hready
  refine ⟨fun s' hs => ⟨hstep.ok s' hs, fun u => ?_⟩, hstep.error⟩
  rw [h.program_step hs u, hprog u]

theorem Linear.linearized (h : Linear (cacheCode hashOrder) Ready ({}, fun _ => {}) s)
    (hprog : ∀ t, s.program t = (prog t).flatMap CacheCall.sections) :
    Linearized hashOrder prog s := by
  obtain ⟨x, hx, hlocals, hshared⟩ : ∃ x,
      Reached (cacheCode hashOrder) Ready ({}, fun _ => {}) s.left x ∧
        (∀ t, (s.place t).IsBetween → s.locals t = x.2 t) ∧ (s.word = 0 → s.shared = x.1) := by
    cases h with
    | free h => exact ⟨_, h.reached, fun _ _ => rfl, fun _ => rfl⟩
    | held t k rest x h =>
      refine ⟨x, h.reached, fun u hu => h.frame u ?_, fun hword => ?_⟩
      · rintro rfl
        obtain ⟨todo, hplace⟩ := h.place
        exact not_isBetween_inside hplace hu
      · rw [h.word] at hword
        cases hword
  refine ⟨fun t u => h.exclusive, hprog, ⟨x, ?_, hlocals, hshared⟩, fun l l' hl => ?_⟩
  · rw [← atomically_eq]
    exact hx.run
  · rw [hl] at hx
    obtain ⟨y, hy⟩ := hx.of_append
    refine ⟨y, ?_, (reached_coupled horder hy).answers horder⟩
    rw [← atomically_eq]
    exact hy.run

/-- Under any schedule of the single actions of all threads and handlers, no assertion fails, no
deleted method is read, and the calls come to the same as whole sections. -/
theorem interleaved_linearized (prog : ThreadId → List CacheCall) (schedule : List ThreadId)
    (hann : Meets (step (cacheCode hashOrder)) (AtEntry fun e x => Announced e x.1) schedule
      (CacheCall.start prog)) :
    ∃ s, run (step (cacheCode hashOrder)) schedule (CacheCall.start prog) = .ok s ∧
      Linearized hashOrder prog s := by
  have hrun := run_ensures
    (P := fun s => Linear (cacheCode hashOrder) Ready ({}, fun _ => {}) s ∧
      ∀ t, s.program t = (prog t).flatMap CacheCall.sections)
    (fun t s hs hann => linear_ensures horder hs.1 hs.2 hann)
    ⟨linear_start _, fun t => rfl⟩ hann
  cases hs : run (step (cacheCode hashOrder)) schedule (CacheCall.start prog) with
  | error e => exact absurd trivial (hrun.error e hs)
  | ok s =>
    obtain ⟨hlinear, hprog⟩ := hrun.ok s hs
    exact ⟨s, rfl, Linear.linearized horder hlinear hprog⟩

end Interleaved

def addAndLookup : ThreadId → List CacheCall
  | 0 => [.addMethodAndRemoveFromUncompiledSet 7 16 4096 50]
  | 1 => [.getMethod 4100]
  | _ => []

theorem mayLoad_init {methodId : JMethodID} {codeSize : ℤ} {codeAddr : ℕ} {t : ThreadId}
    (hplaced : CompiledMethod.Placed ⟨methodId, 0, codeSize, codeAddr⟩) :
    ({} : Jvm).MayLoad t methodId ⟨methodId, 0, codeSize, codeAddr⟩ :=
  ⟨rfl, hplaced, by simp, by simp, by simp⟩

theorem interleaved_addAndLookup : ∃ s,
    run (step (cacheCode fun map => map.entries.map Sigma.snd)) [0, 1, 0, 0, 0, 0, 0, 0, 1, 0, 1]
      (CacheCall.start addAndLookup) = .ok s ∧
    Linearized (fun map => map.entries.map Sigma.snd) addAndLookup s := by
  refine interleaved_linearized (fun map => List.Perm.refl _) addAndLookup _ ⟨?_, fun s hs => ?_⟩
  · intro k todo hplace hword
    cases hplace
    exact mayLoad_init ⟨by decide, by decide⟩
  all_goals obtain rfl := Except.ok.inj hs
  -- while thread 0 is in its section, nobody takes the lock
  iterate 7
    refine ⟨fun k todo hplace hword => (by cases hword), fun s hs => ?_⟩
    obtain rfl := Except.ok.inj hs
  refine ⟨fun k todo hplace hword => (by cases hplace; trivial), fun s hs => ?_⟩
  obtain rfl := Except.ok.inj hs
  refine ⟨fun k todo hplace hword => (by cases hword), fun s hs => ?_⟩
  obtain rfl := Except.ok.inj hs
  exact ⟨fun k todo hplace hword => (by cases hword), fun s hs => trivial⟩

end Trace4J.Profiler.CodeCacheLock
