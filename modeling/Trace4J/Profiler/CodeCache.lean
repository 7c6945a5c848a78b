import Mathlib.Algebra.Ring.Int.Defs
import Mathlib.Algebra.Ring.Nat
import Mathlib.Data.Finset.Basic
import Mathlib.Data.List.AList
import Trace4J.Library.OrderedMap
import Trace4J.Library.Run

/-!
# The code cache

`CodeCacheManager` with its two indexes: the ranges of the compiled methods by start
address, and for each method id the compiled methods by start address. A
`CompiledMethod *` is a number, and `heap` is what stands behind it. An unordered
container is an association list; the order in which it is walked is a parameter.

`addMethodAndRemoveFromUncompiledSet` drops the lock in the middle, so it is two
functions here, and `adding` holds the call of each thread that is between them.
-/

namespace Trace4J.Profiler
open Library

abbrev JMethodID := UInt64
abbrev Ptr := ℕ
abbrev ThreadId := ℕ

/-! ## Range sets -/

structure Range (α : Type) where
  start : ℕ
  stop : ℕ
  data : α

abbrev RangeSet (α : Type) := OrderedMap ℕ (Range α)

namespace RangeSet
variable {α : Type}

/-- `none` is the failed assertion in the constructor of the range. -/
def insert (s : RangeSet α) (start stop : ℕ) (data : α) : Option (RangeSet α) :=
  if start ≤ stop then some (s.emplace start ⟨start, stop, data⟩) else none

def getRange (s : RangeSet α) (probeKey : ℕ) : Option (Range α) :=
  match s.floorEntry probeKey with
  | none => none
  | some it => if it.2.stop < probeKey then none else some it.2

def remove (s : RangeSet α) (start : ℕ) : Option (RangeSet α) :=
  match s.getRange start with
  | none => none
  | some probeRange => if probeRange.start = start then some (s.erase start) else none

def getData (s : RangeSet α) (probeKey : ℕ) : Option α :=
  (s.getRange probeKey).map Range.data

end RangeSet

/-! ## Compiled methods -/

structure CompiledMethod where
  methodId : JMethodID
  version : UInt32
  codeSize : ℤ
  startAddr : ℕ
deriving DecidableEq

def CompiledMethod.lastAddr (m : CompiledMethod) : ℕ :=
  ((m.startAddr + m.codeSize - 1) % 2 ^ 64).toNat

structure CompiledMethodGroup where
  recentVersion : UInt32 := 0
  addressMethodMap : AList fun _ : ℕ => Ptr := ∅

structure CodeCacheManager where
  methodRangeSet : RangeSet Ptr := .empty
  methodIdMap : AList fun _ : JMethodID => CompiledMethodGroup := ∅
  unCompiledMethodCache : Finset JMethodID := ∅
  heap : Ptr → Option CompiledMethod := fun _ => none
  adding : ThreadId → Option CompiledMethod := fun _ => none

inductive CacheFault
  | assertion
  | deletedMethod
  | notAdding

namespace CodeCacheManager

def groupOf (s : CodeCacheManager) (methodId : JMethodID) : CompiledMethodGroup :=
  (s.methodIdMap.lookup methodId).getD {}

/-- `addMethodAndRemoveFromUncompiledSet` up to `unsetLock`. -/
def beginAdd (s : CodeCacheManager) (t : ThreadId) (methodId : JMethodID) (codeSize : ℤ)
    (codeAddr : ℕ) : CodeCacheManager :=
  let methodGroup := s.groupOf methodId
  let version := methodGroup.recentVersion + 1
  { s with
    unCompiledMethodCache := s.unCompiledMethodCache.erase methodId
    methodIdMap := s.methodIdMap.insert methodId { methodGroup with recentVersion := version }
    adding := Function.update s.adding t (some ⟨methodId, version, codeSize, codeAddr⟩) }

/-- The same call from `setLock` on, with the object that `new` has returned. -/
def endAdd (s : CodeCacheManager) (t : ThreadId) (newMethod : Ptr) :
    Except CacheFault CodeCacheManager :=
  match s.adding t with
  | none => .error .notAdding
  | some m =>
    let methodGroup := s.groupOf m.methodId
    match s.methodRangeSet.insert m.startAddr m.lastAddr newMethod with
    | none => .error .assertion
    | some ranges => .ok { s with
        methodRangeSet := ranges
        methodIdMap := s.methodIdMap.insert m.methodId
          { methodGroup with
            addressMethodMap := methodGroup.addressMethodMap.insert m.startAddr newMethod }
        heap := Function.update s.heap newMethod (some m)
        adding := Function.update s.adding t none }

/-- `removeMethodByAddr`; what it deletes is no longer on the heap. -/
def removeMethodByAddr (s : CodeCacheManager) (methodId : JMethodID)
    (methodGroup : CompiledMethodGroup) (codeAddr : ℕ) : CodeCacheManager :=
  match methodGroup.addressMethodMap.lookup codeAddr with
  | none => s
  | some p => { s with
      methodIdMap := s.methodIdMap.insert methodId
        { methodGroup with addressMethodMap := methodGroup.addressMethodMap.erase codeAddr }
      heap := Function.update s.heap p none }

def removeMethod (s : CodeCacheManager) (methodId : JMethodID) (codeAddr : ℕ) :
    Except CacheFault CodeCacheManager :=
  match s.methodIdMap.lookup methodId with
  | none => .ok s
  | some methodGroup =>
    match s.methodRangeSet.remove codeAddr with
    | none => .error .assertion
    | some ranges => .ok { s.removeMethodByAddr methodId methodGroup codeAddr with
        methodRangeSet := ranges }

def deref (s : CodeCacheManager) (p : Ptr) : Except CacheFault CompiledMethod :=
  match s.heap p with
  | none => .error .deletedMethod
  | some m => .ok m

/-- `getMethod(addr)` -/
def getMethod (s : CodeCacheManager) (addr : ℕ) : Option Ptr := s.methodRangeSet.getData addr

/-- `getMethod(addr, method_id, version)` -/
def getMethodAt (s : CodeCacheManager) (addr : ℕ) :
    Except CacheFault (Option (Ptr × JMethodID × UInt32)) :=
  match s.methodRangeSet.getData addr with
  | none => .ok none
  | some p => do
    let m ← s.deref p
    .ok (some (p, m.methodId, m.version))

/-- The loop of `getMethodByVersion` for version 0, over the methods in the order given. -/
def mostRecent (s : CodeCacheManager) :
    Option (Ptr × CompiledMethod) → List Ptr → Except CacheFault (Option (Ptr × CompiledMethod))
  | ret, [] => .ok ret
  | none, p :: ps => do
    let m ← s.deref p
    mostRecent s (some (p, m)) ps
  | some (q, best), p :: ps => do
    let m ← s.deref p
    mostRecent s (if best.version < m.version then some (p, m) else some (q, best)) ps

def withVersion (s : CodeCacheManager) (version : UInt32) :
    List Ptr → Except CacheFault (Option Ptr)
  | [] => .ok none
  | p :: ps => do
    let m ← s.deref p
    if m.version = version then .ok (some p) else withVersion s version ps

def getMethodByVersion (s : CodeCacheManager) (methods : List Ptr) (version : UInt32) :
    Except CacheFault (Option Ptr) :=
  if version = 0 then do
    let ret ← s.mostRecent none methods
    .ok (ret.map Prod.fst)
  else s.withVersion version methods

/-- `getMethod(method_id)`, where a hash map is walked in the order `hashOrder`. -/
def getMethodOf (s : CodeCacheManager) (hashOrder : (AList fun _ : ℕ => Ptr) → List Ptr)
    (methodId : JMethodID) : Except CacheFault (Option Ptr) :=
  match s.methodIdMap.lookup methodId with
  | none => .ok none
  | some methodGroup => s.getMethodByVersion (hashOrder methodGroup.addressMethodMap) 0

def checkAndMoveMethodToUncompiledSet (s : CodeCacheManager) (methodId : JMethodID) :
    CodeCacheManager :=
  match s.methodIdMap.lookup methodId with
  | none => { s with unCompiledMethodCache := insert methodId s.unCompiledMethodCache }
  | some _ => s

end CodeCacheManager
end Trace4J.Profiler
