import Trace4J.Profiler.Metrics
import Trace4J.Profiler.Machine

/-!
# The calling-context tree of a thread

`ContextFrame`, `Context`, `ContextTree::addContext` and `constructContext`. A
`Context *` is the node's id, and ids are handed out in order from
`_id_counter`, so the nodes in `_context_map` are exactly those whose id is below
it.
-/

namespace Trace4J.Profiler

structure ContextFrame where
  binaryAddr : UInt64 := 0
  methodId : UInt64 := 0
  methodVersion : UInt32 := 0
  bci : ℤ := -1
deriving DecidableEq, Repr

structure CallFrame where
  lineno : ℤ
  methodId : UInt64
deriving DecidableEq, Repr

/-- What `AsyncGetCallTrace` leaves behind; a count of 0 or less is an error. -/
structure CallTrace where
  numFrames : ℤ
  frames : ℕ → CallFrame

/-- `ContextFrame::operator=(const ASGCT_CallFrame &)` on a fresh frame. -/
def ContextFrame.ofCallFrame (f : CallFrame) : ContextFrame :=
  { methodId := f.methodId, bci := f.lineno }

def contextRefEqual (a b : ContextFrame) : Bool :=
  a.bci == b.bci && a.methodId == b.methodId && a.binaryAddr == b.binaryAddr &&
    a.methodVersion == b.methodVersion

theorem contextRefEqual_iff {a b : ContextFrame} : contextRefEqual a b = true ↔ a = b := by
  cases a
  cases b
  simp only [contextRefEqual, Bool.and_eq_true, beq_iff_eq, ContextFrame.mk.injEq]
  tauto

structure Context where
  frame : ContextFrame := {}
  metrics : Option ContextMetrics := none
  children : List ℕ := []
  parent : Option ℕ := none

structure ContextTree where
  contextMap : ℕ → Context
  idCounter : ℕ

def contextTreeRootId : ℕ := 0

def ContextTree.new : ContextTree := ⟨fun _ => {}, 1⟩

namespace ContextTree

def findChild (t : ContextTree) (parent : ℕ) (frame : ContextFrame) : Option ℕ :=
  (t.contextMap parent).children.find? fun c => contextRefEqual (t.contextMap c).frame frame

def addChild (t : ContextTree) (parent child : ℕ) : ContextTree :=
  let p := t.contextMap parent
  let m := Function.update t.contextMap parent { p with children := p.children ++ [child] }
  { t with contextMap := Function.update m child { m child with parent := some parent } }

def addContext (t : ContextTree) (parent : ℕ) (frame : ContextFrame) : ContextTree × ℕ :=
  match t.findChild parent frame with
  | some child => (t, child)
  | none =>
    let ctxtId := t.idCounter
    let t' := { t with contextMap := Function.update t.contextMap ctxtId { frame := frame } }
    ({ t'.addChild parent ctxtId with idCounter := t.idCounter + 1 }, ctxtId)

def setMetrics (t : ContextTree) (ctxt : ℕ) (m : ContextMetrics) : ContextTree :=
  { t with contextMap :=
      Function.update t.contextMap ctxt { t.contextMap ctxt with metrics := some m } }

def addPath (t : ContextTree) (parent : ℕ) : List ContextFrame → ContextTree × ℕ
  | [] => (t, parent)
  | f :: fs =>
    let r := t.addContext parent f
    addPath r.1 r.2 fs

end ContextTree

/-- The caller frames `constructContext` adds, outermost first: index
`num_frames - 1` down to 1, so frame 0 is never among them. -/
def callerFrames (trace : CallTrace) : List ContextFrame :=
  ((List.range' 1 (trace.numFrames - 1).toNat).reverse).map fun i =>
    ContextFrame.ofCallFrame (trace.frames i)

def leafFrame (ip methodId : UInt64) (methodVersion : UInt32) : ContextFrame :=
  { binaryAddr := ip, methodId := methodId, methodVersion := methodVersion }

def constructContext (t : ContextTree) (trace : CallTrace) (ip methodId : UInt64)
    (methodVersion : UInt32) (calleeCtxtFrame : ContextFrame) : ContextTree × ℕ :=
  t.addPath contextTreeRootId
    (callerFrames trace ++ [leafFrame ip methodId methodVersion, calleeCtxtFrame])

end Trace4J.Profiler
