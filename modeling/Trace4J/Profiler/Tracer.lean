import Trace4J.Library.Run
import Trace4J.Profiler.Watchpoint

/-!
# The per-thread tracer

`OnSample`, `decoder`, `OnBranchWatchPoint`, `OnRetWatchPoint` and the trap
handler `OnWatchPoint` of the watchpoint library, over the thread-local state of
`profiler.cpp`. A failed assertion, an access outside `value[MAX_STACK]`, a pop of
an empty `std::stack` and a decoding loop that outlives its fuel are faults. The
field `log` is a history variable: no function reads it.
-/

namespace Trace4J.Profiler

def maxStack : ℤ := 64

inductive Fault
  | retCtxtStackEmpty
  | topNotZero
  | popEmpty
  | outOfBounds
  | assertion
  | outOfFuel
deriving DecidableEq, Repr

structure EventValueStack where
  top : ℤ
  value : ℤ → Row

structure BasicBlock where
  wpXedd : Inst
  wpIP : Addr
deriving DecidableEq, Repr

abbrev BasicBlockMap := Addr → Option BasicBlock

/-- The `(void *)-1` that marks a block whose watchpoint address is not known yet. -/
def noIP : Addr := -1

/-- `binary_addr`, `method_id` and `method_version` of a runtime call's frame. -/
def runtimeFrame : ContextFrame :=
  { binaryAddr := -3, methodId := -3, methodVersion := -3 }

/-- `sd` is the watchpoint that fired, `frame` the frame `ctxt` was looked up with. -/
structure Instance where
  depth : ℤ
  start : Row
  stop : Row
  newValue : Row
  ctxt : ℕ
  sd : SampleData
  frame : ContextFrame

/-- `enter` when `OnSample` or a compiled call opens an instance with the return
watchpoint it pushes, `record` when an instance is recorded. -/
inductive LogEntry
  | enter (depth : ℤ) (sd : SampleData)
  | record (inst : Instance)

structure Thread where
  cpuEventStack : EventValueStack
  cpuEventCntStack : EventValueStack
  eventRDCnt : Row
  eventTempCnt : UInt64
  runtimeCallTime : Row
  runtimeCallCount : Row
  wpStack : List SampleData
  retCtxtStack : List ℕ
  decodeInsCounter : ℕ
  basicBlockMap : BasicBlockMap
  prevIP : Addr
  watchPoint : WPRegisterInfo
  contextTree : ContextTree
  log : List LogEntry

def Thread.init : Thread where
  cpuEventStack := ⟨-1, fun _ _ => 0⟩
  cpuEventCntStack := ⟨-1, fun _ _ => 0⟩
  eventRDCnt := fun _ => 0
  eventTempCnt := 0
  runtimeCallTime := fun _ => 0
  runtimeCallCount := fun _ => 0
  wpStack := []
  retCtxtStack := []
  decodeInsCounter := 0
  basicBlockMap := fun _ => none
  prevIP := 0
  watchPoint := ⟨⟨0, 8, .invalid, 8, {}⟩, false⟩
  contextTree := .new
  log := []

structure Config where
  decodeThreshold : ℕ
  selectedMethod : Text
  curEventId : ℕ
  watermark : Watermark
  cv : ℚ → ℚ → ℚ
  fuel : ℕ

structure MethodInfo where
  methodId : UInt64
  version : UInt32
  name : Text
  startAddr : Addr
  endAddr : Addr

/-- Everything a handler reads from outside the thread-local state. The address
`(void *)-3` that marks a runtime call lies in the kernel's half of the address
space, where there is neither an instruction nor a compiled method. -/
structure Env where
  uCtxt : UContext
  code : Addr → Option Inst
  xedAgen : Inst → UContext → Addr
  getMethod : Addr → Option MethodInfo
  trace : CallTrace
  code_runtime : code (-3) = none
  getMethod_runtime : getMethod (-3) = none

structure SampleInput where
  env : Env
  ip : Addr
  reading : Row

/-- A trap: the counters as read on entry and as read again when each event is
re-based, whether it interrupts agent code, and the `pc`/`pcPrecise` collected
for it (`none` when `WP_CollectTriggerInfo` fails). -/
structure TrapInput where
  env : Env
  readCounter : Row
  rebase : Row
  insideAgent : Bool
  collected : Option (Addr × Bool)

structure TriggerInfo where
  sd : SampleData
  pc : Addr
  pcPrecise : Bool

def overEvents (n : ℕ) (new old : Row) : Row :=
  fun i => if 1 ≤ i ∧ i < n then new i else old i

def EventValueStack.store (st : EventValueStack) (n : ℕ) (d : ℤ) (new : Row) : EventValueStack :=
  { st with value := Function.update st.value d (overEvents n new (st.value d)) }

def checkIndex (n : ℕ) (d : ℤ) : Except Fault Unit :=
  if 1 < n ∧ ¬(0 ≤ d ∧ d < maxStack) then .error .outOfBounds else .ok ()

def popStack {α : Type} : List α → Except Fault (α × List α)
  | [] => .error .popEmpty
  | a :: as => .ok (a, as)

def orAssert {α : Type} : Option α → Except Fault α
  | none => .error .assertion
  | some a => .ok a

def subscribe (s : Thread) (sd : SampleData) : Thread :=
  { s with watchPoint := (wpSubscribe s.watchPoint sd).1 }

/-! ## The decoder -/

inductive DecodeStop
  | overThreshold
  | stop (xedd : Inst) (tempIp : Addr)

def knownBlock : Option BasicBlock → Option BasicBlock
  | none => none
  | some bb => if bb.wpIP = noIP then none else some bb

def insertBlock (map : BasicBlockMap) (ip : Addr) (bb : BasicBlock) : BasicBlockMap :=
  match map ip with
  | none => Function.update map ip (some bb)
  | some _ => map

/-- The instruction of one pass of the loop: the remembered stop of a known block,
else the one decoded at `TempIp`. A block is entered into the map at its first
instruction. -/
def fetchInst (code : Addr → Option Inst) (sampleIP : Addr) (bbInfo : Option BasicBlock)
    (tempIp : Addr) (map : BasicBlockMap) : Except Fault (Inst × Addr × BasicBlockMap) :=
  match knownBlock bbInfo with
  | some bb => .ok (bb.wpXedd, bb.wpIP, map)
  | none =>
    match code tempIp with
    | none => .error .assertion
    | some xedd =>
      .ok (xedd, tempIp,
        if tempIp = sampleIP then insertBlock map sampleIP ⟨xedd, noIP⟩ else map)

def decoderLoop (cfg : Config) (code : Addr → Option Inst) (decodeInsCounter : ℕ) (sampleIP : Addr)
    (bbInfo : Option BasicBlock) : ℕ → Addr → BasicBlockMap →
    Except Fault (DecodeStop × BasicBlockMap)
  | 0, _, _ => .error .outOfFuel
  | fuel + 1, tempIp, map =>
    if cfg.decodeThreshold ≤ decodeInsCounter then .ok (.overThreshold, map)
    else do
      let (xedd, tempIp, map) ← fetchInst code sampleIP bbInfo tempIp map
      match xedd.iclass.group, xedd.op0 with
      | .jump, .relbr disp =>
        decoderLoop cfg code decodeInsCounter sampleIP bbInfo fuel
          (tempIp + UInt64.ofNat xedd.length + disp) map
      | .default, _ =>
        decoderLoop cfg code decodeInsCounter sampleIP bbInfo fuel
          (tempIp + UInt64.ofNat xedd.length) map
      | _, _ => .ok (.stop xedd tempIp, map)

/-- `WP_xedd` and `WP_IP` are filled in at a stop when the block was already in
the map with an unknown watchpoint address. -/
def rememberStop (bbInfo : Option BasicBlock) (sampleIP : Addr) (xedd : Inst) (tempIp : Addr)
    (map : BasicBlockMap) : BasicBlockMap :=
  match bbInfo with
  | none => map
  | some bb => if bb.wpIP = noIP then Function.update map sampleIP (some ⟨xedd, tempIp⟩) else map

/-- The frame a branch watchpoint carries; the `method_id` of a call's is left 0. -/
def branchFrame (sampleIP : Addr) : ContextFrame := { binaryAddr := sampleIP, methodId := -2 }
def callFrame (sampleIP : Addr) : ContextFrame := { binaryAddr := sampleIP }

def execWatch (va : Addr) (frame : ContextFrame) : SampleData :=
  { va := va, watchType := .exec, calleeCtxtFrame := frame }

def armStop (sampleIP : Addr) (xedd : Inst) (tempIp : Addr) (s : Thread) : Except Fault Thread :=
  match xedd.iclass.group with
  | .ret =>
    if s.wpStack.length = 1 then do
      let (sd, wpRest) ← popStack s.wpStack
      let (_, retRest) ← popStack s.retCtxtStack
      .ok (subscribe { s with wpStack := wpRest, retCtxtStack := retRest } sd)
    else do
      let (sd, wpRest) ← popStack s.wpStack
      .ok (subscribe { s with wpStack := wpRest } (execWatch tempIp sd.calleeCtxtFrame))
  | .call =>
    .ok (subscribe { s with decodeInsCounter := s.decodeInsCounter + 1 }
      (execWatch tempIp (callFrame sampleIP)))
  | _ => .ok (subscribe s (execWatch tempIp (branchFrame sampleIP)))

def decoder (cfg : Config) (code : Addr → Option Inst) (sampleIP : Addr) (s : Thread) :
    Except Fault Thread := do
  let bbInfo := s.basicBlockMap sampleIP
  let (stop, map) ← decoderLoop cfg code s.decodeInsCounter sampleIP bbInfo cfg.fuel sampleIP
    s.basicBlockMap
  let s := { s with basicBlockMap := map }
  match stop with
  | .overThreshold =>
    let (sd, wpRest) ← popStack s.wpStack
    .ok { subscribe s sd with wpStack := wpRest }
  | .stop xedd tempIp =>
    armStop sampleIP xedd tempIp
      { s with basicBlockMap := rememberStop bbInfo sampleIP xedd tempIp map }

/-! ## Recording an instance -/

def returnCounts (n : ℕ) (top : ℤ) (s : Thread) : EventValueStack :=
  let cnt := s.cpuEventCntStack.store n top (s.cpuEventCntStack.value top + s.eventRDCnt)
  if top ≠ 0 then cnt.store n (top - 1) (cnt.value (top - 1) + s.eventRDCnt) else cnt

def checkCaller (n : ℕ) (top : ℤ) : Except Fault Unit :=
  if top ≠ 0 then checkIndex n (top - 1) else .ok ()

def flushReturn (n : ℕ) (top : ℤ) (s : Thread) : Except Fault Thread := do
  checkIndex n top
  checkCaller n top
  let cnt := returnCounts n top s
  let stop := s.cpuEventStack.value top + cnt.value top
  .ok { s with
    cpuEventCntStack := cnt
    cpuEventStack := if top = 0 then s.cpuEventStack.store n top stop else s.cpuEventStack
    eventRDCnt := overEvents n 0 s.eventRDCnt }

def flushOutermost (n : ℕ) (top : ℤ) (s : Thread) : Except Fault Thread := do
  checkIndex n top
  if 1 < n ∧ top ≠ 0 then .error .topNotZero
  else
    let cnt := s.cpuEventCntStack.store n top (s.cpuEventCntStack.value top + s.eventRDCnt)
    let stop := s.cpuEventStack.value top + cnt.value top
    .ok { s with
      cpuEventCntStack := cnt
      cpuEventStack := s.cpuEventStack.store n top stop }

/-- The part the three recording paths share: the context, its metrics and the
`start`/`end` pair of each event. `wpt->sd` points into the debug register, so the frame is
that of whatever is armed there by now. -/
def recordInstance (cfg : Config) (env : Env) (top : ℤ) (pc methodId : UInt64)
    (methodVersion : UInt32) (sd : SampleData)
    (flush : ℕ → ℤ → Thread → Except Fault Thread) (s : Thread) : Except Fault Thread := do
  let frame := s.watchPoint.sd.calleeCtxtFrame
  let (tree, trapCtxt) := constructContext s.contextTree env.trace pc methodId methodVersion frame
  if cfg.curEventId ≠ cfg.watermark.curWatermarkId then .error .assertion
  else
    let start := s.cpuEventStack.value top
    let s ← flush cfg.watermark.curWatermarkId top s
    let newValue := s.cpuEventCntStack.value top
    let stop := start + newValue
    let metrics ← orAssert (recordMetrics cfg.watermark cfg.cv (tree.contextMap trapCtxt).metrics
      start stop newValue)
    .ok { s with
      contextTree := tree.setMetrics trapCtxt metrics
      log := .record ⟨top, start, stop, newValue, trapCtxt, sd, frame⟩ :: s.log }

def decTops (s : Thread) : Thread :=
  { s with
    cpuEventStack := { s.cpuEventStack with top := s.cpuEventStack.top - 1 }
    cpuEventCntStack := { s.cpuEventCntStack with top := s.cpuEventCntStack.top - 1 } }

/-! ## Handlers -/

def accepts (cfg : Config) (method : MethodInfo) : Bool :=
  cfg.selectedMethod.isEmpty || decide (method.name = cfg.selectedMethod)

def readBaselines (n : ℕ) (reading : Row) (eventTempCnt : UInt64) : UInt64 :=
  (List.range' 1 (n - 1)).foldl (fun _ i => reading i) eventTempCnt

def returnWatch (va : Addr) (frame : ContextFrame) : SampleData :=
  { va := va, watchType := .rw, calleeCtxtFrame := frame }

/-- `OnSample` up to the call of `decoder`. -/
def openSample (cfg : Config) (ev : SampleInput) (method : MethodInfo) (s : Thread) : Thread :=
  let n := cfg.curEventId
  let top := s.cpuEventStack.top + 1
  let cntTop := if top ≠ 0 then 0 else s.cpuEventCntStack.top + 1
  let calleeCtxtFrame := leafFrame ev.ip method.methodId method.version
  let sd := returnWatch ev.env.uCtxt.sp calleeCtxtFrame
  let (tree, watchCtxt) := constructContext s.contextTree ev.env.trace ev.ip method.methodId
    method.version calleeCtxtFrame
  { s with
    decodeInsCounter := 0
    eventRDCnt := overEvents n 0 s.eventRDCnt
    eventTempCnt := readBaselines n ev.reading s.eventTempCnt
    cpuEventStack := { s.cpuEventStack with top := 0 }
    cpuEventCntStack := { s.cpuEventCntStack.store n 0 0 with top := cntTop }
    wpStack := [sd]
    retCtxtStack := [watchCtxt]
    contextTree := tree
    log := .enter 0 sd :: s.log }

def onSample (cfg : Config) (ev : SampleInput) (s : Thread) : Except Fault Thread :=
  match ev.env.getMethod ev.ip with
  | none => .ok s
  | some method =>
    if !accepts cfg method then .ok s
    else if cfg.curEventId < 1 then .error .assertion
    else decoder cfg ev.env.code ev.ip (openSample cfg ev method s)

def onRuntimeCall (cfg : Config) (retToIp : Addr) (s : Thread) : Except Fault Thread :=
  if cfg.curEventId < 1 then .error .assertion
  else .ok (subscribe { s with
      runtimeCallCount := overEvents cfg.curEventId 0 s.runtimeCallCount
      eventRDCnt := overEvents cfg.curEventId 0 s.eventRDCnt }
    (execWatch retToIp runtimeFrame))

/-- A call to a compiled method up to the call of `decoder`. -/
def openCall (cfg : Config) (env : Env) (calleeIP : Addr) (method : MethodInfo) (s : Thread) :
    Except Fault Thread := do
  let n := cfg.curEventId
  let top := s.cpuEventStack.top + 1
  if n < 1 then .error .assertion
  else
    checkIndex n (top - 1)
    checkIndex n top
    let cnt := s.cpuEventCntStack.store n (top - 1)
      (s.cpuEventCntStack.value (top - 1) + s.eventRDCnt)
    let stack := s.cpuEventStack.store n top
      (s.cpuEventStack.value (top - 1) + cnt.value (top - 1))
    let calleeCtxtFrame := leafFrame calleeIP method.methodId method.version
    let sd := returnWatch (env.uCtxt.sp - 8) calleeCtxtFrame
    let (tree, trapCtxt) := constructContext s.contextTree env.trace calleeIP method.methodId
      method.version calleeCtxtFrame
    .ok { s with
      cpuEventStack := { stack with top := top }
      cpuEventCntStack := { cnt.store n top 0 with top := s.cpuEventCntStack.top + 1 }
      eventRDCnt := overEvents n 0 s.eventRDCnt
      wpStack := sd :: s.wpStack
      retCtxtStack := trapCtxt :: s.retCtxtStack
      contextTree := tree
      log := .enter top sd :: s.log }

def methodOf (env : Env) (pc : Addr) : UInt64 × UInt32 :=
  match env.getMethod pc with
  | none => (0, 0)
  | some m => (m.methodId, m.version)

def onBranchWatchPoint (cfg : Config) (env : Env) (wpt : TriggerInfo) (s : Thread) :
    Except Fault Thread :=
  match env.code wpt.sd.va with
  | none => .ok s
  | some xedd =>
    match xedd.iclass.group with
    | .ret => do
      let top := s.cpuEventStack.top
      let (methodId, methodVersion) := methodOf env wpt.pc
      let s ← recordInstance cfg env top wpt.pc methodId methodVersion wpt.sd flushReturn
        { decTops s with prevIP := wpt.pc }
      let (_, retRest) ← popStack s.retCtxtStack
      let s := { s with retCtxtStack := retRest }
      if s.wpStack.isEmpty then .ok s
      else decoder cfg env.code (env.uCtxt.load env.uCtxt.sp) s
    | .cond | .jump => do
      let ip ← orAssert (resumeIp env.xedAgen wpt.sd.va xedd env.uCtxt)
      decoder cfg env.code ip s
    | .call => do
      let calleeIP ← orAssert (getBranchTarget env.xedAgen wpt.sd.va xedd env.uCtxt)
      match env.getMethod calleeIP with
      | none => onRuntimeCall cfg (wpt.sd.va + UInt64.ofNat xedd.length) s
      | some method => do
        let s ← openCall cfg env calleeIP method s
        decoder cfg env.code calleeIP s
    | .default => .ok s

/-- The repair of an imprecise `pc`; `none` when the repaired address is not sane. -/
def patchPC (env : Env) (method : MethodInfo) (wpt : TriggerInfo) (s : Thread) :
    Option (Addr × Addr) :=
  if wpt.pcPrecise then some (wpt.pc, s.prevIP)
  else
    let sweepStart := if method.startAddr < s.prevIP ∧ s.prevIP < wpt.pc then s.prevIP
      else method.startAddr
    let patchedIP := getPreviousInstruction env.code sweepStart method.endAddr wpt.pc
      (wpGetActiveAddresses s.watchPoint)
    if isPCSane wpt.pc patchedIP then some (patchedIP, patchedIP) else none

def closeRuntimeCall (n : ℕ) (s : Thread) : Thread :=
  { s with
    runtimeCallTime := overEvents n (s.runtimeCallTime + (s.eventRDCnt - s.runtimeCallCount))
      s.runtimeCallTime
    eventRDCnt := overEvents n s.runtimeCallCount s.eventRDCnt }

/-- Over the threshold the return watchpoint of the next instance is armed, and only
popped when it was accepted. -/
def armNext (s : Thread) : Thread :=
  match s.wpStack with
  | [] => s
  | sd :: wpRest =>
    let (wpi, ok) := wpSubscribe s.watchPoint sd
    { s with watchPoint := wpi, wpStack := if ok then wpRest else sd :: wpRest }

def onOverThreshold (cfg : Config) (env : Env) (method : MethodInfo) (wpt : TriggerInfo)
    (s : Thread) : Except Fault (Thread × TriggerAction) :=
  if s.retCtxtStack.isEmpty then .error .retCtxtStackEmpty
  else do
    let top := s.cpuEventStack.top
    let s := decTops (armNext s)
    match patchPC env method wpt s with
    | none => .ok (s, .disable)
    | some (pc, prevIP) => do
      let s ← recordInstance cfg env top pc method.methodId method.version wpt.sd flushReturn
        { s with prevIP := prevIP }
      let (_, retRest) ← popStack s.retCtxtStack
      .ok ({ s with retCtxtStack := retRest }, .triggered)

def onOutermostReturn (cfg : Config) (env : Env) (method : MethodInfo) (wpt : TriggerInfo)
    (s : Thread) : Except Fault (Thread × TriggerAction) := do
  let top := s.cpuEventStack.top
  let s := decTops s
  match patchPC env method wpt s with
  | none => .ok (s, .disable)
  | some (pc, prevIP) => do
    let s ← recordInstance cfg env top pc method.methodId method.version wpt.sd flushOutermost
      { s with prevIP := prevIP }
    .ok (s, .disable)

def resetTops (s : Thread) : Thread :=
  { s with
    cpuEventStack := { s.cpuEventStack with top := -1 }
    cpuEventCntStack := { s.cpuEventCntStack with top := -1 } }

def onRetWatchPoint (cfg : Config) (env : Env) (insideAgent : Bool) (wpt : TriggerInfo)
    (s : Thread) : Except Fault (Thread × TriggerAction) :=
  if insideAgent then .ok (s, .disable)
  else
    let wpt := { wpt with pc := if wpt.pc = 0 then env.uCtxt.pc else wpt.pc }
    if wpt.pc = 0 then .ok (resetTops s, .disable)
    else
      match env.getMethod wpt.pc with
      | none => .ok (decTops s, .disable)
      | some method =>
        if wpt.sd.calleeCtxtFrame.binaryAddr = -3 then do
          let s ← decoder cfg env.code wpt.sd.va
            (closeRuntimeCall cfg.watermark.curWatermarkId s)
          .ok (s, .triggered)
        else if cfg.decodeThreshold ≤ s.decodeInsCounter then
          onOverThreshold cfg env method wpt s
        else if wpt.sd.watchType = .exec then do
          let s ← onBranchWatchPoint cfg env wpt s
          .ok (s, .triggered)
        else onOutermostReturn cfg env method wpt s

/-- One pass of the counter loop of `OnWatchPoint`; `eventTempCnt` is a single
variable for all events. -/
def countEvent (readCounter rebase : Row) (acc : Row × UInt64) (i : ℕ) : Row × UInt64 :=
  (Function.update acc.1 i (acc.1 i + (readCounter i - acc.2)), rebase i)

def countEvents (n : ℕ) (readCounter rebase : Row) (acc : Row × UInt64) : Row × UInt64 :=
  (List.range' 1 (n - 1)).foldl (countEvent readCounter rebase) acc

def takeTrap (s : Thread) : Thread :=
  { s with watchPoint := { s.watchPoint with isActive := false } }

/-- `WP_DISABLE` also switches off a watchpoint that the callback armed in the slot. -/
def takeAction : TriggerAction → Thread → Thread
  | .disable, s => takeTrap s
  | .triggered, s => s

/-- The callback of a trap and the action it asks for; the counts are already in
`eventRDCnt`. -/
def dispatch (cfg : Config) (env : Env) (insideAgent : Bool) (collected : Option (Addr × Bool))
    (s : Thread) : Except Fault Thread :=
  match collected with
  | none => .ok (takeTrap s)
  | some (pc, pcPrecise) => do
    let (s', action) ← onRetWatchPoint cfg env insideAgent ⟨s.watchPoint.sd, pc, pcPrecise⟩
      (takeTrap s)
    .ok (takeAction action s')

def onWatchPoint (cfg : Config) (ev : TrapInput) (s : Thread) : Except Fault Thread :=
  if !s.watchPoint.isActive then .ok s
  else
    let (rd, tmp) := countEvents cfg.curEventId ev.readCounter ev.rebase
      (s.eventRDCnt, s.eventTempCnt)
    dispatch cfg ev.env ev.insideAgent ev.collected { s with eventRDCnt := rd, eventTempCnt := tmp }

inductive Event
  | sample (ev : SampleInput)
  | trap (ev : TrapInput)

def Event.env : Event → Env
  | .sample ev => ev.env
  | .trap ev => ev.env

def step (cfg : Config) : Event → Thread → Except Fault Thread
  | .sample ev, s => onSample cfg ev s
  | .trap ev, s => onWatchPoint cfg ev s

end Trace4J.Profiler
