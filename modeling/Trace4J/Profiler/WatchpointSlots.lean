import Mathlib.Data.List.AList
import Trace4J.Library.Run
import Trace4J.Profiler.Watchpoint

/-!
# The slots of the watchpoint library

`WP_Subscribe`, the trap handler and `WP_ThreadTerminate` with any number of slots, any
replacement policy and both ways of moving a breakpoint: in place, or by a new descriptor.
The kernel is the map of the open descriptors; which one it hands out is a parameter. A
descriptor of -1 is `none`.
-/

namespace Trace4J.Profiler.WatchpointSlots
open Library

abbrev Fd := ℕ

/-! ## Data -/

inductive ReplacementPolicy
  | auto | emptySlot | oldest | newest
deriving DecidableEq, Repr

inductive Reaction
  | disable | alreadyDisabled | disableAll | retain | triggered
deriving DecidableEq, Repr

inductive Victim
  | emptySlot | nonEmptySlot | noneAvailable
deriving DecidableEq, Repr

structure Config where
  isLBREnabled : Bool
  isWPModifyEnabled : Bool
  replacementPolicy : ReplacementPolicy

/-- `WP_Init`, by whether the kernel headers know how to modify a breakpoint. -/
def wpInit (fastBp : Bool) : Config := ⟨fastBp, fastBp, .oldest⟩

def samplesPostFullResetVal : ℕ := 1

def maxStack : ℕ := 128

structure RegisterInfo where
  sd : SampleData
  va : Addr
  startTime : ℤ
  fileHandle : Option Fd
  isActive : Bool
  samplePostFull : ℕ
  mmapBuffer : Bool

structure PerfEvent where
  bpAddr : Addr
  bpLen : ℕ
  bpType : WPAccess
  enabled : Bool

abbrev Events := AList fun _ : Fd => PerfEvent

structure ThreadData where
  watchPointArray : List RegisterInfo
  wpStack : List SampleData := []
  events : Events := ∅

/-- The last three end the process where the library is not at fault: a full stack of pushed
watchpoints, an event that cannot be opened, and a breakpoint that an open event refuses. -/
inductive Fault
  | assertion | outOfBounds | badDescriptor | unsupportedLen | stackFull | openFailed
  | modifyRefused
deriving DecidableEq, Repr

/-- What is outside the library when a watchpoint is armed: whether the kernel accepts the
breakpoint, for a new event or for the one that is modified, whether a new event can be given to
the thread and its buffer mapped, and the time stamp. -/
structure Arming where
  accepted : Bool
  owned : Bool
  mapped : Bool
  rdtsc : ℤ

/-- The random numbers of a search for a victim: the shuffle, and whether the `i`-th slot that is
visited is replaced. -/
structure Chance where
  shuffle : ℕ → ℕ
  replace : ℕ → ℕ → Bool

/-! ## Slots -/

namespace ThreadData

def slot (t : ThreadData) (i : ℕ) : Except Fault RegisterInfo :=
  match t.watchPointArray[i]? with
  | none => .error .outOfBounds
  | some wpi => .ok wpi

def put (t : ThreadData) (i : ℕ) (wpi : RegisterInfo) (events : Events) : ThreadData :=
  { t with watchPointArray := t.watchPointArray.set i wpi, events := events }

end ThreadData

def PerfEvent.switch (on : Bool) (e : PerfEvent) : PerfEvent := { e with enabled := on }

/-- `ioctl` on an event; it does nothing to a descriptor that is not open. -/
def ioctl (fd : Option Fd) (f : PerfEvent → PerfEvent) (events : Events) : Events :=
  match fd with
  | none => events
  | some fd =>
    match events.lookup fd with
    | none => events
    | some e => events.insert fd (f e)

def checkedIoctl (fd : Option Fd) (f : PerfEvent → PerfEvent) (events : Events) :
    Except Fault Events :=
  if (fd.bind events.lookup).isSome then .ok (ioctl fd f events) else .error .badDescriptor

/-- The `ioctl` that moves the breakpoint of an event, under `CHECK`; the kernel refuses an
address that is not aligned, for example. -/
def checkedModify (fd : Option Fd) (accepted : Bool) (e : PerfEvent) (events : Events) :
    Except Fault Events :=
  if (fd.bind events.lookup).isSome ∧ accepted = false then .error .modifyRefused
  else checkedIoctl fd (fun _ => e) events

def checkedClose (fd : Fd) (events : Events) : Except Fault Events :=
  if (events.lookup fd).isSome then .ok (events.erase fd) else .error .badDescriptor

def disableWatchpoint (i : ℕ) (t : ThreadData) : Except Fault ThreadData := do
  let wpi ← t.slot i
  if wpi.fileHandle = none then .error .assertion
  else
    let events ← checkedIoctl wpi.fileHandle (.switch false) t.events
    .ok (t.put i { wpi with isActive := false } events)

def disArm (i : ℕ) (t : ThreadData) : Except Fault ThreadData := do
  let wpi ← t.slot i
  match wpi.fileHandle with
  | none => .error .assertion
  | some fd =>
    let events ← checkedClose fd t.events
    .ok (t.put i { wpi with mmapBuffer := false, fileHandle := none, isActive := false } events)

def disableWatchpointWrapper (cfg : Config) (i : ℕ) (t : ThreadData) : Except Fault ThreadData := do
  let wpi ← t.slot i
  if cfg.isWPModifyEnabled ∧ wpi.isActive then disableWatchpoint i t
  else if ¬cfg.isWPModifyEnabled ∧ wpi.fileHandle ≠ none then disArm i t
  else .ok t

/-- The event that is asked for; an execution breakpoint has the length of a `long`. -/
def perfEventOf (sampleData : SampleData) : PerfEvent where
  bpAddr := sampleData.va
  bpLen := if sampleData.watchType = .exec then 8 else sampleData.watchLen
  bpType := if sampleData.watchType = .invalid then .rw else sampleData.watchType
  enabled := true

def RegisterInfo.arm (wpi : RegisterInfo) (sampleData : SampleData) (rdtsc : ℤ) : RegisterInfo :=
  { wpi with isActive := true, va := sampleData.va, sd := sampleData, startTime := rdtsc }

section Arm
variable (cfg : Config) (alloc : Events → Fd)

def createWatchPoint (i : ℕ) (sampleData : SampleData) (modify : Bool) (a : Arming)
    (t : ThreadData) : Except Fault ThreadData := do
  let wpi ← t.slot i
  if validateWPData sampleData = false then .error .unsupportedLen
  else if modify then
    if wpi.fileHandle = none ∨ wpi.mmapBuffer = false then .error .assertion
    else
      let events ← checkedModify wpi.fileHandle a.accepted (perfEventOf sampleData) t.events
      .ok (t.put i (wpi.arm sampleData a.rdtsc) events)
  else if a.accepted then
    let perfFd := alloc t.events
    let events := t.events.insert perfFd (perfEventOf sampleData)
    -- without an owner the event stays open and nobody knows it
    if a.owned = false then .ok { t with events := events }
    else
      let wpi := { wpi with
        fileHandle := some perfFd
        mmapBuffer := cfg.isLBREnabled && a.mapped }
      .ok (t.put i (wpi.arm sampleData a.rdtsc) events)
  else .error .openFailed

def armWatchPoint (i : ℕ) (sampleData : SampleData) (a : Arming) (t : ThreadData) :
    Except Fault ThreadData := do
  let wpi ← t.slot i
  if cfg.isWPModifyEnabled ∧ wpi.fileHandle ≠ none then
    createWatchPoint cfg alloc i sampleData true a t
  else
    let t ← if wpi.isActive then disArm i t else .ok t
    createWatchPoint cfg alloc i sampleData false a t

end Arm

/-! ## The victim -/

def RegisterInfo.bump (wpi : RegisterInfo) : RegisterInfo :=
  { wpi with samplePostFull := wpi.samplePostFull + 1 }

def swap (l : List ℕ) (i j : ℕ) : List ℕ :=
  match l[i]?, l[j]? with
  | some a, some b => (l.set i b).set j a
  | _, _ => l

def shuffled (chance : Chance) (n : ℕ) : List ℕ :=
  (List.range n).foldl (fun l i => swap l i (chance.shuffle i % n)) (List.range n)

/-- The attempts to replace each slot with its own probability, in the shuffled order. -/
def attempt (chance : Chance) : ℕ → List ℕ → List RegisterInfo → Option ℕ × List RegisterInfo
  | _, [], slots => (none, slots)
  | i, loc :: rest, slots =>
    let probability := (slots[loc]?.map RegisterInfo.samplePostFull).getD 0
    let slots := slots.modify loc .bump
    if chance.replace i probability then
      (some loc, rest.foldl (fun slots loc => slots.modify loc .bump) slots)
    else attempt chance (i + 1) rest slots

/-- The slot of the extreme start time: `better` compares with the best so far. -/
def extreme (better : ℤ → ℤ → Bool) (slots : List RegisterInfo) (best : ℤ) : Option ℕ :=
  (slots.zipIdx.foldl (fun acc e =>
    if better acc.2 e.1.startTime then (some e.2, e.1.startTime) else acc) (none, best)).1

def getVictim (policy : ReplacementPolicy) (chance : Chance) (slots : List RegisterInfo) :
    Victim × Option ℕ × List RegisterInfo :=
  match slots.findIdx? fun wpi => !wpi.isActive with
  | some i =>
    (.emptySlot, some i, slots.map fun wpi => if wpi.isActive then wpi.bump else wpi)
  | none =>
    match policy with
    | .auto =>
      let order := shuffled chance slots.length
      match attempt chance 0 order slots with
      | (some loc, slots) => (.nonEmptySlot, some loc, slots)
      | (none, slots) => (.noneAvailable, order.head?, slots)
    | .newest => (.nonEmptySlot, extreme (fun best s => best < s) slots 0, slots)
    | .oldest =>
      (.nonEmptySlot, extreme (fun best s => s < best) slots (2 ^ 63 - 1), slots)
    | .emptySlot => (.noneAvailable, none, slots)

/-! ## The interface -/

def isOverlappedAny (sampleData : SampleData) (t : ThreadData) : Bool :=
  t.watchPointArray.any fun wpi =>
    wpi.isActive && addressesOverlap wpi.sd.va wpi.sd.watchLen sampleData.va sampleData.watchLen

def push (i : ℕ) (t : ThreadData) : Except Fault ThreadData := do
  let wpi ← t.slot i
  if t.wpStack.length = maxStack then .error .stackFull
  else .ok { t with wpStack := wpi.sd :: t.wpStack }

/-- Only the variance client pushes a watchpoint that it replaces. -/
def pushVictim (isVarianceClient : Bool) (r : Victim) (i : ℕ) (t : ThreadData) :
    Except Fault ThreadData :=
  if isVarianceClient ∧ r = .nonEmptySlot then push i t else .ok t

section Interface
variable (cfg : Config) (alloc : Events → Fd)

def subscribe (sampleData : SampleData) (isVarianceClient : Bool) (chance : Chance) (a : Arming)
    (t : ThreadData) : Except Fault (Bool × ThreadData) :=
  if validateWPData sampleData = false ∨ isOverlappedAny sampleData t then .ok (false, t)
  else
    match getVictim cfg.replacementPolicy chance t.watchPointArray with
    | (.noneAvailable, _, slots) => .ok (false, { t with watchPointArray := slots })
    | (_, none, _) => .error .outOfBounds
    | (r, some victimLocation, slots) => do
      let t := { t with watchPointArray := slots }
      let t ← pushVictim isVarianceClient r victimLocation t
      let t ← armWatchPoint cfg alloc victimLocation sampleData a t
      .ok (true, t)

def resetProbability (i : ℕ) (t : ThreadData) : Except Fault ThreadData := do
  let wpi ← t.slot i
  .ok { t with watchPointArray :=
    t.watchPointArray.set i { wpi with samplePostFull := samplesPostFullResetVal } }

def disableSlot (onlyActive : Bool) (i : ℕ) (t : ThreadData) : Except Fault ThreadData := do
  let wpi ← t.slot i
  if onlyActive ∧ wpi.isActive = false then .ok t else disableWatchpointWrapper cfg i t

def disableSlots (onlyActive : Bool) (is : List ℕ) (t : ThreadData) :
    Except Fault ThreadData :=
  is.foldlM (fun t i => disableSlot cfg onlyActive i t >>= resetProbability i) t

def disableAllWatchPoints (t : ThreadData) : Except Fault ThreadData :=
  disableSlots cfg true (List.range t.watchPointArray.length) t

/-- What the client asks the library for, also from within its callback. -/
inductive Call
  | subscribe (sampleData : SampleData) (isVarianceClient : Bool) (chance : Chance) (a : Arming)
  | disableAll

def callStep : Call → ThreadData → Except Fault ThreadData
  | .subscribe sampleData isVarianceClient chance a, t =>
    (subscribe cfg alloc sampleData isVarianceClient chance a t).map Prod.snd
  | .disableAll, t => disableAllWatchPoints cfg t

/-! ## The trap handler -/

/-- `linux_perf_events_pause` and `linux_perf_events_resume` -/
def switchAll (on : Bool) (t : ThreadData) : ThreadData :=
  { t with events := t.watchPointArray.foldl (fun events wpi =>
      if wpi.isActive then ioctl wpi.fileHandle (.switch on) events else events) t.events }

def rearm (i : ℕ) (a : Arming) (t : ThreadData) : Except Fault ThreadData :=
  match t.wpStack with
  | [] => .ok t
  | sd :: wpStack => armWatchPoint cfg alloc i sd a { t with wpStack := wpStack }

def react (i : ℕ) (a : Arming) (t : ThreadData) : Reaction → Except Fault ThreadData
  | .triggered => .ok t
  | .disable => do
    let t ← disableWatchpointWrapper cfg i t
    let t ← resetProbability i t
    rearm cfg alloc i a t
  | .disableAll => disableSlots cfg false (List.range t.watchPointArray.length) t
  | .alreadyDisabled => do
    let wpi ← t.slot i
    if wpi.isActive then .error .assertion
    else
      let t ← resetProbability i t
      rearm cfg alloc i a t
  | .retain => do
    let wpi ← t.slot i
    if wpi.isActive then .ok t
    else
      let events ← checkedIoctl wpi.fileHandle (.switch true) t.events
      .ok (t.put i { wpi with isActive := true } events)

/-- `OnWatchPoint`. The callback asks for `calls` and returns `reaction`; a sample whose record is
dropped is one that asks for nothing and returns `disable`. -/
def onWatchPoint (siFd : Fd) (calls : List Call) (reaction : Reaction) (a : Arming)
    (t : ThreadData) : Except Fault ThreadData := do
  let t := switchAll false t
  match t.watchPointArray.findIdx? fun wpi => wpi.isActive && wpi.fileHandle == some siFd with
  | none => .ok (switchAll true t)
  | some location =>
    let t ← disableWatchpoint location t
    let t ← run (callStep cfg alloc) calls t
    let t ← react cfg alloc location a t reaction
    .ok (switchAll true t)

inductive Event
  | call (c : Call)
  | trap (siFd : Fd) (calls : List Call) (reaction : Reaction) (a : Arming)

def eventStep : Event → ThreadData → Except Fault ThreadData
  | .call c, t => callStep cfg alloc c t
  | .trap siFd calls reaction a, t => onWatchPoint cfg alloc siFd calls reaction a t

end Interface

/-- `WP_ThreadInit` on the memory that `malloc` returns. -/
def threadInit (memory : List RegisterInfo) : ThreadData where
  watchPointArray := memory.map fun wpi => { wpi with
    isActive := false
    fileHandle := none
    startTime := 0
    samplePostFull := samplesPostFullResetVal }

def terminateSlot (t : ThreadData) (i : ℕ) : Except Fault ThreadData := do
  let wpi ← t.slot i
  if wpi.fileHandle ≠ none then disArm i t else .ok t

def threadTerminate (t : ThreadData) : Except Fault ThreadData :=
  (List.range t.watchPointArray.length).foldlM terminateSlot t

/-! ## What holds of the slots -/

/-- The event watches what the slot was armed with, whether or not it is enabled now. -/
def PerfEvent.Watches (e : PerfEvent) (sd : SampleData) : Prop := e.switch true = perfEventOf sd

structure SlotOk (cfg : Config) (events : Events) (wpi : RegisterInfo) : Prop where
  opened : ∀ fd, wpi.fileHandle = some fd → ∃ e, events.lookup fd = some e ∧
    e.Watches wpi.sd ∧ (wpi.isActive = false → e.enabled = false)
  armed : wpi.fileHandle ≠ none → wpi.va = wpi.sd.va ∧ validateWPData wpi.sd = true ∧
    0 < wpi.startTime ∧ wpi.startTime < 2 ^ 63 - 1 ∧ wpi.mmapBuffer = cfg.isLBREnabled
  active : wpi.isActive = true → wpi.fileHandle ≠ none

/-- Every open descriptor belongs to one slot, and every slot has the event that it says. -/
structure Sound (cfg : Config) (t : ThreadData) : Prop where
  owned : ∀ fd, (t.events.lookup fd).isSome →
    ∃ (i : ℕ) (wpi : RegisterInfo), t.watchPointArray[i]? = some wpi ∧ wpi.fileHandle = some fd
  distinct : ∀ (i j : ℕ) (a b : RegisterInfo) (fd : Fd), t.watchPointArray[i]? = some a →
    t.watchPointArray[j]? = some b → a.fileHandle = some fd → b.fileHandle = some fd → i = j
  slots : ∀ (i : ℕ) (wpi : RegisterInfo), t.watchPointArray[i]? = some wpi → SlotOk cfg t.events wpi
  stack : ∀ sd ∈ t.wpStack, validateWPData sd = true

structure Replaces (t : ThreadData) (i : ℕ) (wpi wpi' : RegisterInfo) (events : Events) :
    Prop where
  slot : t.watchPointArray[i]? = some wpi
  frame : ∀ fd, wpi.fileHandle ≠ some fd → wpi'.fileHandle ≠ some fd →
    events.lookup fd = t.events.lookup fd
  closed : ∀ fd, wpi.fileHandle = some fd → wpi'.fileHandle ≠ some fd → events.lookup fd = none
  opened : ∀ fd, wpi'.fileHandle = some fd →
    wpi.fileHandle = some fd ∨ t.events.lookup fd = none

section Put
variable {cfg : Config} {t : ThreadData} {i j : ℕ} {wpi wpi' a : RegisterInfo} {events : Events}
  {fd : Fd}

theorem getElem?_put (h : t.watchPointArray[i]? = some wpi) :
    (t.put i wpi' events).watchPointArray[j]? =
      if i = j then some wpi' else t.watchPointArray[j]? := by
  have hi : i < t.watchPointArray.length := (List.getElem?_eq_some_iff.mp h).1
  rw [ThreadData.put, List.getElem?_set]
  split_ifs <;> rfl

theorem Sound.lookup_of_slot (h : Sound cfg t) (ha : t.watchPointArray[j]? = some a)
    (hfd : a.fileHandle = some fd) : (t.events.lookup fd).isSome := by
  obtain ⟨e, he, -⟩ := (h.slots j a ha).opened fd hfd
  rw [he]
  rfl

theorem Replaces.others (h : Sound cfg t) (hr : Replaces t i wpi wpi' events) (hj : j ≠ i)
    (ha : t.watchPointArray[j]? = some a) (hfd : a.fileHandle = some fd) :
    wpi.fileHandle ≠ some fd ∧ wpi'.fileHandle ≠ some fd ∧
      events.lookup fd = t.events.lookup fd := by
  have hold : wpi.fileHandle ≠ some fd := fun hw => hj (h.distinct j i a wpi fd ha hr.slot hfd hw)
  have hnew : wpi'.fileHandle ≠ some fd := by
    intro hw
    obtain hw | hw := hr.opened fd hw
    · exact hold hw
    · have hopen := h.lookup_of_slot ha hfd
      rw [hw] at hopen
      cases hopen
  exact ⟨hold, hnew, hr.frame fd hold hnew⟩

structure Only (i : ℕ) (t t' : ThreadData) : Prop where
  slots : ∃ wpi', t'.watchPointArray = t.watchPointArray.set i wpi'
  frame : ∀ (j : ℕ) (b : RegisterInfo) (fd : Fd), j ≠ i → t.watchPointArray[j]? = some b →
    b.fileHandle = some fd → t'.events.lookup fd = t.events.lookup fd
  stack : t'.wpStack = t.wpStack

theorem Replaces.only (h : Sound cfg t) (hr : Replaces t i wpi wpi' events) :
    Only i t (t.put i wpi' events) :=
  ⟨⟨wpi', rfl⟩, fun _ _ _ hj hb hfd => (hr.others h hj hb hfd).2.2, rfl⟩

theorem Only.other {t' : ThreadData} (h : Only i t t') (hj : j ≠ i) :
    t'.watchPointArray[j]? = t.watchPointArray[j]? := by
  obtain ⟨wpi', hslots⟩ := h.slots
  rw [hslots, List.getElem?_set_ne (Ne.symm hj)]

theorem Only.length {t' : ThreadData} (h : Only i t t') :
    t'.watchPointArray.length = t.watchPointArray.length := by
  obtain ⟨wpi', hslots⟩ := h.slots
  rw [hslots, List.length_set]

theorem Only.trans {t' t'' : ThreadData} (h : Only i t t') (h' : Only i t' t'') : Only i t t'' := by
  obtain ⟨wpi', hslots⟩ := h.slots
  obtain ⟨wpi'', hslots'⟩ := h'.slots
  refine ⟨⟨wpi'', by rw [hslots', hslots, List.set_set]⟩, fun j b fd hj hb hfd => ?_,
    h'.stack.trans h.stack⟩
  rw [h'.frame j b fd hj ((h.other hj).trans hb) hfd, h.frame j b fd hj hb hfd]

theorem SlotOk.congr {events' : Events} (h : SlotOk cfg events wpi)
    (heq : ∀ fd, wpi.fileHandle = some fd → events'.lookup fd = events.lookup fd) :
    SlotOk cfg events' wpi := by
  refine ⟨fun fd hfd => ?_, h.armed, h.active⟩
  rw [heq fd hfd]
  exact h.opened fd hfd

theorem Sound.put (h : Sound cfg t) (hr : Replaces t i wpi wpi' events)
    (hok : SlotOk cfg events wpi') : Sound cfg (t.put i wpi' events) where
  owned fd hfd := by
    simp only [getElem?_put hr.slot]
    by_cases hw' : wpi'.fileHandle = some fd
    · exact ⟨i, wpi', by simp, hw'⟩
    · have hw : wpi.fileHandle ≠ some fd := by
        intro hw
        change (events.lookup fd).isSome at hfd
        rw [hr.closed fd hw hw'] at hfd
        cases hfd
      change (events.lookup fd).isSome at hfd
      rw [hr.frame fd hw hw'] at hfd
      obtain ⟨j, b, hb, hbfd⟩ := h.owned fd hfd
      have hj : i ≠ j := by
        rintro rfl
        rw [hr.slot] at hb
        cases hb
        exact hw hbfd
      exact ⟨j, b, by rw [if_neg hj]; exact hb, hbfd⟩
  distinct j k a b fd ha hb hafd hbfd := by
    rw [getElem?_put hr.slot] at ha hb
    split_ifs at ha hb with hj hk hk
    · exact hj.symm.trans hk
    · cases ha
      exact absurd hafd (hr.others h (Ne.symm hk) hb hbfd).2.1
    · cases hb
      exact absurd hbfd (hr.others h (Ne.symm hj) ha hafd).2.1
    · exact h.distinct j k a b fd ha hb hafd hbfd
  slots j a ha := by
    rw [getElem?_put hr.slot] at ha
    split_ifs at ha with hj
    · cases ha
      exact hok
    · exact (h.slots j a ha).congr fun fd hfd => (hr.others h (Ne.symm hj) ha hfd).2.2
  stack := h.stack

end Put

/-! ## The probabilities -/

def RegisterInfo.core (wpi : RegisterInfo) : RegisterInfo := { wpi with samplePostFull := 0 }

def SameSlots (slots slots' : List RegisterInfo) : Prop :=
  slots'.map RegisterInfo.core = slots.map RegisterInfo.core

section Same
variable {slots slots' slots'' : List RegisterInfo} {cfg : Config} {events : Events} {i : ℕ}
  {wpi wpi' : RegisterInfo} {t : ThreadData}

theorem SameSlots.trans (h : SameSlots slots slots') (h' : SameSlots slots' slots'') :
    SameSlots slots slots'' := Eq.trans h' h

theorem SameSlots.length_eq (h : SameSlots slots slots') : slots'.length = slots.length := by
  simpa using congrArg List.length h

theorem SameSlots.of_getElem? (h : SameSlots slots slots') (hw : slots'[i]? = some wpi) :
    ∃ wpi', slots[i]? = some wpi' ∧ wpi'.core = wpi.core := by
  have hi := congrArg (·[i]?) h
  simp only [List.getElem?_map, hw, Option.map_some] at hi
  obtain ⟨wpi', hw', hcore⟩ := Option.map_eq_some_iff.mp hi.symm
  exact ⟨wpi', hw', hcore⟩

theorem SameSlots.symm (h : SameSlots slots slots') : SameSlots slots' slots := Eq.symm h

theorem core_fields (h : wpi'.core = wpi.core) : wpi'.fileHandle = wpi.fileHandle ∧
    wpi'.isActive = wpi.isActive ∧ wpi'.sd = wpi.sd ∧ wpi'.va = wpi.va ∧
    wpi'.startTime = wpi.startTime ∧ wpi'.mmapBuffer = wpi.mmapBuffer := by
  obtain ⟨sd, va, startTime, fileHandle, isActive, n, mmapBuffer⟩ := wpi
  obtain ⟨sd', va', startTime', fileHandle', isActive', n', mmapBuffer'⟩ := wpi'
  simp only [RegisterInfo.core, RegisterInfo.mk.injEq] at h
  obtain ⟨hsd, hva, htime, hfd, hactive, -, hmap⟩ := h
  exact ⟨hfd, hactive, hsd, hva, htime, hmap⟩

theorem SlotOk.of_core (h : SlotOk cfg events wpi') (hcore : wpi'.core = wpi.core) :
    SlotOk cfg events wpi := by
  obtain ⟨hfd, hactive, hsd, hva, htime, hmap⟩ := core_fields hcore
  refine ⟨?_, ?_, ?_⟩
  · rw [← hfd, ← hactive, ← hsd]
    exact h.opened
  · rw [← hfd, ← hsd, ← hva, ← htime, ← hmap]
    exact h.armed
  · rw [← hfd, ← hactive]
    exact h.active

theorem Sound.same (h : Sound cfg t) (hsame : SameSlots t.watchPointArray slots) :
    Sound cfg { t with watchPointArray := slots } where
  owned fd hfd := by
    obtain ⟨i, wpi, hw, hwfd⟩ := h.owned fd hfd
    obtain ⟨wpi', hw', hcore⟩ := hsame.symm.of_getElem? hw
    exact ⟨i, wpi', hw', (core_fields hcore).1.trans hwfd⟩
  distinct i j a b fd ha hb hafd hbfd := by
    obtain ⟨a', ha', hacore⟩ := hsame.of_getElem? ha
    obtain ⟨b', hb', hbcore⟩ := hsame.of_getElem? hb
    exact h.distinct i j a' b' fd ha' hb' ((core_fields hacore).1.trans hafd)
      ((core_fields hbcore).1.trans hbfd)
  slots i wpi hw := by
    obtain ⟨wpi', hw', hcore⟩ := hsame.of_getElem? hw
    exact (h.slots i wpi' hw').of_core hcore
  stack := h.stack

theorem sameSlots_modify (loc : ℕ) : SameSlots slots (slots.modify loc .bump) := by
  refine List.ext_getElem? fun i => ?_
  rw [List.getElem?_map, List.getElem?_map, List.getElem?_modify]
  cases slots[i]? with
  | none => rfl
  | some wpi => split_ifs <;> rfl

theorem sameSlots_foldl (order : List ℕ) :
    SameSlots slots (order.foldl (fun slots loc => slots.modify loc .bump) slots) := by
  induction order generalizing slots with
  | nil => rfl
  | cons loc order ih => exact (sameSlots_modify loc).trans ih

theorem sameSlots_set (hw : slots[i]? = some wpi) (n : ℕ) :
    SameSlots slots (slots.set i { wpi with samplePostFull := n }) := by
  refine List.ext_getElem? fun j => ?_
  rw [List.getElem?_map, List.getElem?_map, List.getElem?_set]
  split_ifs with hij hi
  · subst hij
    rw [hw]
    rfl
  · rw [← hij, List.getElem?_eq_none (Nat.le_of_not_lt hi)]
  · rfl

/-! ### The victim -/

theorem mem_swap {l : List ℕ} {i j x : ℕ} (h : x ∈ swap l i j) : x ∈ l := by
  unfold swap at h
  split at h
  · rename_i a b ha hb
    obtain hx | rfl := List.mem_or_eq_of_mem_set h
    · obtain hx | rfl := List.mem_or_eq_of_mem_set hx
      · exact hx
      · exact List.mem_of_getElem? hb
    · exact List.mem_of_getElem? ha
  · exact h

theorem mem_shuffled {chance : Chance} {n x : ℕ} (h : x ∈ shuffled chance n) : x < n := by
  have hfold : ∀ is l : List ℕ, (∀ y ∈ l, y < n) →
      ∀ y ∈ is.foldl (fun l i => swap l i (chance.shuffle i % n)) l, y < n := by
    intro is
    induction is with
    | nil => exact fun l hl => hl
    | cons i is ih => exact fun l hl => ih _ fun y hy => hl y (mem_swap hy)
  exact hfold _ _ (fun y hy => List.mem_range.mp hy) x h

theorem attempt_spec (chance : Chance) (order : List ℕ) (i : ℕ) (slots : List RegisterInfo) :
    SameSlots slots (attempt chance i order slots).2 ∧
      ∀ loc, (attempt chance i order slots).1 = some loc → loc ∈ order := by
  induction order generalizing slots i with
  | nil => exact ⟨rfl, nofun⟩
  | cons l order ih =>
    rw [attempt]
    split_ifs
    · refine ⟨(sameSlots_modify l).trans (sameSlots_foldl order), ?_⟩
      rintro loc ⟨⟩
      exact List.mem_cons_self
    · obtain ⟨hsame, hmem⟩ := ih (i + 1) (slots.modify l .bump)
      exact ⟨(sameSlots_modify l).trans hsame, fun loc h => List.mem_cons_of_mem _ (hmem loc h)⟩

/-- With one slot that is better than the first bound the search ends at a slot. -/
theorem extreme_lt (better : ℤ → ℤ → Bool) (best : ℤ) (hne : slots ≠ [])
    (hbetter : ∀ wpi ∈ slots, better best wpi.startTime = true) :
    ∃ i < slots.length, extreme better slots best = some i := by
  have hfold : ∀ (es : List (RegisterInfo × ℕ)) (acc : Option ℕ × ℤ),
      (∀ e ∈ es, e.2 < slots.length) → (∃ i < slots.length, acc.1 = some i) →
      ∃ i < slots.length, (es.foldl (fun acc e =>
        if better acc.2 e.1.startTime then (some e.2, e.1.startTime) else acc) acc).1 = some i := by
    intro es
    induction es with
    | nil => exact fun acc _ h => h
    | cons e es ih =>
      intro acc hes hacc
      refine ih _ (fun e he => hes e (List.mem_cons_of_mem _ he)) ?_
      dsimp only
      split_ifs
      · exact ⟨e.2, hes e List.mem_cons_self, rfl⟩
      · exact hacc
  obtain ⟨wpi, rest, rfl⟩ := List.exists_cons_of_ne_nil hne
  rw [extreme, List.zipIdx_cons, List.foldl_cons, if_pos (hbetter wpi List.mem_cons_self)]
  refine hfold _ _ (fun e he => ?_) ⟨0, by simp, rfl⟩
  have := List.snd_lt_of_mem_zipIdx he
  simpa [Nat.add_comm] using this

theorem getVictim_same (policy : ReplacementPolicy) (chance : Chance)
    (slots : List RegisterInfo) : SameSlots slots (getVictim policy chance slots).2.2 := by
  unfold getVictim
  split
  · rw [SameSlots, List.map_map]
    refine List.map_congr_left fun wpi _ => ?_
    dsimp only [Function.comp]
    split_ifs <;> rfl
  · cases policy with
    | auto =>
      have hsame := (attempt_spec chance (shuffled chance slots.length) 0 slots).1
      dsimp only
      split
      · rename_i hattempt
        rw [hattempt] at hsame
        exact hsame
      · rename_i hattempt
        rw [hattempt] at hsame
        exact hsame
    | newest | oldest | emptySlot => rfl

theorem getVictim_found {policy : ReplacementPolicy} {chance : Chance} {r : Victim}
    {loc : Option ℕ} (h : getVictim policy chance slots = (r, loc, slots')) (hne : slots ≠ [])
    (htimed : ∀ wpi ∈ slots, wpi.isActive = true →
      0 < wpi.startTime ∧ wpi.startTime < 2 ^ 63 - 1) (hr : r ≠ .noneAvailable) :
    ∃ i wpi, loc = some i ∧ slots[i]? = some wpi ∧ (r = .emptySlot → wpi.isActive = false) ∧
      (r = .nonEmptySlot → ∀ wpi ∈ slots, wpi.isActive = true) := by
  unfold getVictim at h
  cases hfind : slots.findIdx? fun wpi => !wpi.isActive with
  | some i =>
    rw [hfind] at h
    cases h
    obtain ⟨hi, hwpi, -⟩ := List.findIdx?_eq_some_iff_getElem.mp hfind
    exact ⟨i, slots[i], rfl, List.getElem?_eq_getElem hi, fun _ => by simpa using hwpi, nofun⟩
  | none =>
    have hactive : ∀ wpi ∈ slots, wpi.isActive = true := by
      intro wpi hw
      simpa using List.findIdx?_eq_none_iff.mp hfind wpi hw
    have hslot : ∀ i < slots.length, ∃ wpi, slots[i]? = some wpi :=
      fun i hi => ⟨slots[i], List.getElem?_eq_getElem hi⟩
    rw [hfind] at h
    cases policy with
    | auto =>
      have hmem := (attempt_spec chance (shuffled chance slots.length) 0 slots).2
      dsimp only at h
      split at h
      · rename_i l slots₁ hattempt
        rw [hattempt] at hmem
        cases h
        obtain ⟨wpi, hw⟩ := hslot l (mem_shuffled (hmem l rfl))
        exact ⟨l, wpi, rfl, hw, nofun, fun _ => hactive⟩
      · cases h
        exact absurd rfl hr
    | newest =>
      cases h
      obtain ⟨i, hi, heq⟩ := extreme_lt (fun best s => best < s) 0 hne
        fun wpi hw => by simpa using (htimed wpi hw (hactive wpi hw)).1
      obtain ⟨wpi, hw⟩ := hslot i hi
      exact ⟨i, wpi, heq, hw, nofun, fun _ => hactive⟩
    | oldest =>
      cases h
      obtain ⟨i, hi, heq⟩ := extreme_lt (fun best s => s < best) (2 ^ 63 - 1) hne
        fun wpi hw => by simpa using (htimed wpi hw (hactive wpi hw)).2
      obtain ⟨wpi, hw⟩ := hslot i hi
      exact ⟨i, wpi, heq, hw, nofun, fun _ => hactive⟩
    | emptySlot =>
      cases h
      exact absurd rfl hr

end Same

/-! ## One slot -/

/-- The faults of the library itself. A full stack and what the kernel refuses are not. -/
def Fault.Bad (f : Fault) : Prop := f ≠ .stackFull ∧ f ≠ .openFailed ∧ f ≠ .modifyRefused

/-- The kernel hands out descriptors that are not open. -/
def Allocates (alloc : Events → Fd) : Prop := ∀ events : Events, events.lookup (alloc events) = none

/-- What the rest of the process gives: an event that the thread gets, a buffer that is mapped, and
a time stamp in its range. -/
structure Arming.Regular (a : Arming) : Prop where
  owned : a.owned = true
  mapped : a.mapped = true
  pos : 0 < a.rdtsc
  lt : a.rdtsc < 2 ^ 63 - 1

section Slot
variable {cfg : Config} {alloc : Events → Fd} {t t' : ThreadData} {i j : ℕ} {wpi : RegisterInfo}
  {fd : Fd} {sd : SampleData} {a : Arming} {events : Events}

theorem slot_eq (hw : t.watchPointArray[i]? = some wpi) : t.slot i = .ok wpi := by
  rw [ThreadData.slot, hw]

theorem checkedIoctl_eq {e : PerfEvent} (f : PerfEvent → PerfEvent)
    (he : events.lookup fd = some e) :
    checkedIoctl (some fd) f events = .ok (events.insert fd (f e)) := by
  simp [checkedIoctl, ioctl, he]

theorem checkedModify_eq {e e' : PerfEvent} {accepted : Bool} (he : events.lookup fd = some e) :
    checkedModify (some fd) accepted e' events =
      if accepted = false then .error .modifyRefused else .ok (events.insert fd e') := by
  rw [checkedModify, checkedIoctl_eq _ he]
  simp [he]

theorem createWatchPoint_modify (hw : t.watchPointArray[i]? = some wpi)
    (hvalid : validateWPData sd = true) (hfd : wpi.fileHandle = some fd)
    (hmap : wpi.mmapBuffer = true) : createWatchPoint cfg alloc i sd true a t =
      (checkedModify (some fd) a.accepted (perfEventOf sd) t.events).map
        (t.put i (wpi.arm sd a.rdtsc)) := by
  rw [createWatchPoint, slot_eq hw]
  simp only [bind, Except.bind, hvalid, hfd, hmap, Bool.true_eq_false, reduceCtorEq, or_self,
    if_false, if_true]
  cases checkedModify (some fd) a.accepted (perfEventOf sd) t.events <;> rfl

structure Changed (cfg : Config) (i : ℕ) (t : ThreadData) (Q : Events → RegisterInfo → Prop)
    (t' : ThreadData) : Prop where
  sound : Sound cfg t'
  only : Only i t t'
  slot : ∃ wpi', t'.watchPointArray[i]? = some wpi' ∧ Q t'.events wpi'

theorem Replaces.changed {wpi' : RegisterInfo} {Q : Events → RegisterInfo → Prop}
    (hr : Replaces t i wpi wpi' events) (h : Sound cfg t) (hok : SlotOk cfg events wpi')
    (hQ : Q events wpi') : Changed cfg i t Q (t.put i wpi' events) := by
  refine ⟨h.put hr hok, hr.only h, wpi', ?_, hQ⟩
  rw [getElem?_put hr.slot, if_pos rfl]

theorem replaces_insert {wpi' : RegisterInfo} (hw : t.watchPointArray[i]? = some wpi)
    (hfd : wpi.fileHandle = some fd) (hsame : wpi'.fileHandle = wpi.fileHandle) (e : PerfEvent) :
    Replaces t i wpi wpi' (t.events.insert fd e) := by
  refine ⟨hw, fun g hg _ => ?_, fun g hg hg' => ?_, fun g hg => ?_⟩
  · exact AList.lookup_insert_ne fun heq => hg (heq ▸ hfd)
  · exact absurd (hsame.trans hg) hg'
  · exact .inl (hsame.symm.trans hg)

theorem Sound.disable (h : Sound cfg t) (hw : t.watchPointArray[i]? = some wpi)
    (hfd : wpi.fileHandle = some fd) : ∃ t', disableWatchpoint i t = .ok t' ∧
      Changed cfg i t (fun _ wpi' => wpi' = { wpi with isActive := false }) t' := by
  have hok := h.slots i wpi hw
  obtain ⟨e, he, hwatches, -⟩ := hok.opened fd hfd
  have hr : Replaces t i wpi { wpi with isActive := false }
      (t.events.insert fd (e.switch false)) := replaces_insert hw hfd (by rfl) _
  refine ⟨_, ?_, hr.changed h ⟨fun g hg => ?_, hok.armed, nofun⟩ rfl⟩
  · rw [disableWatchpoint, slot_eq hw]
    simp only [bind, Except.bind, hfd, reduceCtorEq, if_false]
    rw [checkedIoctl_eq _ he]
  · obtain rfl := Option.some.inj (hfd.symm.trans hg)
    exact ⟨e.switch false, AList.lookup_insert _, hwatches, fun _ => rfl⟩

theorem Sound.close (h : Sound cfg t) (hw : t.watchPointArray[i]? = some wpi)
    (hfd : wpi.fileHandle = some fd) : ∃ t', disArm i t = .ok t' ∧
      Changed cfg i t (fun _ wpi' => wpi'.fileHandle = none ∧ wpi'.isActive = false) t' := by
  have hopen := h.lookup_of_slot hw hfd
  have hr : Replaces t i wpi { wpi with mmapBuffer := false, fileHandle := none, isActive := false }
      (t.events.erase fd) := by
    refine ⟨hw, fun g hg _ => ?_, fun g hg _ => ?_, nofun⟩
    · exact AList.lookup_erase_ne fun heq => hg (heq ▸ hfd)
    · obtain rfl := Option.some.inj (hfd.symm.trans hg)
      exact AList.lookup_erase _ _
  refine ⟨_, ?_, hr.changed h ⟨nofun, fun hne => absurd rfl hne, nofun⟩ ⟨rfl, rfl⟩⟩
  rw [disArm, slot_eq hw]
  simp only [bind, Except.bind, hfd, checkedClose, hopen, if_true]

def Watching (sd : SampleData) (events : Events) (wpi : RegisterInfo) : Prop :=
  wpi.isActive = true ∧ wpi.sd = sd ∧
    ∃ fd, wpi.fileHandle = some fd ∧ events.lookup fd = some (perfEventOf sd)

theorem perfEventOf_watches : (perfEventOf sd).Watches sd := rfl

theorem slotOk_arm (hvalid : validateWPData sd = true) (ha : a.Regular)
    (hfd : wpi.fileHandle = some fd) (hmap : wpi.mmapBuffer = cfg.isLBREnabled)
    (he : events.lookup fd = some (perfEventOf sd)) : SlotOk cfg events (wpi.arm sd a.rdtsc) := by
  refine ⟨fun g hg => ?_, fun _ => ⟨rfl, hvalid, ha.pos, ha.lt, hmap⟩, fun _ => ?_⟩
  · obtain rfl := Option.some.inj (hfd.symm.trans hg)
    exact ⟨_, he, perfEventOf_watches, nofun⟩
  · rw [RegisterInfo.arm, hfd]
    simp

variable (hcfg : cfg.isLBREnabled = cfg.isWPModifyEnabled)
  (halloc : Allocates alloc)

include hcfg in
theorem Sound.modify (h : Sound cfg t) (hw : t.watchPointArray[i]? = some wpi)
    (hfd : wpi.fileHandle = some fd) (hmodify : cfg.isWPModifyEnabled = true)
    (hvalid : validateWPData sd = true) (ha : a.Regular) :
    Ensures Fault.Bad (createWatchPoint cfg alloc i sd true a t)
      (Changed cfg i t (Watching sd)) := by
  have hok := h.slots i wpi hw
  obtain ⟨e, he, -⟩ := hok.opened fd hfd
  have hmap : wpi.mmapBuffer = cfg.isLBREnabled := (hok.armed (by simp [hfd])).2.2.2.2
  have hr : Replaces t i wpi (wpi.arm sd a.rdtsc) (t.events.insert fd (perfEventOf sd)) :=
    replaces_insert hw hfd (by rfl) _
  have hlookup : (t.events.insert fd (perfEventOf sd)).lookup fd = some (perfEventOf sd) :=
    AList.lookup_insert _
  rw [createWatchPoint_modify hw hvalid hfd (by rw [hmap, hcfg, hmodify]), checkedModify_eq he]
  cases a.accepted with
  | false => exact ⟨nofun, by rintro f ⟨⟩ hbad; exact hbad.2.2 rfl⟩
  | true =>
    exact .pure (hr.changed h (slotOk_arm hvalid ha hfd hmap hlookup) ⟨rfl, rfl, fd, hfd, hlookup⟩)

include halloc in
theorem Sound.create (h : Sound cfg t) (hw : t.watchPointArray[i]? = some wpi)
    (hfd : wpi.fileHandle = none) (hvalid : validateWPData sd = true) (ha : a.Regular) :
    Ensures Fault.Bad (createWatchPoint cfg alloc i sd false a t)
      (Changed cfg i t (Watching sd)) := by
  have hfresh := halloc t.events
  set new := alloc t.events
  set wpi₁ := { wpi with fileHandle := some new, mmapBuffer := cfg.isLBREnabled && a.mapped }
  have hr : Replaces t i wpi (wpi₁.arm sd a.rdtsc) (t.events.insert new (perfEventOf sd)) := by
    refine ⟨hw, fun g _ hg => ?_, fun g hg => ?_, fun g hg => ?_⟩
    · exact AList.lookup_insert_ne fun heq => hg (heq ▸ rfl)
    · rw [hfd] at hg
      cases hg
    · obtain rfl := Option.some.inj hg
      exact .inr hfresh
  have hlookup : (t.events.insert new (perfEventOf sd)).lookup new = some (perfEventOf sd) :=
    AList.lookup_insert _
  have hmap : wpi₁.mmapBuffer = cfg.isLBREnabled := by simp [wpi₁, ha.mapped]
  rw [createWatchPoint, slot_eq hw]
  simp only [bind, Except.bind, hvalid, ha.owned, Bool.true_eq_false, Bool.false_eq_true, if_false]
  cases a.accepted with
  | false => exact ⟨nofun, by rintro f ⟨⟩ hbad; exact hbad.2.1 rfl⟩
  | true =>
    exact .pure (hr.changed h (slotOk_arm hvalid ha rfl hmap hlookup) ⟨rfl, rfl, new, rfl, hlookup⟩)

theorem Changed.trans {Q R : Events → RegisterInfo → Prop} {t'' : ThreadData}
    (h : Changed cfg i t Q t') (h' : Changed cfg i t' R t'') : Changed cfg i t R t'' :=
  ⟨h'.sound, h.only.trans h'.only, h'.slot⟩

include hcfg halloc in
/-- A slot is armed without a descriptor being lost when it has none, or its breakpoint can be
modified, or it is still active. -/
theorem Sound.arm (h : Sound cfg t) (hw : t.watchPointArray[i]? = some wpi)
    (harm : cfg.isWPModifyEnabled = true ∨ wpi.isActive = true ∨ wpi.fileHandle = none)
    (hvalid : validateWPData sd = true) (ha : a.Regular) :
    Ensures Fault.Bad (armWatchPoint cfg alloc i sd a t) (Changed cfg i t (Watching sd)) := by
  rw [armWatchPoint, slot_eq hw]
  simp only [bind, Except.bind]
  cases hfd : wpi.fileHandle with
  | none =>
    have hidle : ¬wpi.isActive = true := fun hactive => (h.slots i wpi hw).active hactive hfd
    rw [if_neg (by simp), if_neg hidle]
    exact h.create halloc hw hfd hvalid ha
  | some fd =>
    by_cases hmodify : cfg.isWPModifyEnabled = true
    · rw [if_pos ⟨hmodify, by simp⟩]
      exact h.modify hcfg hw hfd hmodify hvalid ha
    · have hactive : wpi.isActive = true := by
        obtain hm | hactive | hnone := harm
        · exact absurd hm hmodify
        · exact hactive
        · rw [hfd] at hnone
          cases hnone
      rw [if_neg fun hm => hmodify hm.1, if_pos hactive]
      obtain ⟨t₁, hs, hclosed⟩ := h.close hw hfd
      obtain ⟨wpi₁, hw₁, hfd₁, -⟩ := hclosed.slot
      rw [hs]
      exact (hclosed.sound.create halloc hw₁ hfd₁ hvalid ha).mono fun t' => hclosed.trans

end Slot

/-! ## The library at rest and in a trap -/

def AllOn (t : ThreadData) : Prop :=
  ∀ (i : ℕ) (wpi : RegisterInfo), t.watchPointArray[i]? = some wpi → wpi.isActive = true →
    ∀ fd, wpi.fileHandle = some fd → ∃ e, t.events.lookup fd = some e ∧ e.enabled = true

/-- `loc` is the slot whose trap is being handled; it is not armed anew when `quiet`. A slot that
cannot be modified has no descriptor unless it is active. -/
structure Rest (cfg : Config) (loc : Option ℕ) (quiet : Prop) (t : ThreadData) : Prop where
  sound : Sound cfg t
  tight : cfg.isWPModifyEnabled = false → ∀ (j : ℕ) (wpi : RegisterInfo), loc ≠ some j →
    t.watchPointArray[j]? = some wpi → wpi.fileHandle ≠ none → wpi.isActive = true
  location : ∀ l, loc = some l → ∃ wpi : RegisterInfo, t.watchPointArray[l]? = some wpi ∧
    wpi.fileHandle ≠ none ∧ (quiet → wpi.isActive = false)

section Rest
variable {cfg : Config} {alloc : Events → Fd} {loc : Option ℕ} {quiet : Prop} {t t' : ThreadData}
  {i : ℕ} {wpi : RegisterInfo} {slots : List RegisterInfo} {sd : SampleData} {a : Arming}
  {Q : Events → RegisterInfo → Prop}

theorem AllOn.changed (h : AllOn t) (hc : Changed cfg i t Q t')
    (hQ : ∀ wpi', Q t'.events wpi' → wpi'.isActive = true → ∀ fd, wpi'.fileHandle = some fd →
      ∃ e, t'.events.lookup fd = some e ∧ e.enabled = true) : AllOn t' := by
  intro j b hb hactive fd hfd
  by_cases hj : j = i
  · subst hj
    obtain ⟨wpi', hw', hq⟩ := hc.slot
    obtain rfl := Option.some.inj (hw'.symm.trans hb)
    exact hQ _ hq hactive fd hfd
  · rw [hc.only.other hj] at hb
    rw [hc.only.frame j b fd hj hb hfd]
    exact h j b hb hactive fd hfd

theorem Rest.changed (h : Rest cfg loc quiet t) (hc : Changed cfg i t Q t')
    (htight : cfg.isWPModifyEnabled = false → ∀ wpi', Q t'.events wpi' →
      wpi'.fileHandle ≠ none → wpi'.isActive = true)
    (hlocation : loc = some i → ∀ wpi', Q t'.events wpi' →
      wpi'.fileHandle ≠ none ∧ (quiet → wpi'.isActive = false)) : Rest cfg loc quiet t' := by
  obtain ⟨wpi', hw', hq⟩ := hc.slot
  refine ⟨hc.sound, fun hmodify j b hloc hb hfd => ?_, fun l hl => ?_⟩
  · by_cases hj : j = i
    · subst hj
      obtain rfl := Option.some.inj (hw'.symm.trans hb)
      exact htight hmodify _ hq hfd
    · rw [hc.only.other hj] at hb
      exact h.tight hmodify j b hloc hb hfd
  · by_cases hli : l = i
    · subst hli
      exact ⟨wpi', hw', hlocation hl wpi' hq⟩
    · obtain ⟨b, hb, hlocation⟩ := h.location l hl
      exact ⟨b, (hc.only.other hli).trans hb, hlocation⟩

theorem Rest.same (h : Rest cfg loc quiet t) (hsame : SameSlots t.watchPointArray slots) :
    Rest cfg loc quiet { t with watchPointArray := slots } := by
  refine ⟨h.sound.same hsame, fun hmodify j b hloc hb hfd => ?_, fun l hl => ?_⟩
  · obtain ⟨b', hb', hcore⟩ := hsame.of_getElem? hb
    obtain ⟨hfd', hactive', -⟩ := core_fields hcore
    rw [← hfd'] at hfd
    rw [← hactive']
    exact h.tight hmodify j b' hloc hb' hfd
  · obtain ⟨b, hb, hlocation⟩ := h.location l hl
    obtain ⟨b', hb', hcore⟩ := hsame.symm.of_getElem? hb
    obtain ⟨hfd', hactive', -⟩ := core_fields hcore
    refine ⟨b', hb', ?_⟩
    rw [hfd', hactive']
    exact hlocation

theorem AllOn.same (h : AllOn t) (hsame : SameSlots t.watchPointArray slots) :
    AllOn { t with watchPointArray := slots } := by
  intro j b hb hactive fd hfd
  obtain ⟨b', hb', hcore⟩ := hsame.of_getElem? hb
  obtain ⟨hfd', hactive', -⟩ := core_fields hcore
  exact h j b' hb' (hactive'.trans hactive) fd (hfd'.trans hfd)

structure Kept (cfg : Config) (loc : Option ℕ) (quiet : Prop) (t t' : ThreadData) : Prop where
  rest : Rest cfg loc quiet t'
  on : AllOn t → AllOn t'
  length : t'.watchPointArray.length = t.watchPointArray.length

theorem Kept.refl (h : Rest cfg loc quiet t) : Kept cfg loc quiet t t := ⟨h, id, rfl⟩

theorem Kept.trans {t'' : ThreadData} {loc' : Option ℕ} (h : Kept cfg loc quiet t t')
    (h' : Kept cfg loc' quiet t' t'') : Kept cfg loc' quiet t t'' :=
  ⟨h'.rest, fun hon => h'.on (h.on hon), h'.length.trans h.length⟩

theorem Rest.kept_same (h : Rest cfg loc quiet t) (hsame : SameSlots t.watchPointArray slots) :
    Kept cfg loc quiet t { t with watchPointArray := slots } :=
  ⟨h.same hsame, fun hon => hon.same hsame, hsame.length_eq⟩

theorem Rest.watching (h : Rest cfg loc quiet t) (hc : Changed cfg i t (Watching sd) t')
    (hloc : loc ≠ some i ∨ ¬quiet) : Kept cfg loc quiet t t' := by
  refine ⟨h.changed hc (fun _ wpi' hq _ => hq.1) fun hl wpi' hq => ?_,
    fun hon => hon.changed hc fun wpi' hq _ fd hfd => ?_, hc.only.length⟩
  · obtain ⟨-, -, fd, hfd, -⟩ := hq
    exact ⟨by simp [hfd], fun hquiet => absurd hquiet (hloc.resolve_left (not_not_intro hl))⟩
  · obtain ⟨-, -, fd', hfd', he⟩ := hq
    obtain rfl := Option.some.inj (hfd'.symm.trans hfd)
    exact ⟨_, he, rfl⟩

theorem Rest.timed (h : Rest cfg loc quiet t) :
    ∀ wpi ∈ t.watchPointArray, wpi.isActive = true →
      0 < wpi.startTime ∧ wpi.startTime < 2 ^ 63 - 1 := by
  intro wpi hw hactive
  obtain ⟨i, hi⟩ := List.mem_iff_getElem?.mp hw
  have hok := h.sound.slots i wpi hi
  obtain ⟨-, -, hpos, hlt, -⟩ := hok.armed (hok.active hactive)
  exact ⟨hpos, hlt⟩

theorem Rest.push (h : Rest cfg loc quiet t) (hw : t.watchPointArray[i]? = some wpi)
    (hactive : wpi.isActive = true) :
    Ensures Fault.Bad (push i t) fun t' => Kept cfg loc quiet t t' ∧
      t'.watchPointArray = t.watchPointArray := by
  rw [WatchpointSlots.push, slot_eq hw]
  simp only [bind, Except.bind]
  split_ifs
  · exact ⟨nofun, by rintro f ⟨⟩ hbad; exact hbad.1 rfl⟩
  · have hok := h.sound.slots i wpi hw
    have hvalid := (hok.armed (hok.active hactive)).2.1
    exact .pure ⟨⟨⟨⟨h.sound.owned, h.sound.distinct, h.sound.slots,
      List.forall_mem_cons.mpr ⟨hvalid, h.sound.stack⟩⟩, h.tight, h.location⟩, id, rfl⟩, rfl⟩

variable (hcfg : cfg.isLBREnabled = cfg.isWPModifyEnabled) (halloc : Allocates alloc)
include hcfg halloc

theorem Rest.subscribe (sd : SampleData) (isVarianceClient : Bool) (chance : Chance)
    (h : Rest cfg loc quiet t)
    (hne : t.watchPointArray ≠ []) (hloc : loc = none ∨ cfg.isWPModifyEnabled = true ∧ ¬quiet)
    (ha : a.Regular) :
    Ensures Fault.Bad (subscribe cfg alloc sd isVarianceClient chance a t)
      fun out => Kept cfg loc quiet t out.2 := by
  rw [WatchpointSlots.subscribe]
  split_ifs with hcheck
  · exact .pure (.refl h)
  have hvalid : validateWPData sd = true := by
    cases hv : validateWPData sd with
    | true => rfl
    | false => exact absurd (.inl hv) hcheck
  rcases hvictim : getVictim cfg.replacementPolicy chance t.watchPointArray with
    ⟨r, victim, slots⟩
  have hsame := getVictim_same cfg.replacementPolicy chance t.watchPointArray
  rw [hvictim] at hsame
  have hkept := h.kept_same hsame
  by_cases hr : r = .noneAvailable
  · subst hr
    exact .pure hkept
  obtain ⟨i, wpi, rfl, hw, hempty, hfull⟩ := getVictim_found hvictim hne h.timed hr
  obtain ⟨wpi', hw', hcore⟩ := hsame.symm.of_getElem? hw
  obtain ⟨hfd, hactive, -⟩ := core_fields hcore
  have harm : cfg.isWPModifyEnabled = true ∨ wpi'.isActive = true ∨ wpi'.fileHandle = none := by
    cases hmodify : cfg.isWPModifyEnabled with
    | true => exact .inl rfl
    | false =>
      have hnone : loc = none := hloc.resolve_right (by simp [hmodify])
      by_cases hfd : wpi'.fileHandle = none
      · exact .inr (.inr hfd)
      · exact .inr (.inl (hkept.rest.tight hmodify i wpi' (by simp [hnone]) hw' hfd))
  have hpushed : Ensures Fault.Bad (pushVictim isVarianceClient r i
      { t with watchPointArray := slots })
      fun t' => Kept cfg loc quiet t t' ∧ t'.watchPointArray = slots := by
    rw [pushVictim]
    split_ifs with hpush
    · have hwactive : wpi'.isActive = true :=
        hactive.trans (hfull hpush.2 wpi (List.mem_of_getElem? hw))
      exact (hkept.rest.push hw' hwactive).mono fun t' h' => ⟨hkept.trans h'.1, h'.2⟩
    · exact .pure ⟨hkept, rfl⟩
  have hrest : ∀ t₁, Kept cfg loc quiet t t₁ ∧ t₁.watchPointArray = slots →
      Ensures Fault.Bad (armWatchPoint cfg alloc i sd a t₁ >>= fun t' => .ok (true, t'))
        fun out => Kept cfg loc quiet t out.2 := by
    rintro t₁ ⟨hkept₁, rfl⟩
    refine (hkept₁.rest.sound.arm hcfg halloc hw' harm hvalid ha).bind fun t' _ hc => .pure ?_
    refine hkept₁.trans (hkept₁.rest.watching hc ?_)
    obtain rfl | hquiet := hloc
    · exact .inl (by simp)
    · exact .inr hquiet.2
  cases r with
  | noneAvailable => exact absurd rfl hr
  | emptySlot => exact hpushed.bind fun t₁ _ h₁ => hrest t₁ h₁
  | nonEmptySlot => exact hpushed.bind fun t₁ _ h₁ => hrest t₁ h₁

end Rest

/-! ## Disabling -/

def Disabled (cfg : Config) (wpi : RegisterInfo) (_ : Events) (wpi' : RegisterInfo) : Prop :=
  wpi'.isActive = false ∧ (cfg.isWPModifyEnabled = true → wpi'.fileHandle = wpi.fileHandle) ∧
    (cfg.isWPModifyEnabled = false → wpi'.fileHandle = none)

section Disabling
variable {cfg : Config} {loc : Option ℕ} {quiet : Prop} {t t' : ThreadData} {i : ℕ}
  {wpi : RegisterInfo} {Q R : Events → RegisterInfo → Prop}

theorem Changed.mono (h : Changed cfg i t Q t') (hQ : ∀ wpi', Q t'.events wpi' → R t'.events wpi') :
    Changed cfg i t R t' := by
  obtain ⟨wpi', hw', hq⟩ := h.slot
  exact ⟨h.sound, h.only, wpi', hw', hQ wpi' hq⟩

theorem Sound.unchanged (h : Sound cfg t) (hw : t.watchPointArray[i]? = some wpi)
    (hQ : Q t.events wpi) : Changed cfg i t Q t := by
  refine ⟨h, ⟨⟨wpi, ?_⟩, fun _ _ _ _ _ _ => rfl, rfl⟩, wpi, hw, hQ⟩
  refine List.ext_getElem? fun j => ?_
  rw [List.getElem?_set]
  split_ifs with hij hi
  · rw [← hij, hw]
  · rw [← hij, List.getElem?_eq_none (Nat.le_of_not_lt hi)]
  · rfl

theorem Sound.wrapper (h : Sound cfg t) (hw : t.watchPointArray[i]? = some wpi) :
    ∃ t', disableWatchpointWrapper cfg i t = .ok t' ∧ Changed cfg i t (Disabled cfg wpi) t' := by
  have hok := h.slots i wpi hw
  rw [disableWatchpointWrapper, slot_eq hw]
  simp only [bind, Except.bind]
  cases hmodify : cfg.isWPModifyEnabled with
  | true =>
    cases hactive : wpi.isActive with
    | true =>
      obtain ⟨fd, hfd⟩ := Option.ne_none_iff_exists'.mp (hok.active hactive)
      obtain ⟨t', hs, hc⟩ := h.disable hw hfd
      refine ⟨t', by rw [if_pos ⟨rfl, rfl⟩, hs], hc.mono ?_⟩
      rintro wpi' rfl
      exact ⟨rfl, fun _ => rfl, fun hm => by simp [hm] at hmodify⟩
    | false =>
      refine ⟨t, by simp, h.unchanged hw ⟨hactive, fun _ => rfl, fun hm => ?_⟩⟩
      simp [hm] at hmodify
  | false =>
    cases hfd : wpi.fileHandle with
    | some fd =>
      obtain ⟨t', hs, hc⟩ := h.close hw hfd
      refine ⟨t', by simpa using hs, hc.mono fun wpi' hq => ⟨hq.2, fun hm => ?_, fun _ => hq.1⟩⟩
      simp [hm] at hmodify
    | none =>
      refine ⟨t, by simp, h.unchanged hw ⟨?_, fun _ => rfl, fun _ => hfd⟩⟩
      cases hactive : wpi.isActive with
      | false => rfl
      | true => exact absurd hfd (hok.active hactive)

theorem resetProbability_eq (hw : t.watchPointArray[i]? = some wpi) :
    ∃ slots, resetProbability i t = .ok { t with watchPointArray := slots } ∧
      SameSlots t.watchPointArray slots := by
  refine ⟨_, ?_, sameSlots_set hw samplesPostFullResetVal⟩
  rw [resetProbability, slot_eq hw]
  rfl

theorem exists_slot (hi : i < t.watchPointArray.length) :
    ∃ wpi, t.watchPointArray[i]? = some wpi :=
  ⟨t.watchPointArray[i], List.getElem?_eq_getElem hi⟩

/-- In a callback only the active slots are disabled, so not the one whose trap it is unless the
breakpoint can be modified. -/
theorem Rest.disableSlot (h : Rest cfg loc quiet t) (hquiet : cfg.isWPModifyEnabled = false → quiet)
    (hi : i < t.watchPointArray.length) :
    ∃ t', disableSlot cfg true i t = .ok t' ∧ Kept cfg loc quiet t t' := by
  obtain ⟨wpi, hw⟩ := exists_slot hi
  rw [WatchpointSlots.disableSlot, slot_eq hw]
  simp only [bind, Except.bind, true_and]
  split_ifs with hidle
  · exact ⟨t, rfl, .refl h⟩
  obtain ⟨t', hs, hc⟩ := h.sound.wrapper hw
  refine ⟨t', hs, h.changed hc (fun hmodify wpi' hq hfd => absurd (hq.2.2 hmodify) hfd) ?_,
    fun hon => hon.changed hc fun wpi' hq hactive => ?_, hc.only.length⟩
  · intro hl wpi' hq
    refine ⟨?_, fun _ => hq.1⟩
    obtain ⟨b, hb, hfd, hinactive⟩ := h.location i hl
    obtain rfl := Option.some.inj (hb.symm.trans hw)
    cases hmodify : cfg.isWPModifyEnabled with
    | true =>
      rw [hq.2.1 hmodify]
      exact hfd
    | false => exact absurd (hinactive (hquiet hmodify)) hidle
  · rw [hq.1] at hactive
    cases hactive

theorem Rest.disableSlots (h : Rest cfg loc quiet t)
    (hquiet : cfg.isWPModifyEnabled = false → quiet) (is : List ℕ)
    (his : ∀ i ∈ is, i < t.watchPointArray.length) :
    ∃ t', disableSlots cfg true is t = .ok t' ∧ Kept cfg loc quiet t t' := by
  induction is generalizing t with
  | nil => exact ⟨t, rfl, .refl h⟩
  | cons i is ih =>
    obtain ⟨hi, his⟩ := List.forall_mem_cons.mp his
    obtain ⟨t₁, hs₁, hkept₁⟩ := h.disableSlot hquiet hi
    obtain ⟨wpi₁, hw₁⟩ := exists_slot (i := i) (hkept₁.length ▸ hi)
    obtain ⟨slots, hreset, hsame⟩ := resetProbability_eq hw₁
    have hkept := hkept₁.trans (hkept₁.rest.kept_same hsame)
    obtain ⟨t', hs', hkept'⟩ := ih hkept.rest fun j hj => hkept.length ▸ his j hj
    refine ⟨t', ?_, hkept.trans hkept'⟩
    rw [WatchpointSlots.disableSlots, List.foldlM_cons, hs₁]
    simp only [bind, Except.bind, hreset]
    exact hs'

theorem Sound.disableSlots (quiet : Prop) (h : Sound cfg t) (is : List ℕ)
    (his : ∀ i ∈ is, i < t.watchPointArray.length)
    (htight : cfg.isWPModifyEnabled = false → ∀ (j : ℕ) (wpi : RegisterInfo), j ∉ is →
      t.watchPointArray[j]? = some wpi → wpi.fileHandle ≠ none → wpi.isActive = true) :
    ∃ t', WatchpointSlots.disableSlots cfg false is t = .ok t' ∧ Rest cfg none quiet t' ∧
      t'.watchPointArray.length = t.watchPointArray.length := by
  induction is generalizing t with
  | nil => exact ⟨t, rfl, ⟨h, fun hm j wpi _ => htight hm j wpi (by simp), nofun⟩, rfl⟩
  | cons i is ih =>
    obtain ⟨hi, his⟩ := List.forall_mem_cons.mp his
    obtain ⟨wpi, hw⟩ := exists_slot hi
    obtain ⟨t₁, hs₁, hc⟩ := h.wrapper hw
    obtain ⟨wpi₁, hw₁, hq⟩ := hc.slot
    obtain ⟨slots, hreset, hsame⟩ := resetProbability_eq hw₁
    have htight₁ : cfg.isWPModifyEnabled = false → ∀ (j : ℕ) (b : RegisterInfo), j ∉ is →
        slots[j]? = some b → b.fileHandle ≠ none → b.isActive = true := by
      intro hmodify j b hj hb hfd
      obtain ⟨b', hb', hcore⟩ := hsame.of_getElem? hb
      obtain ⟨hfd', hactive', -⟩ := core_fields hcore
      rw [← hfd'] at hfd
      rw [← hactive']
      by_cases hji : j = i
      · subst hji
        obtain rfl := Option.some.inj (hw₁.symm.trans hb')
        exact absurd (hq.2.2 hmodify) hfd
      · rw [hc.only.other hji] at hb'
        exact htight hmodify j b' (by simp [hji, hj]) hb' hfd
    obtain ⟨t', hs', hrest, hlen⟩ := ih (hc.sound.same hsame)
      (fun j hj => by rw [hsame.length_eq, hc.only.length]; exact his j hj) htight₁
    refine ⟨t', ?_, hrest, hlen.trans (hsame.length_eq.trans hc.only.length)⟩
    rw [WatchpointSlots.disableSlots, List.foldlM_cons, WatchpointSlots.disableSlot, slot_eq hw]
    simp only [bind, Except.bind, Bool.false_eq_true, false_and, if_false, hs₁, hreset]
    exact hs'

end Disabling

/-! ## Pause and resume -/

section Switch
variable {cfg : Config} {loc : Option ℕ} {quiet : Prop} {t : ThreadData} {on : Bool}

theorem lookup_ioctl (handle : Option Fd) (f : PerfEvent → PerfEvent) (events : Events) (fd : Fd) :
    (ioctl handle f events).lookup fd =
      if handle = some fd then (events.lookup fd).map f else events.lookup fd := by
  cases handle with
  | none => rfl
  | some g =>
    rw [ioctl]
    cases hg : events.lookup g with
    | none =>
      split_ifs with h
      · obtain rfl := Option.some.inj h
        rw [hg]
        rfl
      · rfl
    | some e =>
      dsimp only
      split_ifs with h
      · obtain rfl := Option.some.inj h
        rw [AList.lookup_insert, hg]
        rfl
      · exact AList.lookup_insert_ne fun hfd => h (hfd ▸ rfl)

theorem lookup_switchAll (t : ThreadData) (fd : Fd) : (switchAll on t).events.lookup fd =
    if ∃ wpi ∈ t.watchPointArray, wpi.isActive = true ∧ wpi.fileHandle = some fd then
      (t.events.lookup fd).map (.switch on) else t.events.lookup fd := by
  have hfold : ∀ (slots : List RegisterInfo) (events : Events),
      (slots.foldl (fun events wpi =>
        if wpi.isActive then ioctl wpi.fileHandle (.switch on) events
        else events) events).lookup fd =
      if ∃ wpi ∈ slots, wpi.isActive = true ∧ wpi.fileHandle = some fd then
        (events.lookup fd).map (.switch on) else events.lookup fd := by
    intro slots
    induction slots with
    | nil => simp
    | cons wpi slots ih =>
      intro events
      rw [List.foldl_cons, ih]
      by_cases hw : wpi.isActive = true ∧ wpi.fileHandle = some fd
      · have hidem : PerfEvent.switch on ∘ PerfEvent.switch on = PerfEvent.switch on := rfl
        have hcons : ∃ b ∈ wpi :: slots, b.isActive = true ∧ b.fileHandle = some fd :=
          ⟨wpi, List.mem_cons_self, hw⟩
        rw [if_pos hw.1, lookup_ioctl, if_pos hw.2, Option.map_map, hidem, ite_self, if_pos hcons]
      · have hhead : (if wpi.isActive = true then ioctl wpi.fileHandle (.switch on) events
            else events).lookup fd = events.lookup fd := by
          split_ifs with hactive
          · rw [lookup_ioctl, if_neg fun hfd => hw ⟨hactive, hfd⟩]
          · rfl
        rw [hhead]
        simp only [List.exists_mem_cons_iff, hw, false_or]
  exact hfold t.watchPointArray t.events

theorem Sound.switchAll (h : Sound cfg t) : Sound cfg (switchAll on t) := by
  refine ⟨fun fd hfd => h.owned fd ?_, h.distinct, fun i wpi hw => ?_, h.stack⟩
  · rw [lookup_switchAll] at hfd
    split_ifs at hfd
    · simpa using hfd
    · exact hfd
  · have hok := h.slots i wpi hw
    refine ⟨fun fd hfd => ?_, hok.armed, hok.active⟩
    obtain ⟨e, he, hwatches, hidle⟩ := hok.opened fd hfd
    rw [lookup_switchAll]
    split_ifs with hactive
    · obtain ⟨b, hb, hbactive, hbfd⟩ := hactive
      obtain ⟨j, hj⟩ := List.mem_iff_getElem?.mp hb
      obtain rfl := h.distinct i j wpi b fd hw hj hfd hbfd
      obtain rfl := Option.some.inj (hw.symm.trans hj)
      refine ⟨e.switch on, by rw [he]; rfl, hwatches, fun hinactive => ?_⟩
      rw [hbactive] at hinactive
      cases hinactive
    · exact ⟨e, he, hwatches, hidle⟩

theorem Rest.switchAll (h : Rest cfg loc quiet t) : Rest cfg loc quiet (switchAll on t) :=
  ⟨h.sound.switchAll, h.tight, h.location⟩

theorem Sound.allOn (h : Sound cfg t) : AllOn (WatchpointSlots.switchAll true t) := by
  intro i wpi hw hactive fd hfd
  obtain ⟨e, he, -⟩ := (h.slots i wpi hw).opened fd hfd
  refine ⟨e.switch true, ?_, rfl⟩
  rw [lookup_switchAll, if_pos ⟨wpi, List.mem_of_getElem? hw, hactive, hfd⟩, he]
  rfl

end Switch

/-! ## A whole trap -/

def Call.Subscribes : Call → Prop
  | .subscribe .. => True
  | .disableAll => False

def Call.Regular : Call → Prop
  | .subscribe _ _ _ a => a.Regular
  | .disableAll => True

/-- The callback leaves its own slot to the library when the library says so. -/
def Event.Regular (cfg : Config) : Event → Prop
  | .call c => c.Regular
  | .trap _ calls reaction a => a.Regular ∧ (∀ c ∈ calls, c.Regular) ∧
    (reaction = .alreadyDisabled → ∀ c ∈ calls, ¬c.Subscribes) ∧
    (cfg.isWPModifyEnabled = false → (∀ c ∈ calls, ¬c.Subscribes) ∧
      (reaction = .disable ∨ reaction = .disableAll ∨ reaction = .retain))

section Trap
variable {cfg : Config} {alloc : Events → Fd} {loc : Option ℕ} {quiet : Prop} {t t' : ThreadData}
  {i : ℕ} {wpi : RegisterInfo} {a : Arming}
  (hcfg : cfg.isLBREnabled = cfg.isWPModifyEnabled) (halloc : Allocates alloc)

theorem Rest.of_modify (h : Sound cfg t) (hmodify : cfg.isWPModifyEnabled = true) :
    Rest cfg none quiet t := by
  refine ⟨h, fun hm => ?_, nofun⟩
  rw [hm] at hmodify
  cases hmodify

theorem Rest.leave {Q : Events → RegisterInfo → Prop} (h : Rest cfg (some i) quiet t)
    (hc : Changed cfg i t Q t') (hQ : cfg.isWPModifyEnabled = false → ∀ wpi', Q t'.events wpi' →
      wpi'.fileHandle ≠ none → wpi'.isActive = true) : Rest cfg none True t' := by
  refine ⟨hc.sound, fun hm j b _ hb hfd => ?_, nofun⟩
  by_cases hj : j = i
  · subst hj
    obtain ⟨wpi', hw', hq⟩ := hc.slot
    obtain rfl := Option.some.inj (hw'.symm.trans hb)
    exact hQ hm _ hq hfd
  · rw [hc.only.other hj] at hb
    exact h.tight hm j b (by simpa using Ne.symm hj) hb hfd

theorem Rest.trapped {Q : Events → RegisterInfo → Prop} (h : Rest cfg none quiet t)
    (hc : Changed cfg i t Q t') (hQ : ∀ wpi', Q t'.events wpi' →
      wpi'.fileHandle ≠ none ∧ (quiet → wpi'.isActive = false)) : Rest cfg (some i) quiet t' := by
  obtain ⟨wpi', hw', hq⟩ := hc.slot
  refine ⟨hc.sound, fun hm j b hj hb hfd => ?_, ?_⟩
  · have hji : j ≠ i := fun heq => hj (by rw [heq])
    rw [hc.only.other hji] at hb
    exact h.tight hm j b (by simp) hb hfd
  · rintro l ⟨⟩
    exact ⟨wpi', hw', hQ wpi' hq⟩

theorem Sound.enable (h : Sound cfg t) (hw : t.watchPointArray[i]? = some wpi)
    (hfd : wpi.fileHandle ≠ none) :
    ∃ events, checkedIoctl wpi.fileHandle (.switch true) t.events = .ok events ∧
      Changed cfg i t (fun _ wpi' => wpi'.isActive = true)
        (t.put i { wpi with isActive := true } events) := by
  have hok := h.slots i wpi hw
  obtain ⟨fd, heq⟩ := Option.ne_none_iff_exists'.mp hfd
  obtain ⟨e, he, hwatches, -⟩ := hok.opened fd heq
  have hr : Replaces t i wpi { wpi with isActive := true }
      (t.events.insert fd (e.switch true)) := replaces_insert hw heq (by rfl) _
  refine ⟨_, by rw [heq, checkedIoctl_eq _ he],
    hr.changed h ⟨fun g hg => ?_, hok.armed, fun _ => hfd⟩ rfl⟩
  obtain rfl := Option.some.inj (heq.symm.trans hg)
  exact ⟨e.switch true, AList.lookup_insert _, hwatches, nofun⟩

include hcfg halloc

theorem Rest.call {c : Call} (h : Rest cfg loc quiet t) (hne : t.watchPointArray ≠ [])
    (hquiet : cfg.isWPModifyEnabled = false → quiet) (hc : c.Regular)
    (hloc : loc = none ∨ (c.Subscribes → ¬quiet)) :
    Ensures Fault.Bad (callStep cfg alloc c t) (Kept cfg loc quiet t) := by
  cases c with
  | disableAll =>
    obtain ⟨t', hs, hkept⟩ := h.disableSlots hquiet (List.range t.watchPointArray.length)
      fun i hi => List.mem_range.mp hi
    rw [callStep, disableAllWatchPoints, hs]
    exact .pure hkept
  | subscribe sd isVarianceClient chance a =>
    have hloc' : loc = none ∨ cfg.isWPModifyEnabled = true ∧ ¬quiet := by
      refine hloc.imp_right fun hsub => ⟨?_, hsub trivial⟩
      cases hmodify : cfg.isWPModifyEnabled with
      | true => rfl
      | false => exact absurd (hquiet hmodify) (hsub trivial)
    have hsub := h.subscribe hcfg halloc sd isVarianceClient chance hne hloc' hc
    constructor
    · intro t' hs
      obtain ⟨out, hout, rfl⟩ := map_eq_ok.mp hs
      exact hsub.ok out hout
    · intro f hf
      rw [callStep] at hf
      cases hout : WatchpointSlots.subscribe cfg alloc sd isVarianceClient chance a t with
      | ok out =>
        rw [hout] at hf
        cases hf
      | error f' =>
        rw [hout] at hf
        cases hf
        exact hsub.error f hout

theorem Rest.calls {calls : List Call} (h : Rest cfg loc quiet t) (hne : t.watchPointArray ≠ [])
    (hquiet : cfg.isWPModifyEnabled = false → quiet) (hcalls : ∀ c ∈ calls, c.Regular)
    (hloc : loc = none ∨ ∀ c ∈ calls, c.Subscribes → ¬quiet) :
    Ensures Fault.Bad (run (callStep cfg alloc) calls t) (Kept cfg loc quiet t) := by
  refine run_ensures (C := fun c _ => c.Regular ∧ (loc = none ∨ (c.Subscribes → ¬quiet)))
    (fun c s hkept hc => ?_) (.refl h)
    (meets_of_mem fun c hc => ⟨hcalls c hc, hloc.imp_right fun hsub => hsub c hc⟩)
  have hne' : s.watchPointArray ≠ [] := by
    rw [← List.length_pos_iff, hkept.length, List.length_pos_iff]
    exact hne
  exact (hkept.rest.call hcfg halloc hne' hquiet hc.1 hc.2).mono fun t' => hkept.trans

theorem Rest.rearm (h : Rest cfg none quiet t) (hw : t.watchPointArray[i]? = some wpi)
    (harm : cfg.isWPModifyEnabled = true ∨ wpi.fileHandle = none) (ha : a.Regular) :
    Ensures Fault.Bad (rearm cfg alloc i a t) (Kept cfg none quiet t) := by
  unfold WatchpointSlots.rearm
  split
  · exact .pure (.refl h)
  · rename_i sd wpStack hstack
    have hpop : Rest cfg none quiet { t with wpStack := wpStack } := by
      refine ⟨⟨h.sound.owned, h.sound.distinct, h.sound.slots, fun sd' hsd => ?_⟩, h.tight,
        h.location⟩
      exact h.sound.stack sd' (by rw [hstack]; exact List.mem_cons_of_mem _ hsd)
    have hvalid : validateWPData sd = true := h.sound.stack sd (by simp [hstack])
    have harmed := hpop.sound.arm (t := { t with wpStack := wpStack }) hcfg halloc hw
      (harm.imp_right .inr) hvalid ha
    refine harmed.mono fun t' hc => ?_
    have hkept := hpop.watching hc (.inl (by simp))
    exact ⟨hkept.rest, hkept.on, hkept.length⟩

theorem Rest.react {reaction : Reaction} (h : Rest cfg (some i) quiet t)
    (halready : reaction = .alreadyDisabled → quiet)
    (hmodify : cfg.isWPModifyEnabled = false → quiet ∧
      (reaction = .disable ∨ reaction = .disableAll ∨ reaction = .retain))
    (ha : a.Regular) :
    Ensures Fault.Bad (react cfg alloc i a t reaction) fun t' =>
      Rest cfg none True t' ∧ t'.watchPointArray.length = t.watchPointArray.length := by
  obtain ⟨wpi, hw, hfd, hidle⟩ := h.location i rfl
  cases reaction with
  | triggered =>
    have hm : cfg.isWPModifyEnabled = true := by
      cases hm : cfg.isWPModifyEnabled with
      | true => rfl
      | false => simpa using (hmodify hm).2
    exact .pure ⟨.of_modify h.sound hm, rfl⟩
  | disable =>
    obtain ⟨t₁, hs₁, hc⟩ := h.sound.wrapper hw
    obtain ⟨wpi₁, hw₁, hq⟩ := hc.slot
    obtain ⟨slots, hreset, hsame⟩ := resetProbability_eq hw₁
    obtain ⟨wpi₂, hw₂, hcore⟩ := hsame.symm.of_getElem? hw₁
    have hrest : Rest cfg none True t₁ :=
      h.leave hc fun hm wpi' hq hfd => absurd (hq.2.2 hm) hfd
    have hkept := hrest.kept_same hsame
    have harm : cfg.isWPModifyEnabled = true ∨ wpi₂.fileHandle = none := by
      cases hm : cfg.isWPModifyEnabled with
      | true => exact .inl rfl
      | false => exact .inr ((core_fields hcore).1.trans (hq.2.2 hm))
    rw [WatchpointSlots.react]
    simp only [bind, Except.bind, hs₁, hreset]
    refine (hkept.rest.rearm hcfg halloc hw₂ harm ha).mono fun t' hkept' => ⟨hkept'.rest, ?_⟩
    rw [hkept'.length, hkept.length, hc.only.length]
  | disableAll =>
    obtain ⟨t', hs, hrest, hlen⟩ := h.sound.disableSlots True
      (List.range t.watchPointArray.length) (fun i hi => List.mem_range.mp hi)
      fun hm j b hj hb => by
        have hlt := (List.getElem?_eq_some_iff.mp hb).1
        exact absurd (List.mem_range.mpr hlt) hj
    rw [WatchpointSlots.react, hs]
    exact .pure ⟨hrest, hlen⟩
  | alreadyDisabled =>
    have hm : cfg.isWPModifyEnabled = true := by
      cases hm : cfg.isWPModifyEnabled with
      | true => rfl
      | false => simpa using (hmodify hm).2
    obtain ⟨slots, hreset, hsame⟩ := resetProbability_eq hw
    obtain ⟨wpi₂, hw₂, -⟩ := hsame.symm.of_getElem? hw
    have hrest : Rest cfg none True { t with watchPointArray := slots } :=
      .of_modify (h.sound.same hsame) hm
    rw [WatchpointSlots.react, slot_eq hw]
    simp only [bind, Except.bind, hidle (halready rfl), Bool.false_eq_true, if_false, hreset]
    refine (hrest.rearm hcfg halloc hw₂ (.inl hm) ha).mono fun t' hkept' => ⟨hkept'.rest, ?_⟩
    rw [hkept'.length, hsame.length_eq]
  | retain =>
    rw [WatchpointSlots.react, slot_eq hw]
    simp only [bind, Except.bind]
    split_ifs with hactive
    · refine .pure ⟨⟨h.sound, fun hm => ?_, nofun⟩, rfl⟩
      rw [hidle (hmodify hm).1] at hactive
      cases hactive
    · obtain ⟨events, hs, hc⟩ := h.sound.enable hw hfd
      rw [hs]
      exact .pure ⟨h.leave hc fun _ wpi' hq _ => hq, hc.only.length⟩

end Trap

/-! ## Whole runs -/

structure AtRest (cfg : Config) (t : ThreadData) : Prop where
  rest : Rest cfg none True t
  on : AllOn t

section Runs
variable {cfg : Config} {alloc : Events → Fd} {quiet : Prop} {t : ThreadData}
  (hcfg : cfg.isLBREnabled = cfg.isWPModifyEnabled) (halloc : Allocates alloc)

theorem Rest.quieten (h : Rest cfg none True t) : Rest cfg none quiet t :=
  ⟨h.sound, h.tight, nofun⟩

include hcfg halloc

theorem Rest.trap {siFd : Fd} {calls : List Call} {reaction : Reaction} {a : Arming}
    (h : Rest cfg none True t) (hregular : (Event.trap siFd calls reaction a).Regular cfg) :
    Ensures Fault.Bad (onWatchPoint cfg alloc siFd calls reaction a t) fun t' =>
      AtRest cfg t' ∧ t'.watchPointArray.length = t.watchPointArray.length := by
  obtain ⟨ha, hcalls, halready, hmodify⟩ := hregular
  have hpaused : Rest cfg none True (WatchpointSlots.switchAll false t) := h.switchAll
  rw [onWatchPoint]
  cases hfind : (WatchpointSlots.switchAll false t).watchPointArray.findIdx? fun wpi =>
      wpi.isActive && wpi.fileHandle == some siFd with
  | none => exact .pure ⟨⟨hpaused.switchAll, hpaused.sound.allOn⟩, rfl⟩
  | some location =>
    obtain ⟨hlt, hslot, -⟩ := List.findIdx?_eq_some_iff_getElem.mp hfind
    obtain ⟨wpi, hw⟩ := exists_slot hlt
    obtain rfl : (WatchpointSlots.switchAll false t).watchPointArray[location] = wpi :=
      (List.getElem?_eq_some_iff.mp hw).2
    simp only [Bool.and_eq_true, beq_iff_eq] at hslot
    obtain ⟨t₁, hs₁, hc⟩ := hpaused.sound.disable hw hslot.2
    have htrapped : Rest cfg (some location) (∀ c ∈ calls, ¬c.Subscribes) t₁ := by
      refine hpaused.quieten.trapped hc ?_
      rintro wpi' rfl
      exact ⟨by simp [hslot.2], fun _ => rfl⟩
    have hne₁ : t₁.watchPointArray ≠ [] := by
      rw [← List.length_pos_iff, hc.only.length]
      exact Nat.zero_lt_of_lt hlt
    have hrun := htrapped.calls hcfg halloc hne₁ (fun hm => (hmodify hm).1) hcalls
      (.inr fun c hc hsub hquiet => hquiet c hc hsub)
    simp only [bind, Except.bind, hs₁]
    refine hrun.bind fun t₂ _ hkept => ?_
    refine (hkept.rest.react hcfg halloc halready hmodify ha).bind fun t₃ _ h₃ => .pure ?_
    refine ⟨⟨h₃.1.switchAll, h₃.1.sound.allOn⟩, ?_⟩
    exact h₃.2.trans (hkept.length.trans hc.only.length)

theorem AtRest.step {e : Event} (h : AtRest cfg t) (hne : t.watchPointArray ≠ [])
    (hregular : e.Regular cfg) :
    Ensures Fault.Bad (eventStep cfg alloc e t) fun t' =>
      AtRest cfg t' ∧ t'.watchPointArray.length = t.watchPointArray.length := by
  cases e with
  | call c =>
    refine (h.rest.call hcfg halloc hne (fun _ => trivial) hregular (.inl rfl)).mono ?_
    exact fun t' hkept => ⟨⟨hkept.rest, hkept.on h.on⟩, hkept.length⟩
  | trap siFd calls reaction a => exact h.rest.trap hcfg halloc hregular

end Runs

/-- `WP_ThreadTerminate` on the slots that are left. -/
theorem Sound.terminate {cfg : Config} {t : ThreadData} (h : Sound cfg t) (is : List ℕ)
    (his : ∀ i ∈ is, i < t.watchPointArray.length)
    (hrest : ∀ (j : ℕ) (wpi : RegisterInfo), j ∉ is → t.watchPointArray[j]? = some wpi →
      wpi.fileHandle = none) :
    ∃ t', is.foldlM terminateSlot t = .ok t' ∧ ∀ fd, t'.events.lookup fd = none := by
  induction is generalizing t with
  | nil =>
    refine ⟨t, rfl, fun fd => ?_⟩
    cases he : t.events.lookup fd with
    | none => rfl
    | some e =>
      obtain ⟨i, wpi, hw, hfd⟩ := h.owned fd (by rw [he]; rfl)
      rw [hrest i wpi (by simp) hw] at hfd
      cases hfd
  | cons i is ih =>
    obtain ⟨hi, his⟩ := List.forall_mem_cons.mp his
    obtain ⟨wpi, hw⟩ := exists_slot hi
    have hclosed : ∃ t₁, terminateSlot t i = .ok t₁ ∧
        Changed cfg i t (fun _ wpi' => wpi'.fileHandle = none) t₁ := by
      rw [terminateSlot, slot_eq hw]
      simp only [bind, Except.bind]
      split_ifs with hfd
      · obtain ⟨fd, hfd⟩ := Option.ne_none_iff_exists'.mp hfd
        obtain ⟨t₁, hs, hc⟩ := h.close hw hfd
        exact ⟨t₁, hs, hc.mono fun wpi' hq => hq.1⟩
      · exact ⟨t, rfl, h.unchanged hw (not_not.mp hfd)⟩
    obtain ⟨t₁, hs, hc⟩ := hclosed
    obtain ⟨wpi₁, hw₁, hfd₁⟩ := hc.slot
    have hrest₁ : ∀ (j : ℕ) (b : RegisterInfo), j ∉ is → t₁.watchPointArray[j]? = some b →
        b.fileHandle = none := by
      intro j b hj hb
      by_cases hji : j = i
      · subst hji
        obtain rfl := Option.some.inj (hw₁.symm.trans hb)
        exact hfd₁
      · rw [hc.only.other hji] at hb
        exact hrest j b (by simp [hji, hj]) hb
    obtain ⟨t', hs', hempty⟩ := ih hc.sound (fun j hj => hc.only.length ▸ his j hj) hrest₁
    refine ⟨t', ?_, hempty⟩
    rw [List.foldlM_cons, hs]
    exact hs'

theorem AtRest.terminate {cfg : Config} {t : ThreadData} (h : AtRest cfg t) :
    ∃ t', threadTerminate t = .ok t' ∧ ∀ fd, t'.events.lookup fd = none :=
  h.rest.sound.terminate _ (fun _ hi => List.mem_range.mp hi) fun _ _ hj hb =>
    absurd (List.mem_range.mpr (List.getElem?_eq_some_iff.mp hb).1) hj

theorem atRest_init (cfg : Config) (memory : List RegisterInfo) :
    AtRest cfg (threadInit memory) := by
  have hslots : ∀ (i : ℕ) (wpi : RegisterInfo), (threadInit memory).watchPointArray[i]? = some wpi →
      wpi.fileHandle = none ∧ wpi.isActive = false := by
    intro i wpi hw
    obtain ⟨b, -, rfl⟩ := List.mem_map.mp (List.mem_of_getElem? hw)
    exact ⟨rfl, rfl⟩
  refine ⟨⟨⟨fun fd hfd => ?_, fun i j a b fd ha _ hafd => ?_, fun i wpi hw => ?_, nofun⟩,
    fun _ i wpi _ hw hfd => absurd (hslots i wpi hw).1 hfd, nofun⟩, fun i wpi hw hactive => ?_⟩
  · cases hfd
  · rw [(hslots i a ha).1] at hafd
    cases hafd
  · obtain ⟨hfd, hactive⟩ := hslots i wpi hw
    refine ⟨fun fd heq => ?_, fun hne => absurd hfd hne, fun heq => ?_⟩
    · rw [hfd] at heq
      cases heq
    · rw [hactive] at heq
      cases heq
  · rw [(hslots i wpi hw).2] at hactive
    cases hactive

section Runs
variable {alloc : Events → Fd} {memory : List RegisterInfo} {events : List Event}

theorem run_kept {cfg : Config} (hcfg : cfg.isLBREnabled = cfg.isWPModifyEnabled)
    (halloc : Allocates alloc) (hmemory : memory ≠ []) (hregular : ∀ e ∈ events, e.Regular cfg) :
    Ensures Fault.Bad (run (eventStep cfg alloc) events (threadInit memory)) fun t =>
      AtRest cfg t ∧ t.watchPointArray.length = memory.length := by
  refine run_ensures (C := fun e _ => e.Regular cfg) (fun e t h hregular => ?_)
    ⟨atRest_init cfg memory, by simp [threadInit]⟩ (meets_of_mem hregular)
  have hne : t.watchPointArray ≠ [] := by
    rw [← List.length_pos_iff, h.2]
    exact List.length_pos_iff.mpr hmemory
  exact (h.1.step hcfg halloc hne hregular).mono fun t' h' => ⟨h'.1, h'.2.trans h.2⟩

def nextFd (events : Events) : Fd := events.keys.foldr max 0 + 1

theorem nextFd_allocates : Allocates nextFd := by
  intro events
  have hle : ∀ (l : List Fd) (fd : Fd), fd ∈ l → fd ≤ l.foldr max 0 := by
    intro l
    induction l with
    | nil => exact fun fd h => nomatch h
    | cons a l ih =>
      intro fd h
      obtain rfl | h := List.mem_cons.mp h
      · exact le_max_left fd _
      · exact (ih fd h).trans (le_max_right a _)
  rw [AList.lookup_eq_none]
  intro hmem
  exact Nat.not_succ_le_self _ (hle _ _ (AList.mem_keys.mp hmem))

def writeWatch (va : Addr) : SampleData := { va := va, watchType := .write, calleeCtxtFrame := {} }

def armedAt (rdtsc : ℤ) : Arming := ⟨true, true, true, rdtsc⟩

theorem armedAt_regular {rdtsc : ℤ} (hpos : 0 < rdtsc) (hle : rdtsc ≤ 100) :
    (armedAt rdtsc).Regular := by
  have hlt : rdtsc < 2 ^ 63 - 1 := by omega
  exact ⟨rfl, rfl, hpos, hlt⟩

def oneSlot : List RegisterInfo := [⟨writeWatch 0, 0, 0, none, false, 0, false⟩]

def twoSlots : List RegisterInfo := oneSlot ++ oneSlot

end Runs

end Trace4J.Profiler.WatchpointSlots
