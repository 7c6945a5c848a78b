import Mathlib.Data.Int.Order.Basic
import Mathlib.Data.List.Basic
import Trace4J.Library.GuardFlag
import Trace4J.Library.Run

/-!
# The guard of a sampled thread

`inside_agent` is a field of the thread data. JVMTI callbacks put it up and down with
`BLOCK_SAMPLE` and `UNBLOCK_SAMPLE`, and the two signal handlers with `profiler_safe_enter` and
`profiler_safe_exit`. A state is the thread data and the stack of routines that interrupt one
another; a signal or a trap may arrive before every step of the routine on top.
-/

namespace Trace4J.Profiler.SafeSampling
open Library Library.GuardFlag

/-! ## Thread data -/

structure PerfEventThread where
  fd : ℤ
  enabled : Bool
deriving DecidableEq, Repr

/-- `PERF_EVENT_IOC_ENABLE` or `PERF_EVENT_IOC_DISABLE`, unless there is no descriptor. -/
def PerfEventThread.switch (on : Bool) (e : PerfEventThread) : PerfEventThread :=
  if e.fd < 0 then e else { e with enabled := on }

structure ThreadData where
  insideAgent : Bool := false
  perfState : Option (List PerfEventThread) := none
deriving DecidableEq, Repr

/-- The values of the two thread-specific keys; `wpData` tells whether the watchpoint library
has one. -/
structure Thread where
  td : Option ThreadData := none
  wpData : Bool := false
deriving DecidableEq, Repr

namespace Thread

/-- `thread_data_get`, which allocates what is not there. -/
def threadDataGet (t : Thread) : ThreadData := t.td.getD {}

def insideAgent (t : Thread) : Bool := t.threadDataGet.insideAgent

def perfState (t : Thread) : Option (List PerfEventThread) := t.threadDataGet.perfState

def events (t : Thread) : List PerfEventThread := t.perfState.getD []

def setInsideAgent (b : Bool) (t : Thread) : Thread :=
  { t with td := some { t.threadDataGet with insideAgent := b } }

def setPerfState (state : Option (List PerfEventThread)) (t : Thread) : Thread :=
  { t with td := some { t.threadDataGet with perfState := state } }

end Thread

inductive Fault
  | notRunnable | assertion
deriving DecidableEq, Repr

/-! ## The handlers -/

structure SigInfo where
  siCode : ℤ
  siFd : ℤ
deriving DecidableEq, Repr

/-- One turn of the loop of `perf_stop_all` or `perf_start_all` at event `k`. -/
def switchEvent {α : Type} (on : Bool) (k : ℕ) (again : ℕ → α) (next : α) (t : Thread) :
    Except Fault (α × Thread) :=
  match t.perfState with
  | none => .error .assertion
  | some es =>
    if k < es.length then
      .ok (again (k + 1), t.setPerfState (some (es.modify k (PerfEventThread.switch on))))
    else .ok (next, t)

def restartPerfEvent (fd : ℤ) (es : List PerfEventThread) : List PerfEventThread :=
  es.map fun e => if e.fd = fd then { e with enabled := true } else e

/-- Where `perf_event_handler` stands: in `profiler_safe_enter`, at the test of the event list,
disabling event `k`, at its three checks, parsing the buffer, restarting the event, enabling
event `k`, and at `profiler_safe_exit`. -/
inductive PerfPc
  | readFlag
  | setFlag (prev : Bool)
  | getState
  | stopping (k : ℕ)
  | checkCode
  | findEvent
  | handling
  | restart
  | starting (k : ℕ)
  | exit
deriving DecidableEq, Repr

def perfEventHandler (info : SigInfo) : PerfPc → Thread → Except Fault (Option PerfPc × Thread)
  | .readFlag, t => .ok (some (.setFlag t.insideAgent), t)
  | .setFlag prev, t => .ok (if prev then none else some .getState, t.setInsideAgent true)
  | .getState, t => .ok (t.perfState.map fun _ => .stopping 0, t)
  | .stopping k, t => switchEvent false k (fun k => some (.stopping k)) (some .checkCode) t
  | .checkCode, t => .ok (some (if info.siCode < 0 then .starting 0 else .findEvent), t)
  | .findEvent, t =>
    .ok (some (if t.events.any (·.fd = info.siFd) then .handling else .restart), t)
  | .handling, t => .ok (some .restart, t)
  | .restart, t =>
    if info.siFd < 0 then .error .assertion
    else .ok (some (.starting 0), t.setPerfState (t.perfState.map (restartPerfEvent info.siFd)))
  | .starting k, t => switchEvent true k (fun k => some (.starting k)) (some .exit) t
  | .exit, t => .ok (none, t.setInsideAgent false)

/-- Where `OnWatchPoint` stands: at the test of its thread data, in the pause function at event
`k`, looking for the watchpoint, in `OnRetWatchPoint` up to its exit, taking the action, and in
the resume function at event `k`. -/
inductive WpPc
  | getData
  | pausing (k : ℕ)
  | findLocation
  | readFlag
  | setFlag (prev : Bool)
  | handling
  | exit
  | action
  | resuming (k : ℕ)
deriving DecidableEq, Repr

/-- Whether the descriptor is that of an active watchpoint, and whether `WP_CollectTriggerInfo`,
which is asked when the branch records are on, finds a sample. -/
structure TrapInfo where
  active : Bool
  isLBREnabled : Bool
  collected : Bool
deriving DecidableEq, Repr

/-- One step of `OnWatchPoint` and of the `OnRetWatchPoint` that it calls. Every return of the
latter but the first has a `profiler_safe_exit` in front of it. -/
def onWatchPoint (info : TrapInfo) : WpPc → Thread → Except Fault (Option WpPc × Thread)
  | .getData, t => .ok (if t.wpData then some (.pausing 0) else none, t)
  | .pausing k, t => switchEvent false k (fun k => some (.pausing k)) (some .findLocation) t
  | .findLocation, t =>
    .ok (some (if info.active then
      -- a dropped sample goes to the action, as `WP_DISABLE`
      if info.isLBREnabled && !info.collected then .action else .readFlag
      else .resuming 0), t)
  | .readFlag, t => .ok (some (.setFlag t.insideAgent), t)
  | .setFlag prev, t => .ok (some (if prev then .action else .handling), t.setInsideAgent true)
  | .handling, t => .ok (some .exit, t)
  | .exit, t => .ok (some .action, t.setInsideAgent false)
  | .action, t => .ok (some (.resuming 0), t)
  | .resuming k, t => switchEvent true k (fun k => some (.resuming k)) none t

/-! ## The callbacks -/

inductive Op
  | block | unblock | work
  | threadDataAlloc | threadDataDealloc
  | wpThreadInit | wpThreadTerminate
  | newPerfState
  | openEvent (fd : ℤ)
  | startAll | stopAll
  | deletePerfState
deriving DecidableEq, Repr

def Op.step : Op → Thread → Except Fault Thread
  | .block, t => .ok (t.setInsideAgent true)
  | .unblock, t => .ok (t.setInsideAgent false)
  | .work, t => .ok t
  | .threadDataAlloc, t => .ok { t with td := some {} }
  | .threadDataDealloc, t =>
    if (t.td.bind ThreadData.perfState).isSome then .error .assertion
    else .ok { t with td := none }
  | .wpThreadInit, t => .ok { t with wpData := true }
  | .wpThreadTerminate, t => .ok { t with wpData := false }
  | .newPerfState, t => .ok (t.setPerfState (some t.events))
  | .openEvent fd, t => .ok (t.setPerfState (t.perfState.map (· ++ [⟨fd, false⟩])))
  | .startAll, t => .ok (t.setPerfState (t.perfState.map (·.map (PerfEventThread.switch true))))
  | .stopAll, t => .ok (t.setPerfState (t.perfState.map (·.map (PerfEventThread.switch false))))
  | .deletePerfState, t => .ok (t.setPerfState none)

/-- A thread start has the descriptors that `setupEvents` opens, and whether it opens all. -/
inductive Callback
  | vmInit | vmDeath
  | threadStart (fds : List ℤ) (opened : Bool)
  | threadEnd
  | gcEnd
  | compiledMethodLoad | compiledMethodUnload
  | classLoad | classPrepare
deriving DecidableEq, Repr

/-- In three callbacks the guard is commented out. -/
def Callback.ops : Callback → List Op
  | .vmInit | .classLoad | .classPrepare => [.work]
  | .vmDeath | .gcEnd | .compiledMethodLoad | .compiledMethodUnload => [.block, .work, .unblock]
  | .threadStart fds opened =>
    [.block, .threadDataAlloc, .work, .wpThreadInit, .work, .newPerfState] ++
      fds.map .openEvent ++ (if opened then [.startAll] else []) ++ [.unblock]
  | .threadEnd =>
    [.block, .stopAll, .deletePerfState, .wpThreadTerminate, .work, .threadDataDealloc, .work,
      .unblock]

/-! ## Runs of a thread -/

inductive Frame
  | perf (info : SigInfo) (pc : PerfPc)
  | wp (info : TrapInfo) (pc : WpPc)
  | callback (ops : List Op)
deriving DecidableEq, Repr

def Frame.step : Frame → Thread → Except Fault (Option Frame × Thread)
  | .perf info pc, t => (perfEventHandler info pc t).map fun out => (out.1.map (.perf info), out.2)
  | .wp info pc, t => (onWatchPoint info pc t).map fun out => (out.1.map (.wp info), out.2)
  | .callback [], t => .ok (none, t)
  | .callback (op :: ops), t => (op.step t).map fun t => (some (.callback ops), t)

structure ThreadState where
  thread : Thread := {}
  frames : List Frame := []
deriving DecidableEq, Repr

/-- Signals and traps arrive at any point, and callbacks one after the other. -/
inductive Action
  | signal (info : SigInfo)
  | trap (info : TrapInfo)
  | callback (c : Callback)
  | run
deriving DecidableEq, Repr

def Action.step : Action → ThreadState → Except Fault ThreadState
  | .signal info, s => .ok { s with frames := .perf info .readFlag :: s.frames }
  | .trap info, s => .ok { s with frames := .wp info .getData :: s.frames }
  | .callback c, s =>
    if s.frames = [] then .ok { s with frames := [.callback c.ops] } else .error .notRunnable
  | .run, s =>
    match s.frames with
    | [] => .error .notRunnable
    | f :: frames => (f.step s.thread).map fun out => ⟨out.2, out.1.toList ++ frames⟩

/-! ## The guard at every point -/

/-- A callback is inside between its `BLOCK_SAMPLE` and its `UNBLOCK_SAMPLE`, and a handler
between a successful `profiler_safe_enter` and its `profiler_safe_exit`. -/
def Frame.role : Frame → Role
  | .perf _ .readFlag => .outside
  | .perf _ (.setFlag prev) => .read prev
  | .perf _ _ => .inside
  | .wp _ (.setFlag prev) => .read prev
  | .wp _ .handling | .wp _ .exit => .inside
  | .wp _ _ => .outside
  | .callback ops => if .unblock ∈ ops ∧ .block ∉ ops then .inside else .outside

def PerfEventThread.On (e : PerfEventThread) : Prop := 0 ≤ e.fd → e.enabled = true

def AllOn (es : List PerfEventThread) : Prop := ∀ e ∈ es, e.On

/-- What a routine has done to the events: nothing, disabled some, enabled the first `k` again,
or enabled all again. -/
inductive Phase
  | untouched
  | off
  | upTo (k : ℕ)
  | restored
deriving DecidableEq, Repr

def Frame.phase : Frame → Phase
  | .perf _ .readFlag | .perf _ (.setFlag _) | .perf _ .getState => .untouched
  | .perf _ (.starting k) => .upTo k
  | .perf _ .exit => .restored
  | .perf _ _ => .off
  | .wp _ .getData => .untouched
  | .wp _ (.resuming k) => .upTo k
  | .wp _ _ => .off
  | .callback (.deletePerfState :: _) => .off
  | .callback _ => .untouched

structure Guarded (s : ThreadState) : Prop where
  inside : (∃ f ∈ s.frames, f.role = .inside) → s.thread.insideAgent = true
  idle : s.frames = [] → s.thread.insideAgent = false
  alone : s.frames.Pairwise fun f g => ¬(f.role = .inside ∧ g.role = .inside)
  enabled : (∀ f ∈ s.frames, f.phase = .untouched ∨ f.phase = .restored) → AllOn s.thread.events

/-- The step is none of a callback that replaces or drops the thread data, and a perf signal
that has been let in finds the event list. -/
def Sane : Action → ThreadState → Prop
  | .run, ⟨_, .callback (.threadDataAlloc :: _) :: _⟩ => False
  | .run, ⟨_, .callback (.threadDataDealloc :: _) :: _⟩ => False
  | .run, ⟨t, .perf _ .getState :: _⟩ => t.perfState.isSome
  | _, _ => True

instance decidableSane (a : Action) (s : ThreadState) : Decidable (Sane a s) := by
  unfold Sane
  split <;> infer_instance

/-! ## The invariant -/

def Regular : List Op → Prop
  | [] => True
  | .block :: ops => .unblock ∈ ops ∧ .block ∉ ops ∧ Regular ops
  | .unblock :: ops => .unblock ∉ ops ∧ Regular ops
  | .stopAll :: ops => ops.head? = some .deletePerfState ∧ Regular ops
  | .threadDataAlloc :: _ | .threadDataDealloc :: _ => True
  | .newPerfState :: _ | .openEvent _ :: _ | .startAll :: _ => False
  | _ :: ops => Regular ops

def Bottom : List Frame → Prop
  | [] => True
  | .callback ops :: frames => frames = [] ∧ Regular ops
  | _ :: frames => Bottom frames

/-- The innermost routine that has touched the events tells what they are like. -/
def EventsSound : List Frame → List PerfEventThread → Prop
  | [], es => AllOn es
  | f :: frames, es =>
    match f.phase with
    | .untouched => EventsSound frames es
    | .off => True
    | .upTo k => AllOn (es.take k)
    | .restored => AllOn es

structure Inv (s : ThreadState) : Prop where
  guard : Sound s.thread.insideAgent (s.frames.map Frame.role)
  bottom : Bottom s.frames
  events : EventsSound s.frames s.thread.events

section Data
variable {t : Thread} {b on : Bool} {k : ℕ} {state : Option (List PerfEventThread)}
  {es : List PerfEventThread} {e : PerfEventThread}

@[simp]
theorem events_setInsideAgent : (t.setInsideAgent b).events = t.events := rfl

@[simp]
theorem events_setPerfState : (t.setPerfState state).events = state.getD [] := rfl

theorem events_of_perfState (h : t.perfState = some es) : t.events = es := by
  rw [Thread.events, h]
  rfl

theorem on_switch (e : PerfEventThread) : (e.switch true).On := by
  rw [PerfEventThread.switch]
  split_ifs with h
  · exact fun hfd => absurd hfd (by omega)
  · exact fun _ => rfl

theorem allOn_take_modify (h : AllOn (es.take k)) :
    AllOn ((es.modify k (PerfEventThread.switch true)).take (k + 1)) := by
  induction es generalizing k with
  | nil => simp [AllOn]
  | cons e es ih =>
    cases k with
    | zero => simpa [AllOn] using on_switch e
    | succ k =>
      rw [List.take_succ_cons, AllOn, List.forall_mem_cons] at h
      rw [List.modify_succ_cons, List.take_succ_cons, AllOn, List.forall_mem_cons]
      exact ⟨h.1, ih h.2⟩

theorem eventsSound_of_allOn {frames : List Frame} (h : AllOn es) : EventsSound frames es := by
  induction frames with
  | nil => exact h
  | cons f frames ih =>
    rw [EventsSound]
    cases f.phase with
    | untouched => exact ih
    | off => trivial
    | upTo k => exact fun e he => h e (List.mem_of_mem_take he)
    | restored => exact h

theorem switchEvent_cases {α : Type} {again : ℕ → α} {next a : α} {t' : Thread}
    (h : switchEvent on k again next t = .ok (a, t')) :
    ∃ es, t.perfState = some es ∧
      (k < es.length ∧ a = again (k + 1) ∧
          t' = t.setPerfState (some (es.modify k (PerfEventThread.switch on))) ∨
        es.length ≤ k ∧ a = next ∧ t' = t) := by
  rw [switchEvent] at h
  cases hstate : t.perfState with
  | none => simp [hstate] at h
  | some es =>
    refine ⟨es, rfl, ?_⟩
    rw [hstate] at h
    dsimp only at h
    split_ifs at h with hk
    · cases h
      exact .inl ⟨hk, rfl, rfl⟩
    · cases h
      exact .inr ⟨by omega, rfl, rfl⟩

end Data

/-! ## One step -/

structure Kept (f : Frame) (frames : List Frame) (f' : Option Frame) (t' : Thread) : Prop where
  guard : Sound t'.insideAgent ((f'.toList ++ frames).map Frame.role)
  events : EventsSound (f'.toList ++ frames) t'.events
  exits : f' = none → f.phase ≠ .untouched → AllOn t'.events

section Step
variable {info : SigInfo} {trap : TrapInfo} {t t' : Thread} {frames : List Frame} {k : ℕ}
  {es : List PerfEventThread}

theorem allOn_of_take (h : AllOn (es.take k)) (hk : es.length ≤ k) : AllOn es := by
  rwa [List.take_of_length_le hk] at h

theorem perfEventHandler_kept {pc : PerfPc} {pc' : Option PerfPc}
    (hsane : pc = .getState → t.perfState.isSome)
    (hguard : Sound t.insideAgent ((Frame.perf info pc :: frames).map Frame.role))
    (hevents : EventsSound (.perf info pc :: frames) t.events)
    (h : perfEventHandler info pc t = .ok (pc', t')) :
    Kept (.perf info pc) frames (pc'.map (.perf info)) t' := by
  cases pc with
  | readFlag =>
    cases h
    exact ⟨hguard.read, hevents, nofun⟩
  | setFlag prev =>
    cases h
    cases prev with
    | false => exact ⟨hguard.enter, hevents, nofun⟩
    | true => exact ⟨hguard.refuse.pop, hevents, fun _ hphase => absurd rfl hphase⟩
  | getState =>
    obtain ⟨es, hes⟩ := Option.isSome_iff_exists.mp (hsane rfl)
    rw [perfEventHandler, hes] at h
    cases h
    exact ⟨hguard, trivial, nofun⟩
  | stopping k =>
    rw [perfEventHandler] at h
    obtain ⟨es, -, ⟨-, rfl, rfl⟩ | ⟨-, rfl, rfl⟩⟩ := switchEvent_cases h
    · exact ⟨hguard, trivial, nofun⟩
    · exact ⟨hguard, trivial, nofun⟩
  | checkCode =>
    cases h
    split_ifs
    · exact ⟨hguard, nofun, nofun⟩
    · exact ⟨hguard, trivial, nofun⟩
  | findEvent =>
    cases h
    split_ifs
    · exact ⟨hguard, trivial, nofun⟩
    · exact ⟨hguard, trivial, nofun⟩
  | handling =>
    cases h
    exact ⟨hguard, trivial, nofun⟩
  | restart =>
    rw [perfEventHandler] at h
    split_ifs at h
    cases h
    exact ⟨hguard, nofun, nofun⟩
  | starting k =>
    rw [perfEventHandler] at h
    obtain ⟨es, hes, ⟨-, rfl, rfl⟩ | ⟨hk, rfl, rfl⟩⟩ := switchEvent_cases h
    · rw [events_of_perfState hes] at hevents
      exact ⟨hguard, allOn_take_modify hevents, nofun⟩
    · rw [events_of_perfState hes] at hevents
      refine ⟨hguard, ?_, nofun⟩
      rw [events_of_perfState hes]
      exact allOn_of_take hevents hk
  | exit =>
    cases h
    exact ⟨hguard.leave.pop, eventsSound_of_allOn hevents, fun _ _ => hevents⟩

theorem onWatchPoint_kept {pc : WpPc} {pc' : Option WpPc}
    (hguard : Sound t.insideAgent ((Frame.wp trap pc :: frames).map Frame.role))
    (hevents : EventsSound (.wp trap pc :: frames) t.events)
    (h : onWatchPoint trap pc t = .ok (pc', t')) :
    Kept (.wp trap pc) frames (pc'.map (.wp trap)) t' := by
  cases pc with
  | getData =>
    cases h
    split_ifs
    · exact ⟨hguard, trivial, nofun⟩
    · exact ⟨hguard.pop, hevents, fun _ hphase => absurd rfl hphase⟩
  | pausing k =>
    rw [onWatchPoint] at h
    obtain ⟨es, -, ⟨-, rfl, rfl⟩ | ⟨-, rfl, rfl⟩⟩ := switchEvent_cases h
    · exact ⟨hguard, trivial, nofun⟩
    · exact ⟨hguard, trivial, nofun⟩
  | findLocation =>
    cases h
    split_ifs
    · exact ⟨hguard, trivial, nofun⟩
    · exact ⟨hguard, trivial, nofun⟩
    · exact ⟨hguard, nofun, nofun⟩
  | readFlag =>
    cases h
    exact ⟨hguard.read, trivial, nofun⟩
  | setFlag prev =>
    cases h
    cases prev with
    | false => exact ⟨hguard.enter, trivial, nofun⟩
    | true => exact ⟨hguard.refuse, trivial, nofun⟩
  | handling =>
    cases h
    exact ⟨hguard, trivial, nofun⟩
  | exit =>
    cases h
    exact ⟨hguard.leave, trivial, nofun⟩
  | action =>
    cases h
    exact ⟨hguard, nofun, nofun⟩
  | resuming k =>
    rw [onWatchPoint] at h
    obtain ⟨es, hes, ⟨-, rfl, rfl⟩ | ⟨hk, rfl, rfl⟩⟩ := switchEvent_cases h
    · rw [events_of_perfState hes] at hevents
      exact ⟨hguard, allOn_take_modify hevents, nofun⟩
    · have hall : AllOn t'.events := by
        rw [events_of_perfState hes] at hevents ⊢
        exact allOn_of_take hevents hk
      exact ⟨hguard.pop, eventsSound_of_allOn hall, fun _ _ => hall⟩

theorem role_callback_cons {op : Op} {ops : List Op} (hblock : op ≠ .block)
    (hunblock : op ≠ .unblock) :
    (Frame.callback (op :: ops)).role = (Frame.callback ops).role := by
  have hblock' : Op.block ∈ op :: ops ↔ .block ∈ ops := by simp [hblock.symm]
  have hunblock' : Op.unblock ∈ op :: ops ↔ .unblock ∈ ops := by simp [hunblock.symm]
  simp only [Frame.role, hblock', hunblock']

theorem callback_kept_of_flag {op : Op} {ops : List Op} (hblock : op ≠ .block)
    (hunblock : op ≠ .unblock) (hregular : Regular ops)
    (hguard : Sound t.insideAgent [(Frame.callback (op :: ops)).role])
    (hflag : t'.insideAgent = t.insideAgent) (hevents : EventsSound [.callback ops] t'.events) :
    Kept (.callback (op :: ops)) [] (some (.callback ops)) t' ∧ Bottom [.callback ops] := by
  rw [role_callback_cons hblock hunblock, ← hflag] at hguard
  exact ⟨⟨hguard, hevents, nofun⟩, rfl, hregular⟩

theorem callback_kept {ops : List Op} {f' : Option Frame}
    (halloc : ops.head? ≠ some .threadDataAlloc) (hdealloc : ops.head? ≠ some .threadDataDealloc)
    (hregular : Regular ops) (hguard : Sound t.insideAgent [(Frame.callback ops).role])
    (hevents : EventsSound [.callback ops] t.events)
    (h : (Frame.callback ops).step t = .ok (f', t')) :
    Kept (.callback ops) [] f' t' ∧ Bottom f'.toList := by
  cases ops with
  | nil =>
    cases h
    exact ⟨⟨hguard.pop, hevents, fun _ hphase => absurd rfl hphase⟩, trivial⟩
  | cons op ops =>
    cases op with
    | block =>
      cases h
      have hrole : (Frame.callback ops).role = .inside := if_pos ⟨hregular.1, hregular.2.1⟩
      refine ⟨⟨?_, eventsSound_of_allOn hevents, nofun⟩, rfl, hregular.2.2⟩
      change Sound true [(Frame.callback ops).role]
      rw [hrole]
      exact ⟨rfl, rfl, trivial⟩
    | unblock =>
      cases h
      have hrole : (Frame.callback ops).role = .outside := if_neg fun hin => hregular.1 hin.1
      refine ⟨⟨?_, eventsSound_of_allOn hevents, nofun⟩, rfl, hregular.2⟩
      change Sound false [(Frame.callback ops).role]
      rw [hrole]
      exact Sound.nil.push
    | stopAll =>
      cases h
      have hevents' : ∀ es, EventsSound [.callback ops] es := by
        obtain ⟨rest, rfl⟩ := List.head?_eq_some_iff.mp hregular.1
        exact fun es => trivial
      exact callback_kept_of_flag (by decide) (by decide) hregular.2 hguard rfl (hevents' _)
    | deletePerfState =>
      cases h
      have hevents' : EventsSound [.callback ops] [] := eventsSound_of_allOn nofun
      exact callback_kept_of_flag (by decide) (by decide) hregular hguard rfl hevents'
    | work =>
      cases h
      exact callback_kept_of_flag (by decide) (by decide) hregular hguard rfl
        (eventsSound_of_allOn hevents)
    | wpThreadInit =>
      cases h
      exact callback_kept_of_flag (by decide) (by decide) hregular hguard rfl
        (eventsSound_of_allOn hevents)
    | wpThreadTerminate =>
      cases h
      exact callback_kept_of_flag (by decide) (by decide) hregular hguard rfl
        (eventsSound_of_allOn hevents)
    | threadDataAlloc => exact absurd rfl halloc
    | threadDataDealloc => exact absurd rfl hdealloc
    | newPerfState => exact hregular.elim
    | openEvent fd => exact hregular.elim
    | startAll => exact hregular.elim

end Step

section Runs
variable {s s' : ThreadState} {a : Action} {f : Frame} {frames : List Frame}

theorem regular_ops (c : Callback) : Regular c.ops := by
  cases c with
  | threadStart fds opened =>
    refine ⟨by simp, ?_, trivial⟩
    cases opened <;> simp
  | _ => simp [Callback.ops, Regular]

theorem Inv.kept {t t' : Thread} {f' : Option Frame} (h : Inv ⟨t, f :: frames⟩)
    (hsane : Sane .run ⟨t, f :: frames⟩) (hstep : f.step t = .ok (f', t')) :
    Kept f frames f' t' ∧ Bottom (f'.toList ++ frames) := by
  cases f with
  | perf info pc =>
    obtain ⟨⟨pc', t₁⟩, hpc, hout⟩ := map_eq_ok.mp hstep
    cases hout
    refine ⟨perfEventHandler_kept ?_ h.guard h.events hpc, ?_⟩
    · rintro rfl
      exact hsane
    · have hbottom : Bottom frames := h.bottom
      cases pc' <;> exact hbottom
  | wp trap pc =>
    obtain ⟨⟨pc', t₁⟩, hpc, hout⟩ := map_eq_ok.mp hstep
    cases hout
    refine ⟨onWatchPoint_kept h.guard h.events hpc, ?_⟩
    have hbottom : Bottom frames := h.bottom
    cases pc' <;> exact hbottom
  | callback ops =>
    obtain ⟨hnil, hregular⟩ : frames = [] ∧ Regular ops := h.bottom
    subst hnil
    rw [List.append_nil]
    apply callback_kept _ _ hregular h.guard h.events hstep
    · intro halloc
      obtain ⟨rest, rfl⟩ := List.head?_eq_some_iff.mp halloc
      exact hsane
    · intro hdealloc
      obtain ⟨rest, rfl⟩ := List.head?_eq_some_iff.mp hdealloc
      exact hsane

theorem Inv.step (h : Inv s) (hsane : Sane a s) (hstep : a.step s = .ok s') : Inv s' := by
  cases a with
  | signal info =>
    cases hstep
    exact ⟨h.guard.push, h.bottom, h.events⟩
  | trap info =>
    cases hstep
    exact ⟨h.guard.push, h.bottom, h.events⟩
  | callback c =>
    rw [Action.step] at hstep
    split_ifs at hstep with hframes
    cases hstep
    have hguard := h.guard
    have hevents := h.events
    rw [hframes] at hguard hevents
    refine ⟨?_, ⟨rfl, regular_ops c⟩, eventsSound_of_allOn hevents⟩
    have hrole : (Frame.callback c.ops).role = .outside := by
      cases c <;> simp [Callback.ops, Frame.role]
    change Sound s.thread.insideAgent [(Frame.callback c.ops).role]
    rw [hrole]
    exact hguard.push
  | run =>
    obtain ⟨t, frames⟩ := s
    cases frames with
    | nil => cases hstep
    | cons f frames =>
      obtain ⟨⟨f', t'⟩, hf, hout⟩ := map_eq_ok.mp hstep
      cases hout
      obtain ⟨hkept, hbottom⟩ := h.kept hsane hf
      exact ⟨hkept.guard, hbottom, hkept.events⟩

theorem allOn_of_untouched {es : List PerfEventThread}
    (h : ∀ f ∈ frames, f.phase = .untouched ∨ f.phase = .restored)
    (hevents : EventsSound frames es) : AllOn es := by
  induction frames with
  | nil => exact hevents
  | cons f frames ih =>
    rw [List.forall_mem_cons] at h
    rw [EventsSound] at hevents
    obtain hphase | hphase := h.1
    · rw [hphase] at hevents
      exact ih h.2 hevents
    · rw [hphase] at hevents
      exact hevents

theorem Inv.guarded (h : Inv s) : Guarded s := by
  refine ⟨?_, ?_, ?_, fun hphase => allOn_of_untouched hphase h.events⟩
  · rintro ⟨f, hf, hrole⟩
    rw [h.guard.flag_eq, anyInside_eq_true, ← hrole]
    exact List.mem_map_of_mem hf
  · intro hframes
    rw [h.guard.flag_eq, hframes]
    rfl
  · exact List.pairwise_map.mp h.guard.disciplined.pairwise

structure Quiet (s : ThreadState) : Prop where
  frames : s.frames = []
  insideAgent : s.thread.insideAgent = false
  events : AllOn s.thread.events

theorem Quiet.inv (h : Quiet s) : Inv s := by
  constructor
  · rw [h.frames, h.insideAgent]
    exact Sound.nil
  · rw [h.frames]
    trivial
  · rw [h.frames]
    exact h.events

theorem run_guarded {s₀ : ThreadState} {actions : List Action} (hquiet : Quiet s₀)
    (hsane : Meets Action.step Sane actions s₀) (hrun : run Action.step actions s₀ = .ok s) :
    Guarded s ∧
      ∀ f s', s.frames = f :: s'.frames → Sane .run s → Action.run.step s = .ok s' →
        f.phase ≠ .untouched → AllOn s'.thread.events := by
  have hinv : Inv s :=
    run_invariant (fun a s s' h hsane hstep => Inv.step h hsane hstep) hquiet.inv hsane hrun
  refine ⟨hinv.guarded, ?_⟩
  intro f s' hframes hs hstep hphase
  obtain ⟨t, frames⟩ := s
  cases hframes
  obtain ⟨⟨f', t'⟩, hf, hout⟩ := map_eq_ok.mp hstep
  obtain ⟨hkept, -⟩ := hinv.kept hs hf
  have hreturn : f' = none := by
    have hlen := congrArg (fun s => s.frames.length) hout
    cases f' with
    | none => rfl
    | some f' => simp at hlen
  rw [← hout]
  exact hkept.exits hreturn hphase

/-- A second signal arrives while the handler of the first one parses the buffer. -/
theorem run_guarded_nestedSignal :
    Guarded ⟨⟨some ⟨true, some [⟨3, true⟩]⟩, false⟩, [.perf ⟨1, 3⟩ .exit]⟩ ∧
      AllOn [⟨3, true⟩] := by
  have hquiet : Quiet ⟨⟨some ⟨false, some [⟨3, true⟩]⟩, false⟩, []⟩ :=
    ⟨rfl, rfl, by simp [Thread.events, Thread.perfState, Thread.threadDataGet, AllOn,
      PerfEventThread.On]⟩
  have hrun : run Action.step [.signal ⟨1, 3⟩, .run, .run, .run, .run, .run, .run, .run,
      .signal ⟨1, 3⟩, .run, .run, .run, .run, .run, .run]
      ⟨⟨some ⟨false, some [⟨3, true⟩]⟩, false⟩, []⟩ =
        .ok ⟨⟨some ⟨true, some [⟨3, true⟩]⟩, false⟩, [.perf ⟨1, 3⟩ .exit]⟩ := rfl
  obtain ⟨hguarded, hexit⟩ := run_guarded hquiet (by decide) hrun
  exact ⟨hguarded, hexit _ ⟨_, []⟩ rfl trivial rfl (by decide)⟩

/-- The first signal of a thread leaves the guard up, and a thread start takes it down between
`BLOCK_SAMPLE` and `UNBLOCK_SAMPLE`. -/
theorem not_guarded_freshThread :
    (∃ s, run Action.step [.signal ⟨1, 3⟩, .run, .run, .run] {} = .ok s ∧ ¬Guarded s) ∧
      ∃ s, run Action.step [.callback (.threadStart [3] true), .run, .run] {} = .ok s ∧
        ¬Guarded s := by
  constructor
  · refine ⟨_, rfl, ?_⟩
    intro h
    exact absurd (h.idle rfl) (by decide)
  · refine ⟨_, rfl, ?_⟩
    intro h
    exact absurd (h.inside ⟨_, List.mem_singleton_self _, by decide⟩) (by decide)

/-- With nothing else on the thread, every step of a routine inside that the condition leaves
out breaks the guard. -/
theorem not_guarded_of_not_sane {t : Thread} (h : Guarded ⟨t, [f]⟩) (hinside : f.role = .inside)
    (hsane : ¬Sane .run ⟨t, [f]⟩) (hstep : Action.run.step ⟨t, [f]⟩ = .ok s') : ¬Guarded s' := by
  have hflag : t.insideAgent = true := h.inside ⟨f, List.mem_singleton_self f, hinside⟩
  intro h'
  cases f with
  | perf info pc =>
    cases pc with
    | getState =>
      have hstate : t.perfState = none := by simpa [Sane] using hsane
      simp only [Action.step, Frame.step, perfEventHandler, hstate, Except.map] at hstep
      cases hstep
      exact absurd hflag (by rw [h'.idle rfl]; decide)
    | _ => exact absurd trivial hsane
  | wp trap pc => exact absurd trivial hsane
  | callback ops =>
    cases ops with
    | nil => exact absurd trivial hsane
    | cons op ops =>
      cases op with
      | threadDataAlloc =>
        rw [role_callback_cons (by decide) (by decide)] at hinside
        obtain rfl := Except.ok.inj hstep
        have hup := h'.inside ⟨_, List.mem_singleton_self _, hinside⟩
        exact Bool.false_ne_true hup
      | threadDataDealloc =>
        rw [role_callback_cons (by decide) (by decide)] at hinside
        simp only [Action.step, Frame.step, Op.step] at hstep
        split_ifs at hstep
        · cases hstep
        obtain rfl := Except.ok.inj hstep
        have hup := h'.inside ⟨_, List.mem_singleton_self _, hinside⟩
        exact Bool.false_ne_true hup
      | _ => exact absurd trivial hsane

/-! ### A thread start on its own -/

theorem run_callback {ops : List Op} {t t' : Thread}
    (h : ops.foldlM (fun t op => op.step t) t = .ok t') :
    run Action.step (.replicate (ops.length + 1) .run) ⟨t, [.callback ops]⟩ = .ok ⟨t', []⟩ := by
  induction ops generalizing t with
  | nil =>
    cases h
    rfl
  | cons op ops ih =>
    obtain ⟨t₁, hop, hrest⟩ := bind_eq_ok.mp (List.foldlM_cons.symm.trans h)
    refine run_cons.mpr ⟨⟨t₁, [.callback ops]⟩, ?_, ih hrest⟩
    simp only [Action.step, Frame.step, hop, Except.map]
    rfl

theorem openEvents (fds : List ℤ) {t : Thread} {es : List PerfEventThread}
    (h : t.perfState = some es) :
    ∃ t', (fds.map Op.openEvent).foldlM (fun t op => op.step t) t = .ok t' ∧
      t'.perfState = some (es ++ fds.map (⟨·, false⟩)) := by
  induction fds generalizing t es with
  | nil => exact ⟨t, rfl, by simpa using h⟩
  | cons fd fds ih =>
    have hopen : (t.setPerfState (t.perfState.map (· ++ [⟨fd, false⟩]))).perfState =
        some (es ++ [⟨fd, false⟩]) := by
      rw [h]
      rfl
    obtain ⟨t', hrest, hstate⟩ := ih hopen
    refine ⟨t', hrest, ?_⟩
    rw [hstate, List.append_assoc, List.map_cons, List.singleton_append]

/-- A thread start that nothing interrupts leaves the thread quiet, with its events on. -/
theorem threadStart_quiet (hquiet : Quiet s) (fds : List ℤ) :
    ∃ actions s', run Action.step actions s = .ok s' ∧ Quiet s' ∧
      s'.thread.perfState = some (fds.map fun fd => PerfEventThread.switch true ⟨fd, false⟩) := by
  obtain ⟨t, frames⟩ := s
  obtain rfl : frames = [] := hquiet.frames
  have hnew : (⟨some ⟨false, some []⟩, true⟩ : Thread).perfState = some [] := rfl
  obtain ⟨t₁, hopened, hstate⟩ := openEvents fds hnew
  rw [List.nil_append] at hstate
  have hops : (Callback.threadStart fds true).ops.foldlM (fun t op => op.step t) t =
      .ok ((t₁.setPerfState (t₁.perfState.map (·.map (PerfEventThread.switch true)))).setInsideAgent
        false) := by
    rw [Callback.ops, if_pos rfl, List.foldlM_append, List.foldlM_append, List.foldlM_append]
    exact bind_eq_ok.mpr ⟨_, bind_eq_ok.mpr ⟨t₁, hopened, rfl⟩, rfl⟩
  refine ⟨.callback (.threadStart fds true) :: .replicate _ .run, _,
    run_cons.mpr ⟨_, rfl, run_callback hops⟩, ⟨rfl, rfl, ?_⟩, ?_⟩
  · rw [events_setInsideAgent, events_setPerfState, hstate, Option.map_some, List.map_map]
    intro e he
    obtain ⟨fd, -, rfl⟩ := List.mem_map.mp he
    exact on_switch _
  · change t₁.perfState.map _ = _
    rw [hstate, Option.map_some, List.map_map]
    rfl

end Runs
end Trace4J.Profiler.SafeSampling
