import Trace4J.Library.Run
import Trace4J.Profiler.Metrics
import Mathlib.Algebra.BigOperators.Group.List.Basic

/-!
# Attach sessions

The agent can be attached to one process again and again. Its configuration lives in
statics that `process_event_list` and `SetupWatermarkMetric` overwrite only in part, and
that `shutdown` leaves as they are. A session finds the configuration of a fresh process
exactly when no earlier one configured an event, and none left a threshold or a method
that its own argument does not replace.
-/

namespace Trace4J.Profiler
open Library

structure EventInfo where
  name : Text := []
  threshold : UInt32 := 0
  preciseIp : ℕ := 0
deriving DecidableEq, Repr

structure Statics where
  eventInfo : ℕ → EventInfo := fun _ => {}
  numEvents : ℕ := 0
  decodeThreshold : UInt64 := 0
  selectedMethod : Text := []
  watermark : Watermark := {}

/-- The `PRECISE_IP` of the environment, and the encoding of an event by the performance
monitoring library, which may overwrite `precise_ip`. -/
structure Platform where
  preciseIp : ℕ
  encodeEvent : Text → ℕ → Option ℕ

inductive StartFault
  | assertion | outOfRange | badNumber
deriving DecidableEq, Repr

/-! ## The argument -/

/-- `Tokenize` with the delimiter `,`; it makes no empty token. -/
def tokenize (str : Text) : List Text := (str.splitOn ',').filter (· ≠ [])

def findPos (p : Text) : Text → Option ℕ
  | [] => if p = [] then some 0 else none
  | c :: s => if p <+: c :: s then some 0 else (findPos p s).map (· + 1)

def isNumber (str : Text) : Bool := str.all Char.isDigit

def decimalValue (digits : Text) : ℕ := digits.foldl (fun n c => 10 * n + (c.toNat - 48)) 0

/-- `iss >> decodeThreshold`, which saturates. -/
def readThreshold (str : Text) : UInt64 := UInt64.ofNat (min (decimalValue str) (2 ^ 64 - 1))

/-- In the "C" locale: a blank, or one of the control characters from `\t` to `\r`. -/
def isspace (c : Char) : Bool := decide (c = ' ' ∨ 9 ≤ c.toNat ∧ c.toNat ≤ 13)

/-- `std::stoull` in base 10: white space, a sign, at least one digit, then anything. -/
def stoull (str : Text) : Except StartFault ℕ :=
  let str := str.dropWhile isspace
  let negative := decide (str.head? = some '-')
  let digits := (if negative ∨ str.head? = some '+' then str.tail else str).takeWhile Char.isDigit
  if digits = [] ∨ 2 ^ 64 ≤ decimalValue digits then .error .badNumber
  else .ok (if negative then (2 ^ 64 - decimalValue digits) % 2 ^ 64 else decimalValue digits)

structure EventList where
  events : List Text
  threshold : Option UInt64
  method : Option Text

def methodMark : Text := ['M', 'e', 't', 'h', 'o', 'd', ':']

/-- The head of `process_event_list`; an empty list is indexed out of range. -/
def splitEventList (eventList : List Text) : Except StartFault EventList :=
  match eventList.getLast? with
  | none => .error .outOfRange
  | some last =>
    let threshold := if isNumber last then some (readThreshold last) else none
    let rest := if isNumber last then eventList.dropLast else eventList
    match rest.getLast? with
    | none => .error .outOfRange
    | some tempstr =>
      match findPos methodMark tempstr with
      | some pos => .ok ⟨rest.dropLast, threshold, some (tempstr.drop (pos + 7))⟩
      | none => .ok ⟨rest, threshold, none⟩

/-! ## The start of a session -/

def maxNumEvents : ℕ := 10

def clientOf (event clientName : Text) : Except StartFault (Text × ℕ) :=
  match findPos [':', ':'] event with
  | none => if clientName = [] then .error .assertion else .ok (clientName, 0)
  | some pos => .ok ((event.take pos).map Char.toUpper, pos + 2)

/-- The threshold of an event without a rate is the one that stood there before. -/
def nameAndRate (event : Text) (pos : ℕ) (info : EventInfo) : Except StartFault EventInfo :=
  match findPos ['@'] event with
  | some pos2 => do
    let rate ← stoull (event.drop (pos2 + 1))
    .ok { info with
      name := if pos ≤ pos2 then (event.drop pos).take (pos2 - pos) else event.drop pos
      threshold := UInt32.ofNat rate }
  | none => .ok { info with name := event.drop pos }

def processEvent (p : Platform) (i : ℕ) (event clientName : Text) (g : Statics) :
    Except StartFault (Text × Statics) := do
  let (clientName, pos) ← clientOf event clientName
  let info ← nameAndRate event pos (g.eventInfo i)
  let info := if info.threshold ≠ 0 then { info with preciseIp := p.preciseIp } else info
  match p.encodeEvent info.name info.preciseIp with
  | none => .error .assertion
  | some preciseIp =>
    match setupWatermarkMetric g.watermark clientName info.name with
    | none => .error .assertion
    | some w =>
      .ok (clientName, { g with
        eventInfo := Function.update g.eventInfo i { info with preciseIp := preciseIp }
        watermark := w })

def processEvents (p : Platform) : ℕ → List Text → Text → Statics → Except StartFault Statics
  | _, [], _, g => .ok g
  | i, event :: events, clientName, g => do
    let (clientName, g) ← processEvent p i event clientName g
    processEvents p (i + 1) events clientName g

def configure (l : EventList) (g : Statics) : Statics :=
  { g with
    numEvents := l.events.length
    decodeThreshold := l.threshold.getD g.decodeThreshold
    selectedMethod := l.method.getD g.selectedMethod }

def processEventList (p : Platform) (eventList : List Text) (g : Statics) :
    Except StartFault Statics := do
  let l ← splitEventList eventList
  if maxNumEvents ≤ l.events.length then .error .assertion
  else processEvents p 0 l.events [] (configure l g)

def clearMetricIds (w : Watermark) : Watermark :=
  let clear := fun (ids : ℕ → ℤ) i => if i < maxEvents then -1 else ids i
  { w with
    meanMetricId := clear w.meanMetricId
    varianceMetricId := clear w.varianceMetricId
    m2MetricId := clear w.m2MetricId
    cvMetricId := clear w.cvMetricId }

def jvmInit (p : Platform) (arg : Text) (g : Statics) : Except StartFault Statics :=
  processEventList p (tokenize arg) { g with watermark := clearMetricIds g.watermark }

/-- `JVM::shutdown` writes none of the statics. -/
def jvmShutdown (g : Statics) : Statics := g

def session (p : Platform) (arg : Text) (g : Statics) : Except StartFault Statics := do
  let g ← jvmInit p arg g
  .ok (jvmShutdown g)

def Statics.curEventId (g : Statics) : ℕ := g.numEvents

structure SameTracing (g f : Statics) : Prop where
  numEvents : g.numEvents = f.numEvents
  eventInfo : ∀ i < f.numEvents, g.eventInfo i = f.eventInfo i
  decodeThreshold : g.decodeThreshold = f.decodeThreshold
  selectedMethod : g.selectedMethod = f.selectedMethod
  curWatermarkId : g.watermark.curWatermarkId = f.watermark.curWatermarkId
  sampleCntMetricId : g.watermark.sampleCntMetricId = f.watermark.sampleCntMetricId
  metricIds : ∀ i, 1 ≤ i → i < f.watermark.curWatermarkId →
    g.watermark.startMetricId i = f.watermark.startMetricId i ∧
    g.watermark.endMetricId i = f.watermark.endMetricId i ∧
    g.watermark.meanMetricId i = f.watermark.meanMetricId i ∧
    g.watermark.varianceMetricId i = f.watermark.varianceMetricId i ∧
    g.watermark.m2MetricId i = f.watermark.m2MetricId i ∧
    g.watermark.cvMetricId i = f.watermark.cvMetricId i
  curEventId : g.curEventId = g.watermark.curWatermarkId

def argument (arg : Text) : EventList :=
  match splitEventList (tokenize arg) with
  | .ok l => l
  | .error _ => ⟨[], none, none⟩

def leftThreshold (args : List Text) : UInt64 :=
  (args.filterMap fun a => (argument a).threshold).getLastD 0

def leftMethod (args : List Text) : Text :=
  (args.filterMap fun a => (argument a).method).getLastD []

/-- No earlier session configured an event, and the argument replaces what they left. -/
structure LeavesFresh (args : List Text) (arg : Text) : Prop where
  events : ∀ a ∈ args, (argument a).events = []
  threshold : (argument arg).threshold = none → leftThreshold args = 0
  method : (argument arg).method = none → leftMethod args = []

variable {p : Platform} {g g' f : Statics} {arg client client' event : Text} {i : ℕ}
  {events : List Text} {args : List Text}

/-! ## What a start changes -/

theorem setupWatermarkMetric_cur {w w' : Watermark} {name : Text}
    (h : setupWatermarkMetric w client name = some w') :
    w'.curWatermarkId = w.curWatermarkId + 1 := by
  unfold setupWatermarkMetric at h
  dsimp only at h
  split_ifs at h
  · cases h
    rfl
  · cases h
    rfl

theorem processEvent_ok (h : processEvent p i event client g = .ok (client', g')) :
    g'.numEvents = g.numEvents ∧
      g'.watermark.curWatermarkId = g.watermark.curWatermarkId + 1 := by
  obtain ⟨⟨c, pos⟩, -, h⟩ := bind_eq_ok.mp h
  obtain ⟨info, -, h⟩ := bind_eq_ok.mp h
  dsimp only at h
  split at h
  · cases h
  · split at h
    · cases h
    · next w hw =>
      cases h
      exact ⟨rfl, setupWatermarkMetric_cur hw⟩

theorem processEvents_ok (h : processEvents p i events client g = .ok g') :
    g'.numEvents = g.numEvents ∧
      g'.watermark.curWatermarkId = g.watermark.curWatermarkId + events.length := by
  induction events generalizing i client g with
  | nil =>
    cases h
    exact ⟨rfl, rfl⟩
  | cons event events ih =>
    obtain ⟨⟨c, g₁⟩, h₁, h⟩ := bind_eq_ok.mp h
    obtain ⟨hn₁, hw₁⟩ := processEvent_ok h₁
    obtain ⟨hn, hw⟩ := ih h
    refine ⟨hn.trans hn₁, ?_⟩
    rw [hw, hw₁, List.length_cons]
    omega

def retarget (t : UInt64) (m : Text) (g : Statics) : Statics :=
  { g with decodeThreshold := t, selectedMethod := m }

theorem processEvent_retarget {t : UInt64} {m : Text} :
    processEvent p i event client (retarget t m g) =
      (processEvent p i event client g).map fun r => (r.1, retarget t m r.2) := by
  dsimp only [processEvent, retarget]
  cases clientOf event client with
  | error e => rfl
  | ok c =>
    dsimp only [bind, Except.bind]
    cases nameAndRate event c.2 (g.eventInfo i) with
    | error e => rfl
    | ok info =>
      dsimp only
      split
      · rfl
      · split
        · rfl
        · rfl

theorem processEvents_retarget {t : UInt64} {m : Text} :
    processEvents p i events client (retarget t m g) =
      (processEvents p i events client g).map (retarget t m) := by
  induction events generalizing i client g with
  | nil => rfl
  | cons event events ih =>
    rw [processEvents, processEvents, processEvent_retarget]
    cases processEvent p i event client g with
    | error e => rfl
    | ok r => exact ih

theorem jvmInit_ok (h : jvmInit p arg g = .ok g') :
    splitEventList (tokenize arg) = .ok (argument arg) ∧
      processEvents p 0 (argument arg).events []
        (configure (argument arg) { g with watermark := clearMetricIds g.watermark }) = .ok g' := by
  obtain ⟨l, hl, h⟩ := bind_eq_ok.mp h
  have harg : argument arg = l := by rw [argument, hl]
  obtain ⟨-, h⟩ := ok_of_ite_error h
  rw [harg]
  exact ⟨hl, h⟩

theorem jvmInit_counts (h : jvmInit p arg g = .ok g') :
    g'.numEvents = (argument arg).events.length ∧
      g'.watermark.curWatermarkId =
        g.watermark.curWatermarkId + (argument arg).events.length :=
  processEvents_ok (jvmInit_ok h).2

theorem run_session_concat {a : Text} (h : run (session p) (args ++ [a]) {} = .ok g) :
    ∃ g₁ g₂, run (session p) args {} = .ok g₁ ∧ jvmInit p a g₁ = .ok g₂ ∧ g = jvmShutdown g₂ := by
  obtain ⟨g₁, h₁, h⟩ := run_append.mp h
  obtain ⟨g₃, h₃, h⟩ := run_cons.mp h
  cases h
  obtain ⟨g₂, h₂, h₃⟩ := bind_eq_ok.mp h₃
  exact ⟨g₁, g₂, h₁, h₂, (Except.ok.inj h₃).symm⟩

theorem run_curWatermarkId (h : run (session p) args {} = .ok g) :
    g.watermark.curWatermarkId = (args.map fun a => (argument a).events.length).sum := by
  induction args using List.reverseRecOn generalizing g with
  | nil =>
    cases h
    rfl
  | append_singleton args a ih =>
    obtain ⟨g₁, g₂, h₁, h₂, rfl⟩ := run_session_concat h
    rw [List.map_append, List.sum_append, ← ih h₁]
    simpa [jvmShutdown] using (jvmInit_counts h₂).2

/-! ## Sessions without events -/

structure Blank (args : List Text) (g : Statics) : Prop where
  eventInfo : g.eventInfo = fun _ => {}
  watermark : clearMetricIds g.watermark = clearMetricIds {}
  decodeThreshold : g.decodeThreshold = leftThreshold args
  selectedMethod : g.selectedMethod = leftMethod args

theorem clearMetricIds_idem {w : Watermark} :
    clearMetricIds (clearMetricIds w) = clearMetricIds w := by
  simp only [clearMetricIds]
  congr 1 <;> funext i <;> split_ifs <;> rfl

theorem getLastD_filterMap_append {α β : Type} (l : List α) (a : α) (o : α → Option β) (d : β) :
    ((l ++ [a]).filterMap o).getLastD d = (o a).getD ((l.filterMap o).getLastD d) := by
  rw [List.filterMap_append]
  cases h : o a with
  | none => simp [h]
  | some b =>
    rw [List.filterMap_cons_some h]
    exact List.getLastD_concat

theorem blank_run (hargs : ∀ a ∈ args, (argument a).events = [])
    (h : run (session p) args {} = .ok g) : Blank args g := by
  induction args using List.reverseRecOn generalizing g with
  | nil =>
    cases h
    exact ⟨rfl, rfl, rfl, rfl⟩
  | append_singleton args a ih =>
    obtain ⟨g₁, g₂, h₁, h₂, rfl⟩ := run_session_concat h
    have hb := ih (fun b hmem => hargs b (List.mem_append_left _ hmem)) h₁
    have hp := (jvmInit_ok h₂).2
    rw [hargs a (by simp)] at hp
    cases hp
    refine ⟨hb.eventInfo, ?_, ?_, ?_⟩
    · exact clearMetricIds_idem.trans hb.watermark
    · rw [leftThreshold, getLastD_filterMap_append, ← leftThreshold, ← hb.decodeThreshold]
      rfl
    · rw [leftMethod, getLastD_filterMap_append, ← leftMethod, ← hb.selectedMethod]
      rfl

theorem Blank.jvmInit (hb : Blank args g) (hf : jvmInit p arg {} = .ok f) :
    Profiler.jvmInit p arg g = .ok (retarget ((argument arg).threshold.getD (leftThreshold args))
      ((argument arg).method.getD (leftMethod args)) f) := by
  obtain ⟨hl, -⟩ := jvmInit_ok hf
  have hstart : ({ g with watermark := clearMetricIds g.watermark } : Statics) =
      { retarget (leftThreshold args) (leftMethod args) { watermark := clearMetricIds {} } with
        numEvents := g.numEvents } := by
    rw [hb.watermark, retarget, ← hb.decodeThreshold, ← hb.selectedMethod]
    simp only [hb.eventInfo]
  have hconf : configure (argument arg) { g with watermark := clearMetricIds g.watermark } =
      retarget ((argument arg).threshold.getD (leftThreshold args))
        ((argument arg).method.getD (leftMethod args))
        (configure (argument arg) { watermark := clearMetricIds {} }) := by
    rw [hstart]
    rfl
  unfold Profiler.jvmInit processEventList at hf ⊢
  rw [hl] at hf ⊢
  dsimp only [bind, Except.bind] at hf ⊢
  obtain ⟨hlen, hf⟩ := ok_of_ite_error hf
  rw [if_neg hlen, hconf, processEvents_retarget, hf]
  rfl

theorem blank_fresh : Blank [] {} := ⟨rfl, rfl, rfl, rfl⟩

theorem jvmInit_fresh (hf : jvmInit p arg {} = .ok f) :
    f.decodeThreshold = (argument arg).threshold.getD 0 ∧
      f.selectedMethod = (argument arg).method.getD [] := by
  have h := Except.ok.inj (hf.symm.trans (blank_fresh.jvmInit hf))
  exact ⟨congrArg Statics.decodeThreshold h, congrArg Statics.selectedMethod h⟩

theorem sameTracing_retarget {t : UInt64} {m : Text} (hf : jvmInit p arg {} = .ok f)
    (ht : t = f.decodeThreshold) (hm : m = f.selectedMethod) : SameTracing (retarget t m f) f := by
  obtain ⟨hnum, hcur⟩ := jvmInit_counts hf
  refine ⟨rfl, fun _ _ => rfl, ht, hm, rfl, rfl, fun _ _ _ => ⟨rfl, rfl, rfl, rfl, rfl, rfl⟩, ?_⟩
  exact hnum.trans (hcur.trans (Nat.zero_add _)).symm

/-- A session after any earlier ones is configured as in a fresh process exactly when
these leave it fresh. -/
theorem session_fresh_iff (p : Platform) (args : List Text) (g : Statics)
    (hrun : run (session p) args {} = .ok g) (arg : Text) (f : Statics)
    (hf : jvmInit p arg {} = .ok f) :
    (∃ g', jvmInit p arg g = .ok g' ∧ SameTracing g' f) ↔ LeavesFresh args arg := by
  have hcur := (jvmInit_counts hf).2
  constructor
  · rintro ⟨g', hg, hsame⟩
    have hevents : ∀ a ∈ args, (argument a).events = [] := by
      have hcur' := (jvmInit_counts hg).2
      rw [hsame.curWatermarkId, hcur, run_curWatermarkId hrun] at hcur'
      have hzero : (args.map fun a => (argument a).events.length).sum = 0 := by
        have h0 : ({} : Statics).watermark.curWatermarkId = 0 := rfl
        omega
      intro a hmem
      exact List.length_eq_zero_iff.mp
        (List.sum_eq_zero_iff_forall_eq_nat.mp hzero _ (List.mem_map_of_mem hmem))
    obtain rfl := Except.ok.inj (hg.symm.trans ((blank_run hevents hrun).jvmInit hf))
    refine ⟨hevents, fun hnone => ?_, fun hnone => ?_⟩
    · have ht : (argument arg).threshold.getD (leftThreshold args) = f.decodeThreshold :=
        hsame.decodeThreshold
      rw [(jvmInit_fresh hf).1, hnone] at ht
      exact ht
    · have hm : (argument arg).method.getD (leftMethod args) = f.selectedMethod :=
        hsame.selectedMethod
      rw [(jvmInit_fresh hf).2, hnone] at hm
      exact hm
  · intro h
    refine ⟨_, (blank_run h.events hrun).jvmInit hf, sameTracing_retarget hf ?_ ?_⟩
    · rw [(jvmInit_fresh hf).1]
      cases ht : (argument arg).threshold with
      | none => exact h.threshold ht
      | some t => rfl
    · rw [(jvmInit_fresh hf).2]
      cases hm : (argument arg).method with
      | none => exact h.method hm
      | some m => rfl

def plainPlatform : Platform := ⟨0, fun _ preciseIp => some preciseIp⟩

def twoEvents : Text := ['V', ':', ':', 'A', '@', '9', ',', 'B']

def methodOnly : Text := methodMark ++ ['m']
def eventAndMethod : Text := ['V', ':', ':', 'A', '@', '9', ','] ++ methodMark ++ ['n']

theorem session_fresh_methodOnly :
    ∃ g f, run (session plainPlatform) [methodOnly] {} = .ok g ∧
      jvmInit plainPlatform eventAndMethod {} = .ok f ∧
      ∃ g', jvmInit plainPlatform eventAndMethod g = .ok g' ∧ SameTracing g' f := by
  refine ⟨_, _, rfl, rfl, (session_fresh_iff plainPlatform [methodOnly] _ rfl eventAndMethod _
    rfl).mpr ⟨?_, ?_, ?_⟩⟩
  · intro a hmem
    obtain rfl := List.mem_singleton.mp hmem
    rfl
  · intro _
    rfl
  · intro h
    cases h

/-- The second session with the same argument counts four events, and its threads two. -/
theorem twoEvents_twice :
    ∃ g f, run (session plainPlatform) [twoEvents] {} = .ok g ∧
      jvmInit plainPlatform twoEvents {} = .ok f ∧
      (∃ g', jvmInit plainPlatform twoEvents g = .ok g' ∧ g'.curEventId = 2 ∧
        g'.watermark.curWatermarkId = 4) ∧
      ¬∃ g', jvmInit plainPlatform twoEvents g = .ok g' ∧ SameTracing g' f := by
  refine ⟨_, _, rfl, rfl, ⟨_, rfl, rfl, rfl⟩, ?_⟩
  rintro ⟨g', hg, hsame⟩
  cases hg
  exact absurd hsame.curWatermarkId (by decide)

end Trace4J.Profiler
