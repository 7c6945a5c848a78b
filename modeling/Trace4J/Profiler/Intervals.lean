import Trace4J.Library.Timeline
import Trace4J.Profiler.StackSync

/-!
# The intervals of the recorded instances

For one event the rows of `CPUEventStack` and `CPUEventCntStack` are the open calls of a
time line: where each instance started and what it has counted. The recorded `start` and
`end` are the intervals it closes. They are laminar in every run that avoids the two
places where the code loses counts: an inner return whose instance was already charged
something, since only the pending count reaches its caller, and a sample that follows an
abandoned one with recorded inner instances, since `CPUEventStack.value[0]` was not moved.
-/

namespace Trace4J.Profiler
open Library Extent

def Instance.interval (i : ℕ) (inst : Instance) : Extent ℕ :=
  ⟨(inst.start i).toNat, (inst.stop i).toNat⟩

def recordedInstances : List LogEntry → List Instance
  | [] => []
  | .enter _ _ :: log => recordedInstances log
  | .record inst :: log => inst :: recordedInstances log

/-- For each open instance, innermost first, the recorded instances it called. -/
def openKids : List LogEntry → List (List Instance)
  | [] => []
  | .enter depth _ :: log => if depth = 0 then [[] ] else [] :: openKids log
  | .record inst :: log =>
    match openKids log with
    | _ :: kids :: rest => (inst :: kids) :: rest
    | _ => []

def callPairs : List LogEntry → List (Instance × Instance)
  | [] => []
  | .enter _ _ :: log => callPairs log
  | .record inst :: log =>
    match openKids log with
    | kids :: _ => kids.map (·, inst) ++ callPairs log
    | [] => callPairs log

def settled : List LogEntry → Bool
  | [] => true
  | .enter _ _ :: log => settled log
  | .record inst :: _ => decide (inst.depth = 0)

def RecordsInner (cfg : Config) (ev : TrapInput) (s : Thread) : Prop :=
  0 < s.cpuEventStack.top ∧ ev.Mapped ∧ ¬IsRuntime s ∧
    (cfg.decodeThreshold ≤ s.decodeInsCounter ∨
      s.watchPoint.sd.watchType = .exec ∧ InstAt ev.env.code s.watchPoint.sd.va .ret)

def SampleTaken (cfg : Config) (ev : SampleInput) : Prop :=
  ∃ method, ev.env.getMethod ev.ip = some method ∧ accepts cfg method = true

def NoOverflow (i : ℕ) (s : Thread) : Prop :=
  (s.cpuEventStack.value s.cpuEventStack.top i).toNat +
    (s.cpuEventCntStack.value s.cpuEventStack.top i).toNat + (s.eventRDCnt i).toNat < 2 ^ 64

/-- A sample is taken only after the return of the last sampled function that has a
recorded callee; at an inner return the instance has not been charged yet; and the
counts stay below `2 ^ 64`. -/
def Orderly (cfg : Config) (i : ℕ) : Event → Thread → Prop
  | .sample ev, s => SampleTaken cfg ev → settled s.log = true
  | .trap ev, s => s.watchPoint.isActive = true →
    NoOverflow i (counted cfg ev s) ∧
      (RecordsInner cfg ev s → s.cpuEventCntStack.value s.cpuEventStack.top i = 0)

section Decide
variable {cfg : Config} {i : ℕ} {s : Thread}

instance {ev : SampleInput} : Decidable (SampleTaken cfg ev) :=
  decidable_of_iff ((ev.env.getMethod ev.ip).map (accepts cfg) = some true) (by simp [SampleTaken])

instance {ev : TrapInput} : Decidable (RecordsInner cfg ev s) :=
  inferInstanceAs (Decidable (_ ∧ _ ∧ _ ∧ _))

instance : Decidable (NoOverflow i s) := inferInstanceAs (Decidable (_ < _))

instance : ∀ ev s, Decidable (Orderly cfg i ev s)
  | .sample _, _ => inferInstanceAs (Decidable (_ → _))
  | .trap _, _ => inferInstanceAs (Decidable (_ → _))

end Decide

/-! ## The thread as a time line -/

def SpansHold (start count : ℤ → Row) (i : ℕ) : ℤ → List Span → Prop
  | top, [] => top = -1
  | top, a :: rest => (start top i).toNat = a.start ∧ (count top i).toNat = a.count ∧
      SpansHold start count i (top - 1) rest

structure TracksPast (i : ℕ) (s : Thread) (tl : Timeline) : Prop where
  base : (s.cpuEventStack.value 0 i).toNat = tl.base
  settled : settled s.log = tl.settled
  closed : (recordedInstances s.log).map (Instance.interval i) = tl.closed
  pairs : (callPairs s.log).map (Prod.map (Instance.interval i) (Instance.interval i)) = tl.pairs

structure TracksOpen (i : ℕ) (s : Thread) (tl : Timeline) : Prop where
  spans : SpansHold s.cpuEventStack.value s.cpuEventCntStack.value i s.cpuEventStack.top tl.opened
  kids : (openKids s.log).map (List.map (Instance.interval i)) = tl.opened.map Span.kids

structure Tracks (i : ℕ) (s : Thread) (tl : Timeline) : Prop where
  ordered : tl.Ordered
  past : TracksPast i s tl
  opened : s.watchPoint.isActive = true → TracksOpen i s tl

variable {cfg : Config} {ev : TrapInput} {i n : ℕ} {top d : ℤ} {start count : ℤ → Row} {row : Row}
variable {s s' t x : Thread} {tl : Timeline} {a b : Span} {rest : List Span} {inst : Instance}

theorem SpansHold.top_eq (h : SpansHold start count i top rest) : top = rest.length - 1 := by
  induction rest generalizing top with
  | nil => simpa [SpansHold] using h
  | cons a rest ih =>
    have := ih h.2.2
    push_cast [List.length_cons]
    omega

theorem TracksOpen.opened_eq_singleton (h : TracksOpen i s tl) (htop : s.cpuEventStack.top = 0) :
    ∃ a, tl.opened = [a] := by
  have hlen := h.spans.top_eq
  exact List.length_eq_one_iff.mp (by omega)

theorem SpansHold.update_start (h : SpansHold start count i top rest) (hd : top < d) :
    SpansHold (Function.update start d row) count i top rest := by
  induction rest generalizing top with
  | nil => exact h
  | cons a rest ih =>
    refine ⟨?_, h.2.1, ih h.2.2 (by omega)⟩
    rw [Function.update_of_ne (by omega)]
    exact h.1

theorem SpansHold.update_count (h : SpansHold start count i top rest) (hd : top < d) :
    SpansHold start (Function.update count d row) i top rest := by
  induction rest generalizing top with
  | nil => exact h
  | cons a rest ih =>
    refine ⟨h.1, ?_, ih h.2.2 (by omega)⟩
    rw [Function.update_of_ne (by omega)]
    exact h.2.1

theorem toNat_add_of_lt {u v : UInt64} (h : u.toNat + v.toNat < 2 ^ 64) :
    (u + v).toNat = u.toNat + v.toNat := by
  rw [UInt64.toNat_add, Nat.mod_eq_of_lt h]

theorem TracksPast.congr (h : TracksPast i s tl)
    (hv : t.cpuEventStack.value 0 = s.cpuEventStack.value 0) (hl : t.log = s.log) :
    TracksPast i t tl := by
  refine ⟨?_, ?_, ?_, ?_⟩
  · rw [hv]
    exact h.base
  · rw [hl]
    exact h.settled
  · rw [hl]
    exact h.closed
  · rw [hl]
    exact h.pairs

theorem TracksOpen.congr (h : TracksOpen i s tl) (hs : t.cpuEventStack = s.cpuEventStack)
    (hc : t.cpuEventCntStack.value = s.cpuEventCntStack.value) (hl : t.log = s.log) :
    TracksOpen i t tl := by
  refine ⟨?_, ?_⟩
  · rw [hs, hc]
    exact h.spans
  · rw [hl]
    exact h.kids

theorem Tracks.free (h : Tracks i s tl)
    (hv : t.cpuEventStack.value 0 = s.cpuEventStack.value 0) (hl : t.log = s.log)
    (hf : t.watchPoint.isActive = false) : Tracks i t tl :=
  ⟨h.ordered, h.past.congr hv hl, fun ha => by rw [hf] at ha; cases ha⟩

/-! ## Recording an instance -/

structure Popped (s x : Thread) : Prop where
  top : x.cpuEventStack.top = s.cpuEventStack.top - 1
  value : x.cpuEventStack.value = s.cpuEventStack.value
  counts : x.cpuEventCntStack.value = s.cpuEventCntStack.value
  eventRDCnt : x.eventRDCnt = s.eventRDCnt
  log : x.log = s.log

theorem popped_decTops {pc : Addr} : Popped s { decTops (takeTrap s) with prevIP := pc } :=
  ⟨rfl, rfl, rfl, rfl, rfl⟩

theorem popped_armNext {pc : Addr} : Popped s { decTops (armNext (takeTrap s)) with prevIP := pc } := by
  obtain ⟨wpi, wps, harm⟩ := armNext_eq (s := takeTrap s)
  rw [harm]
  exact ⟨rfl, rfl, rfl, rfl, rfl⟩

section Record
variable {p : ℕ}

theorem tracks_outermost (hp : TracksPast i s tl) (ho : TracksOpen i s tl) (hopen : tl.opened = [a])
    (hlog : t.log = .record inst :: s.log) (hdepth : inst.depth = 0)
    (hint : inst.interval i = a.close p)
    (hbase : (t.cpuEventStack.value 0 i).toNat = (a.close p).stop)
    (htop : t.cpuEventStack.top = -1) :
    TracksPast i t (tl.ret p) ∧ TracksOpen i t (tl.ret p) := by
  have hkids := ho.kids
  rw [hopen] at hkids
  obtain ⟨kids, rest, hk, hkid, hrest⟩ := List.map_eq_cons_iff.mp hkids
  cases List.map_eq_nil_iff.mp hrest
  simp only [Timeline.ret, hopen]
  refine ⟨⟨hbase, ?_, ?_, ?_⟩, htop, ?_⟩
  · rw [hlog, Profiler.settled, decide_eq_true hdepth]
  · rw [hlog, recordedInstances, List.map_cons, hp.closed, hint]
  · rw [hlog, callPairs, hk]
    simp only [List.map_append, hp.pairs, List.map_map, ← hkid]
    congr 1
    exact List.map_congr_left fun J _ => by simp [hint]
  · rw [hlog, openKids, hk]
    rfl

theorem tracks_inner (hp : TracksPast i s tl) (ho : TracksOpen i s tl)
    (hopen : tl.opened = a :: b :: rest) (hlog : t.log = .record inst :: s.log)
    (hdepth : inst.depth ≠ 0) (hint : inst.interval i = a.close p)
    (hbase : t.cpuEventStack.value 0 = s.cpuEventStack.value 0)
    (hspans : SpansHold t.cpuEventStack.value t.cpuEventCntStack.value i t.cpuEventStack.top
      ({ b with count := b.count + p, kids := a.close p :: b.kids } :: rest)) :
    TracksPast i t (tl.ret p) ∧ TracksOpen i t (tl.ret p) := by
  have hkids := ho.kids
  rw [hopen] at hkids
  obtain ⟨kids, l, hk, hkid, hl⟩ := List.map_eq_cons_iff.mp hkids
  obtain ⟨kids', l', rfl, hkid', hl'⟩ := List.map_eq_cons_iff.mp hl
  simp only [Timeline.ret, hopen]
  refine ⟨⟨?_, ?_, ?_, ?_⟩, hspans, ?_⟩
  · rw [hbase]
    exact hp.base
  · rw [hlog, Profiler.settled, decide_eq_false hdepth]
  · rw [hlog, recordedInstances, List.map_cons, hp.closed, hint]
  · rw [hlog, callPairs, hk]
    simp only [List.map_append, hp.pairs, List.map_map, ← hkid]
    congr 1
    exact List.map_congr_left fun J _ => by simp [hint]
  · rw [hlog, openKids, hk]
    simp only [List.map_cons, hint, hkid', hl']

variable {env : Env} {pc methodId : UInt64} {methodVersion : UInt32} {sd : SampleData}

theorem close_eq (hs : SpansHold start count i top (a :: rest)) {rd : UInt64}
    (hw : (start top i).toNat + (count top i).toNat + rd.toNat < 2 ^ 64) :
    (start top i + (count top i + rd)).toNat = (a.close rd.toNat).stop := by
  rw [toNat_add_of_lt (by rw [toNat_add_of_lt (by omega)]; omega), toNat_add_of_lt (by omega),
    hs.1, hs.2.1]
  simp only [Span.close, Span.pos]
  omega

theorem tracks_flushReturn_zero (hp : TracksPast i s tl) (ho : TracksOpen i s tl)
    (hx : Popped s x) (hi : 1 ≤ i ∧ i < cfg.curEventId) (htop : s.cpuEventStack.top = 0)
    (hw : NoOverflow i s)
    (hr : Records cfg env s.cpuEventStack.top pc methodId methodVersion sd flushReturn x t) :
    TracksPast i t (tl.ret (s.eventRDCnt i).toNat) ∧
      TracksOpen i t (tl.ret (s.eventRDCnt i).toNat) := by
  obtain ⟨s₁, m, hf, -, rfl⟩ := hr
  obtain ⟨-, rfl⟩ := flushReturn_ok hf
  obtain ⟨a, hopen⟩ := ho.opened_eq_singleton htop
  have hspan := ho.spans
  rw [hopen] at hspan
  have hval : (returnCounts cfg.curEventId s.cpuEventStack.top x).value s.cpuEventStack.top i =
      s.cpuEventCntStack.value s.cpuEventStack.top i + s.eventRDCnt i := by
    rw [returnCounts_value hi, hx.counts, hx.eventRDCnt]
  have hclose := close_eq hspan hw
  rw [← hval] at hclose
  refine tracks_outermost hp ho hopen (by rw [hx.log]) htop ?_ ?_ ?_
  · simp only [Instance.interval, recordedInstance, Pi.add_apply, hx.value, hclose, Span.close,
      hspan.1]
  · rw [if_pos htop, ← hclose]
    simp only [EventValueStack.store, hx.value, htop, Function.update_self, overEvents_apply hi,
      Pi.add_apply]
  · rw [if_pos htop]
    exact hx.top.trans (congrArg (· - 1) htop)

theorem tracks_flushOutermost (hp : TracksPast i s tl) (ho : TracksOpen i s tl)
    (hx : Popped s x) (hi : 1 ≤ i ∧ i < cfg.curEventId)
    (hw : NoOverflow i s)
    (hr : Records cfg env s.cpuEventStack.top pc methodId methodVersion sd flushOutermost x t) :
    TracksPast i t (tl.ret (s.eventRDCnt i).toNat) ∧
      TracksOpen i t (tl.ret (s.eventRDCnt i).toNat) := by
  obtain ⟨s₁, m, hf, -, rfl⟩ := hr
  obtain ⟨htop, rfl⟩ := flushOutermost_ok hf
  have htop : s.cpuEventStack.top = 0 := htop (by omega)
  obtain ⟨a, hopen⟩ := ho.opened_eq_singleton htop
  have hspan := ho.spans
  rw [hopen] at hspan
  have hclose := close_eq hspan hw
  refine tracks_outermost hp ho hopen (by rw [hx.log]) htop ?_ ?_ ?_
  · simp only [Instance.interval, recordedInstance, EventValueStack.store, Function.update_self,
      Pi.add_apply, overEvents_apply hi, hx.value, hx.counts, hx.eventRDCnt, hclose]
    simp only [Span.close, hspan.1]
  · rw [← hclose]
    simp only [EventValueStack.store, hx.value, hx.counts, hx.eventRDCnt, htop,
      Function.update_self, overEvents_apply hi, Pi.add_apply]
  · exact hx.top.trans (congrArg (· - 1) htop)

theorem tracks_flushReturn_inner (hord : tl.Ordered) (hp : TracksPast i s tl)
    (ho : TracksOpen i s tl) (hx : Popped s x) (hi : 1 ≤ i ∧ i < cfg.curEventId)
    (htop : 0 < s.cpuEventStack.top)
    (hw : NoOverflow i s)
    (hr : Records cfg env s.cpuEventStack.top pc methodId methodVersion sd flushReturn x t) :
    ∃ a b rest, tl.opened = a :: b :: rest ∧
      (s.cpuEventCntStack.value s.cpuEventStack.top i).toNat = a.count ∧
      TracksPast i t (tl.ret (s.eventRDCnt i).toNat) ∧
      TracksOpen i t (tl.ret (s.eventRDCnt i).toNat) := by
  obtain ⟨s₁, m, hf, -, rfl⟩ := hr
  obtain ⟨-, rfl⟩ := flushReturn_ok hf
  have hlen := ho.spans.top_eq
  rcases hopen : tl.opened with - | ⟨a, - | ⟨b, rest⟩⟩
  · simp [hopen] at hlen
    omega
  · simp [hopen] at hlen
    omega
  have hspan := ho.spans
  rw [hopen] at hspan
  have hstack : a.start = b.start + b.count := by
    have := hord.stacked
    rw [hopen] at this
    exact this.1
  have hval : (returnCounts cfg.curEventId s.cpuEventStack.top x).value s.cpuEventStack.top i =
      s.cpuEventCntStack.value s.cpuEventStack.top i + s.eventRDCnt i := by
    rw [returnCounts_value hi, hx.counts, hx.eventRDCnt]
  have hclose := close_eq hspan hw
  rw [← hval] at hclose
  refine ⟨a, b, rest, rfl, hspan.2.1, ?_⟩
  refine tracks_inner hp ho hopen (by rw [hx.log]) htop.ne' ?_ ?_ ?_
  · simp only [Instance.interval, recordedInstance, Pi.add_apply, hx.value, hclose, Span.close,
      hspan.1]
  · rw [if_neg htop.ne', hx.value]
  · obtain ⟨hsa, hca, hsb, hcb, hrest⟩ := hspan
    unfold NoOverflow at hw
    simp only [if_neg htop.ne', hx.value, hx.top]
    have hne : s.cpuEventStack.top - 1 ≠ s.cpuEventStack.top := by omega
    refine ⟨hsb, ?_, ?_⟩
    · have : (returnCounts cfg.curEventId s.cpuEventStack.top x).value (s.cpuEventStack.top - 1) i =
          s.cpuEventCntStack.value (s.cpuEventStack.top - 1) i + s.eventRDCnt i := by
        simp only [returnCounts, if_pos htop.ne', EventValueStack.store, Function.update_self,
          overEvents_apply hi, Function.update_of_ne hne, Pi.add_apply, hx.counts, hx.eventRDCnt]
      rw [this, toNat_add_of_lt (by omega), hcb]
    · simp only [returnCounts, if_pos htop.ne', EventValueStack.store, hx.counts]
      exact (hrest.update_count (by omega)).update_count (by omega)

end Record

theorem tracks_openedCall (env : Env) {calleeIP : Addr} {method : MethodInfo}
    (hp : TracksPast i s tl) (ho : TracksOpen i s tl) (hi : 1 ≤ i ∧ i < cfg.curEventId)
    (htop : 0 ≤ s.cpuEventStack.top)
    (hw : NoOverflow i s) :
    (∃ a rest, tl.opened = a :: rest) ∧
      TracksPast i (openedCall cfg env calleeIP method s) (tl.call (s.eventRDCnt i).toNat) ∧
      TracksOpen i (openedCall cfg env calleeIP method s) (tl.call (s.eventRDCnt i).toNat) := by
  have hlen := ho.spans.top_eq
  rcases hopen : tl.opened with - | ⟨a, rest⟩
  · simp [hopen] at hlen
    omega
  have hspan := ho.spans
  have hkids := ho.kids
  rw [hopen] at hspan hkids
  obtain ⟨hsa, hca, hrest⟩ := hspan
  unfold NoOverflow at hw
  have hne : s.cpuEventStack.top ≠ s.cpuEventStack.top + 1 := by omega
  have hcount : (s.cpuEventCntStack.value s.cpuEventStack.top i + s.eventRDCnt i).toNat =
      a.count + (s.eventRDCnt i).toNat := by
    rw [toNat_add_of_lt (by omega), hca]
  refine ⟨⟨a, rest, rfl⟩, ?_⟩
  simp only [Timeline.call, hopen]
  refine ⟨⟨?_, hp.settled, hp.closed, hp.pairs⟩, ⟨?_, ?_, ?_, ?_, ?_⟩, ?_⟩
  · rw [← hp.base]
    simp only [openedCall, EventValueStack.store]
    rw [Function.update_of_ne (by omega)]
  · simp only [openedCall, EventValueStack.store, Function.update_self, overEvents_apply hi,
      Pi.add_apply]
    rw [toNat_add_of_lt (by omega), hcount, hsa]
    simp only [Span.pos]
    omega
  · simp only [openedCall, EventValueStack.store, Function.update_self, overEvents_apply hi]
    rfl
  · simp only [openedCall, EventValueStack.store, add_sub_cancel_right, Function.update_of_ne hne]
    exact hsa
  · simp only [openedCall, EventValueStack.store, add_sub_cancel_right, Function.update_of_ne hne,
      Function.update_self, overEvents_apply hi, Pi.add_apply, hcount]
  · simp only [openedCall, EventValueStack.store, add_sub_cancel_right]
    exact ((hrest.update_start (by omega)).update_count (by omega)).update_count (by omega)
  · simp only [openedCall, openKids, if_neg (show s.cpuEventStack.top + 1 ≠ 0 by omega),
      List.map_cons, hkids]
    rfl

/-! ## Steps and runs -/

def Fits (i : ℕ) (s : Thread) : Prop :=
  ∃ tl : Timeline, tl.Ordered ∧ TracksPast i s tl ∧ TracksOpen i s tl

theorem Fits.congr (h : Fits i s) (hs : t.cpuEventStack = s.cpuEventStack)
    (hc : t.cpuEventCntStack.value = s.cpuEventCntStack.value) (hl : t.log = s.log) : Fits i t := by
  obtain ⟨tl, hord, hp, ho⟩ := h
  exact ⟨tl, hord, hp.congr (by rw [hs]) hl, ho.congr hs hc hl⟩

theorem Fits.tracks (h : Fits i s) : ∃ tl, Tracks i s tl := by
  obtain ⟨tl, hord, hp, ho⟩ := h
  exact ⟨tl, hord, hp, fun _ => ho⟩

section Step
variable {env : Env} {pc methodId : UInt64} {methodVersion : UInt32} {sd : SampleData}

theorem Fits.flushReturn (h : Fits i s) (hx : Popped s x) (hi : 1 ≤ i ∧ i < cfg.curEventId)
    (hw : NoOverflow i s)
    (h0 : 0 < s.cpuEventStack.top → s.cpuEventCntStack.value s.cpuEventStack.top i = 0)
    (hr : Records cfg env s.cpuEventStack.top pc methodId methodVersion sd flushReturn x t) :
    Fits i t := by
  obtain ⟨tl, hord, hp, ho⟩ := h
  obtain ⟨s₁, -, hf, -, -⟩ := id hr
  obtain ⟨hpos, -⟩ := (flushReturn_ok hf).1 (by omega)
  rcases hpos.eq_or_lt with htop | htop
  · obtain ⟨hp', ho'⟩ := tracks_flushReturn_zero hp ho hx hi htop.symm hw hr
    obtain ⟨a, hopen⟩ := ho.opened_eq_singleton htop.symm
    exact ⟨_, hord.ret_outermost hopen, hp', ho'⟩
  · obtain ⟨a, b, rest, hopen, hca, hp', ho'⟩ :=
      tracks_flushReturn_inner hord hp ho hx hi htop hw hr
    refine ⟨_, hord.ret_inner hopen ?_, hp', ho'⟩
    rw [← hca, h0 htop]
    rfl

theorem Fits.flushOutermost (h : Fits i s) (hx : Popped s x) (hi : 1 ≤ i ∧ i < cfg.curEventId)
    (hw : NoOverflow i s)
    (hr : Records cfg env s.cpuEventStack.top pc methodId methodVersion sd flushOutermost x t) :
    Fits i t := by
  obtain ⟨tl, hord, hp, ho⟩ := h
  obtain ⟨s₁, -, hf, -, -⟩ := id hr
  have htop : s.cpuEventStack.top = 0 := (flushOutermost_ok hf).1 (by omega)
  obtain ⟨hp', ho'⟩ := tracks_flushOutermost hp ho hx hi hw hr
  obtain ⟨a, hopen⟩ := ho.opened_eq_singleton htop
  exact ⟨_, hord.ret_outermost hopen, hp', ho'⟩

end Step

theorem Resumes.fits {ip : Addr} (hr : Resumes cfg ev.env s ip t) (h : Fits i s) (hmap : ev.Mapped)
    (hi : 1 ≤ i ∧ i < cfg.curEventId) (hw : NoOverflow i s)
    (h0 : RecordsInner cfg ev s → s.cpuEventCntStack.value s.cpuEventStack.top i = 0) :
    Fits i t := by
  cases hr with
  | runtimeReturn hrt => exact h.congr rfl rfl rfl
  | @innerReturn method pc xedd s₁ ctxt retRest hrt hthr hx hc hg hm hpc hrec hret hne =>
    have h0 : 0 < s.cpuEventStack.top → s.cpuEventCntStack.value s.cpuEventStack.top i = 0 :=
      fun htop => h0 ⟨htop, hmap, hrt, .inr ⟨hx, xedd, hc, hg⟩⟩
    exact (h.flushReturn popped_decTops hi hw h0 hrec).congr rfl rfl rfl
  | branch => exact h.congr rfl rfl rfl
  | call hrt hthr hx hc hg ht hm ho =>
    obtain ⟨tl, hord, hp, hopen⟩ := h
    obtain ⟨hbound, rfl⟩ := openCall_ok ho
    obtain ⟨hpos, -⟩ := hbound (by omega)
    obtain ⟨⟨a, rest, ha⟩, hp', ho'⟩ := tracks_openedCall ev.env
      (hp.congr (t := takeTrap s) rfl rfl) (hopen.congr (t := takeTrap s) rfl rfl rfl) hi hpos hw
    exact ⟨_, hord.call ha, hp', ho'⟩

theorem TrapStep.tracks (ht : TrapStep cfg ev s s') (h : Tracks i s tl)
    (ha : s.watchPoint.isActive = true) (hi : 1 ≤ i ∧ i < cfg.curEventId) (hw : NoOverflow i s)
    (h0 : RecordsInner cfg ev s → s.cpuEventCntStack.value s.cpuEventStack.top i = 0) :
    ∃ tl', Tracks i s' tl' := by
  have hfits : Fits i s := ⟨tl, h.ordered, h.past, h.opened ha⟩
  cases ht with
  | dropped => exact ⟨tl, h.free rfl rfl rfl⟩
  | reset => exact ⟨tl, h.free rfl rfl rfl⟩
  | unmapped => exact ⟨tl, h.free rfl rfl rfl⟩
  | undecoded => exact ⟨tl, h.free rfl rfl rfl⟩
  | resume hmap hr hd =>
    have hsame := decoder_sameCounts hd
    exact ((hr.fits hfits hmap hi hw h0).congr hsame.cpuEventStack
      (by rw [hsame.cpuEventCntStack]) hsame.log).tracks
  | runtimeCall _ _ _ _ _ _ _ hs =>
    rw [onRuntimeCall_ok hs]
    exact Fits.tracks (hfits.congr rfl rfl rfl)
  | @lastReturn method pc xedd s₁ ctxt retRest hmap hrt hthr hx hc hg hm hpc hrec hret hw' =>
    have h0 : 0 < s.cpuEventStack.top → s.cpuEventCntStack.value s.cpuEventStack.top i = 0 :=
      fun htop => h0 ⟨htop, hmap, hrt, .inr ⟨hx, xedd, hc, hg⟩⟩
    exact Fits.tracks ((hfits.flushReturn popped_decTops hi hw h0 hrec).congr rfl rfl rfl)
  | overInsane =>
    obtain ⟨wpi, wps, harm⟩ := armNext_eq (s := takeTrap s)
    rw [harm]
    exact ⟨tl, h.free rfl rfl rfl⟩
  | overThreshold hmap hrt hthr hne hm hpc₀ hpc hrec hret =>
    have h0 : 0 < s.cpuEventStack.top → s.cpuEventCntStack.value s.cpuEventStack.top i = 0 :=
      fun htop => h0 ⟨htop, hmap, hrt, .inl hthr⟩
    exact Fits.tracks ((hfits.flushReturn popped_armNext hi hw h0 hrec).congr rfl rfl rfl)
  | outermostInsane => exact ⟨tl, h.free rfl rfl rfl⟩
  | outermost hrt hthr hx hm hpc₀ hpc hrec =>
    exact Fits.tracks ((hfits.flushOutermost popped_decTops hi hw hrec).congr rfl rfl rfl)

theorem onSample_tracks {ev : SampleInput} (h : Tracks i s tl) (hi : 1 ≤ i ∧ i < cfg.curEventId)
    (hset : SampleTaken cfg ev → settled s.log = true) (hs : onSample cfg ev s = .ok s') :
    ∃ tl', Tracks i s' tl' := by
  cases onSample_step hs with
  | ignored => exact ⟨tl, h⟩
  | @taken method _ hm ha hn hd =>
    have hsame := decoder_sameCounts hd
    have hbegin : Fits i (openSample cfg ev method s) := by
      refine ⟨tl.begin, h.ordered.begin (h.past.settled ▸ hset ⟨method, hm, ha⟩), ?_, ?_⟩
      · exact ⟨h.past.base, h.past.settled, h.past.closed, h.past.pairs⟩
      · refine ⟨⟨h.past.base, ?_, rfl⟩, rfl⟩
        simp only [openSample, EventValueStack.store, Function.update_self, overEvents_apply hi]
        rfl
    exact (hbegin.congr hsame.cpuEventStack (by rw [hsame.cpuEventCntStack]) hsame.log).tracks

theorem tracks_init : Tracks i Thread.init Timeline.new :=
  ⟨Timeline.ordered_new, ⟨rfl, rfl, rfl, rfl⟩, fun ha => by cases ha⟩

theorem step_tracks (hi : 1 ≤ i ∧ i < cfg.curEventId) (ev : Event) (s s' : Thread)
    (h : ∃ tl, Tracks i s tl) (hc : Orderly cfg i ev s) (hs : step cfg ev s = .ok s') :
    ∃ tl, Tracks i s' tl := by
  obtain ⟨tl, h⟩ := h
  cases ev with
  | sample ev => exact onSample_tracks h hi hc hs
  | trap ev =>
    rcases onWatchPoint_step hs with ⟨-, rfl⟩ | ⟨ha, ht⟩
    · exact ⟨tl, h⟩
    · obtain ⟨hw, h0⟩ := hc ha
      have hcounted : Tracks i (counted cfg ev s) tl :=
        ⟨h.ordered, h.past.congr rfl rfl, fun ha => (h.opened ha).congr rfl rfl rfl⟩
      exact ht.tracks hcounted ha hi hw h0

/-- In every orderly run the recorded intervals of an event are pairwise apart or nested,
and every instance lies within the recorded instance that called it. -/
theorem recorded_intervals_laminar (cfg : Config) (i : ℕ) (events : List Event) (s : Thread)
    (hi : 1 ≤ i ∧ i < cfg.curEventId)
    (hc : Meets (step cfg) (Orderly cfg i) events Thread.init)
    (hrun : run (step cfg) events Thread.init = .ok s) :
    (recordedInstances s.log).Pairwise (fun a b => Laminar (a.interval i) (b.interval i)) ∧
      ∀ p ∈ callPairs s.log, Within (p.1.interval i) (p.2.interval i) := by
  obtain ⟨tl, h⟩ := run_invariant (step_tracks hi) ⟨_, tracks_init⟩ hc hrun
  constructor
  · have := h.ordered.laminar
    rwa [← h.past.closed, List.pairwise_map] at this
  · intro p hp
    have := h.ordered.within (p.1.interval i, p.2.interval i)
    rw [← h.past.pairs] at this
    exact this (List.mem_map.mpr ⟨p, hp, rfl⟩)

theorem callLeaf_intervals_laminar :
    ∃ s, run (step (oneEventConfig 8)) callLeafRun Thread.init = .ok s ∧
      (recordedInstances s.log).map (Instance.interval 1) = [⟨0, 40⟩, ⟨10, 30⟩] ∧
      (recordedInstances s.log).Pairwise (fun a b => Laminar (a.interval 1) (b.interval 1)) ∧
      ∀ p ∈ callPairs s.log, Within (p.1.interval 1) (p.2.interval 1) :=
  ⟨_, rfl, rfl, recorded_intervals_laminar (oneEventConfig 8) 1 callLeafRun _ (by decide) (by decide)
    rfl⟩

/-- Most of `mid` is counted before its call of `leaf`: it is recorded as `[10, 130]` and its
caller `main` as `[0, 40]`. -/
theorem callMid_intervals_overlap :
    ∃ s, run (step (oneEventConfig 8))
        [.sample (sampleAt (callMidEnv 0x1000 0) 0), .trap (trapAt (callMidEnv 0x1000 0) 10),
          .trap (trapAt (callMidEnv 0x2000 0) 110), .trap (trapAt (callMidEnv 0x3000 0x2005) 110),
          .trap (trapAt (callMidEnv 0x2005 0x1005) 130), .trap (trapAt (callMidEnv 0x1005 0) 140)]
        Thread.init = .ok s ∧
      (recordedInstances s.log).map (Instance.interval 1) = [⟨0, 40⟩, ⟨10, 130⟩, ⟨110, 110⟩] ∧
      ¬(recordedInstances s.log).Pairwise (fun a b => Laminar (a.interval 1) (b.interval 1)) ∧
      ¬∀ p ∈ callPairs s.log, Within (p.1.interval 1) (p.2.interval 1) :=
  ⟨_, rfl, rfl, by decide, by decide⟩

end Trace4J.Profiler
