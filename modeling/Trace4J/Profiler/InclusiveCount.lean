import Trace4J.Library.NestedCount
import Trace4J.Profiler.StackSync

/-!
# What is recorded as the count of an instance

The counts of one event, seen as the flush machine of nested counting: the rows of
`CPUEventCntStack` are its counts and `eventRDCnt` its pending amount. What it records
for an instance therefore misses, for every direct callee, whatever that callee had
counted when its own last callee returned.
-/

namespace Trace4J.Profiler
open Library

def instancesSince : List LogEntry → List Instance
  | [] => []
  | .enter depth _ :: log => if depth = 0 then [] else instancesSince log
  | .record inst :: log => inst :: instancesSince log

def counterIncrement (cfg : Config) (ev : TrapInput) (i : ℕ) (s : Thread) : UInt64 :=
  (counted cfg ev s).eventRDCnt i - s.eventRDCnt i

def WatchKind.trigger (δ : UInt64) : WatchKind → Trigger UInt64
  | .branch | .runtimeReturn => .branch δ
  | .call => .call δ
  | .innerReturn | .overReturn | .outermostReturn => .ret δ

/-- The calls of event `i` along the traps: every trap adds its increment to all
instances that are open. -/
def callsAfter (cfg : Config) (i : ℕ) : List TrapInput → Thread → CallStack UInt64 →
    CallStack UInt64
  | [], _, c => c
  | ev :: evs, s, c =>
    match watchKind cfg ev.env.code s, onWatchPoint cfg ev s with
    | some k, .ok s' => callsAfter cfg i evs s' (c.next (k.trigger (counterIncrement cfg ev i s)))
    | _, _ => c

def compiledTarget (ev : TrapInput) (s : Thread) : Bool :=
  ((ev.env.code s.watchPoint.sd.va).bind fun xedd =>
    (getBranchTarget ev.env.xedAgen s.watchPoint.sd.va xedd ev.env.uCtxt).bind
      ev.env.getMethod).isSome

/-- A trap on a branch, a call to a compiled method or a return, taken below the
threshold at an address of the code cache. -/
def inScope (cfg : Config) (ev : TrapInput) (s : Thread) : Bool :=
  s.watchPoint.isActive && decide (s.decodeInsCounter < cfg.decodeThreshold) &&
  match ev.pc with
  | none => false
  | some pc => pc != 0 &&
    match ev.env.getMethod pc with
    | none => false
    | some method =>
      match watchKind cfg ev.env.code s with
      | some .branch | some .innerReturn => true
      | some .call => compiledTarget ev s
      | some .outermostReturn =>
        (patchPC ev.env method ⟨s.watchPoint.sd, pc, ev.pcPrecise⟩ (decTops (takeTrap s))).isSome
      | _ => false

def RowsHold (value : ℤ → Row) (i : ℕ) : ℤ → List UInt64 → Prop
  | top, [] => top = -1
  | top, c :: cs => value top i = c ∧ RowsHold value i (top - 1) cs

structure Flushes (i : ℕ) (s : Thread) (f : Flush UInt64) : Prop where
  rows : RowsHold s.cpuEventCntStack.value i s.cpuEventStack.top f.counts
  pending : f.counts ≠ [] → s.eventRDCnt i = f.pending
  recorded : (instancesSince s.log).map (·.newValue i) = f.recorded

variable {cfg : Config} {ev : TrapInput} {i n : ℕ} {top d : ℤ} {value : ℤ → Row} {row : Row}
variable {s s' t : Thread} {f : Flush UInt64} {cs : List UInt64} {c : UInt64}

theorem RowsHold.top_eq (h : RowsHold value i top cs) : top = cs.length - 1 := by
  induction cs generalizing top with
  | nil => simpa [RowsHold] using h
  | cons c cs ih =>
    have := ih h.2
    push_cast [List.length_cons]
    omega

theorem RowsHold.update (h : RowsHold value i top cs) (hd : top < d) :
    RowsHold (Function.update value d row) i top cs := by
  induction cs generalizing top with
  | nil => exact h
  | cons c cs ih =>
    refine ⟨?_, ih h.2 (by omega)⟩
    rw [Function.update_of_ne (by omega)]
    exact h.1

theorem RowsHold.store {st : EventValueStack} (new : Row) (hi : 1 ≤ i ∧ i < n)
    (h : RowsHold st.value i (top - 1) cs) :
    RowsHold (st.store n top new).value i top (new i :: cs) := by
  refine ⟨?_, h.update (by omega)⟩
  simp only [EventValueStack.store, Function.update_self, overEvents_apply hi]

theorem Flushes.congr (h : Flushes i s f) (hs : SameCounts s t) : Flushes i t f where
  rows := by
    rw [hs.cpuEventStack, hs.cpuEventCntStack]
    exact h.rows
  pending hne := by
    rw [hs.eventRDCnt]
    exact h.pending hne
  recorded := by
    rw [hs.log]
    exact h.recorded

theorem Flushes.counted (h : Flushes i s f) :
    Flushes i (counted cfg ev s) (f.pay (counterIncrement cfg ev i s)) where
  rows := h.rows
  pending hne := by
    simp only [Flush.pay, counterIncrement, ← h.pending hne]
    exact (add_sub_cancel _ _).symm
  recorded := h.recorded

theorem Flushes.openedCall {env : Env} {calleeIP : Addr} {method : MethodInfo} (h : Flushes i s f)
    (hne : f.counts ≠ []) (hi : 1 ≤ i ∧ i < cfg.curEventId) :
    Flushes i (openedCall cfg env calleeIP method s) f.onCall := by
  obtain ⟨c, cs, hc⟩ := List.exists_cons_of_ne_nil hne
  have hrows : RowsHold s.cpuEventCntStack.value i s.cpuEventStack.top (c :: cs) := hc ▸ h.rows
  have hf : f.onCall = ⟨0 :: (c + f.pending) :: cs, 0, f.recorded⟩ := by
    simp only [Flush.onCall, hc]
  have htop := hrows.top_eq
  have hpos : s.cpuEventStack.top + 1 ≠ 0 := by
    rw [List.length_cons] at htop
    omega
  rw [hf]
  refine ⟨?_, fun _ => overEvents_apply hi, ?_⟩
  · have hcaller := RowsHold.store
      (s.cpuEventCntStack.value s.cpuEventStack.top + s.eventRDCnt) hi hrows.2
    simp only [Pi.add_apply, hrows.1, h.pending hne] at hcaller
    apply RowsHold.store 0 hi
    rw [add_sub_cancel_right]
    exact hcaller
  · rw [← h.recorded]
    simp only [Profiler.openedCall, instancesSince, if_neg hpos]

section Return
variable {env : Env} {pc methodId prevIP : UInt64} {methodVersion : UInt32} {sd : SampleData}

theorem RowsHold.returnCounts (hi : 1 ≤ i ∧ i < n) (ht : top ≠ 0)
    (h : RowsHold s.cpuEventCntStack.value i (top - 1) (c :: cs)) :
    RowsHold (returnCounts n top s).value i (top - 1) ((c + s.eventRDCnt i) :: cs) := by
  have hne : top - 1 ≠ top := by omega
  rw [Profiler.returnCounts, if_pos ht]
  have hrest : RowsHold (s.cpuEventCntStack.store n top
      (s.cpuEventCntStack.value top + s.eventRDCnt)).value i (top - 1 - 1) cs :=
    h.2.update (by omega)
  have := hrest.store ((s.cpuEventCntStack.store n top
    (s.cpuEventCntStack.value top + s.eventRDCnt)).value (top - 1) + s.eventRDCnt) hi
  simpa only [Pi.add_apply, EventValueStack.store, Function.update_of_ne hne, h.1] using this

theorem Flushes.innerReturn (h : Flushes i s f) (hi : 1 ≤ i ∧ i < cfg.curEventId)
    (htop : 0 < s.cpuEventStack.top)
    (hr : Records cfg env s.cpuEventStack.top pc methodId methodVersion sd flushReturn
      { decTops (takeTrap s) with prevIP := prevIP } t) : Flushes i t f.onReturn := by
  obtain ⟨s₁, m, hf, -, rfl⟩ := hr
  obtain ⟨-, rfl⟩ := flushReturn_ok hf
  have hlen := h.rows.top_eq
  rcases hc : f.counts with - | ⟨c, - | ⟨c', cs⟩⟩
  · simp [hc] at hlen
    omega
  · simp [hc] at hlen
    omega
  have hrows : RowsHold s.cpuEventCntStack.value i s.cpuEventStack.top (c :: c' :: cs) := hc ▸ h.rows
  have hp := h.pending (by simp [hc])
  have hret : f.onReturn = ⟨(c' + f.pending) :: cs, 0, (c + f.pending) :: f.recorded⟩ := by
    simp only [Flush.onReturn, hc]
  rw [hret]
  refine ⟨?_, fun _ => overEvents_apply hi, ?_⟩
  · rw [← hp, if_neg (by omega)]
    exact RowsHold.returnCounts (s := decTops (takeTrap s)) hi (by omega) hrows.2
  · rw [← h.recorded, ← hp, ← hrows.1]
    exact congrArg₂ List.cons (returnCounts_value (s := decTops (takeTrap s)) hi) rfl

theorem Flushes.outermostReturn (h : Flushes i s f) (hi : 1 ≤ i ∧ i < cfg.curEventId)
    (htop : s.cpuEventStack.top = 0)
    (hr : Records cfg env s.cpuEventStack.top pc methodId methodVersion sd flushOutermost
      { decTops (takeTrap s) with prevIP := prevIP } t) : Flushes i t f.onReturn := by
  obtain ⟨s₁, m, hf, -, rfl⟩ := hr
  obtain ⟨-, rfl⟩ := flushOutermost_ok hf
  have hlen := h.rows.top_eq
  rcases hc : f.counts with - | ⟨c, - | ⟨c', cs⟩⟩
  · simp [hc] at hlen
    omega
  · have hrows : RowsHold s.cpuEventCntStack.value i s.cpuEventStack.top [c] := hc ▸ h.rows
    have hp := h.pending (by simp [hc])
    have hret : f.onReturn = ⟨[], 0, (c + f.pending) :: f.recorded⟩ := by
      simp only [Flush.onReturn, hc]
    rw [hret]
    refine ⟨congrArg (· - 1) htop, fun hne => absurd rfl hne, ?_⟩
    rw [← h.recorded, ← hp, ← hrows.1]
    refine congrArg₂ List.cons ?_ rfl
    simp only [EventValueStack.store, Function.update_self, overEvents_apply hi, recordedInstance]
    rfl
  · simp [hc] at hlen
    omega

end Return

theorem inScope_spec (h : inScope cfg ev s = true) :
    s.watchPoint.isActive = true ∧ s.decodeInsCounter < cfg.decodeThreshold ∧
    ∃ pc method k, ev.pc = some pc ∧ pc ≠ 0 ∧ ev.env.getMethod pc = some method ∧
      watchKind cfg ev.env.code s = some k ∧ k ≠ .runtimeReturn ∧
      (k = .call → compiledTarget ev s = true) ∧
      (k = .outermostReturn → (patchPC ev.env method ⟨s.watchPoint.sd, pc, ev.pcPrecise⟩
        (decTops (takeTrap s))).isSome) := by
  simp only [inScope, Bool.and_eq_true, decide_eq_true_eq] at h
  obtain ⟨⟨ha, hthr⟩, h⟩ := h
  refine ⟨ha, hthr, ?_⟩
  split at h
  · cases h
  · next pc hpc =>
    simp only [Bool.and_eq_true, bne_iff_ne, ne_eq] at h
    obtain ⟨hne, h⟩ := h
    split at h
    · cases h
    · next method hm =>
      refine ⟨pc, method, ?_⟩
      split at h
      · next hk => exact ⟨_, hpc, hne, hm, hk, by simp, by simp, by simp⟩
      · next hk => exact ⟨_, hpc, hne, hm, hk, by simp, by simp, by simp⟩
      · next hk => exact ⟨_, hpc, hne, hm, hk, by simp, fun _ => h, by simp⟩
      · next hk => exact ⟨_, hpc, hne, hm, hk, by simp, by simp, fun _ => h⟩
      · cases h

def WatchKind.flush : WatchKind → Flush UInt64 → Flush UInt64
  | .branch, f | .runtimeReturn, f => f
  | .call, f => f.onCall
  | .innerReturn, f | .overReturn, f | .outermostReturn, f => f.onReturn

theorem flush_next (k : WatchKind) (δ : UInt64) : f.next (k.trigger δ) = k.flush (f.pay δ) := by
  cases k <;> rfl

theorem takeTrap_sameCounts : SameCounts s (takeTrap s) := ⟨rfl, rfl, rfl, rfl, rfl, rfl, rfl⟩

theorem resumes_flushes {ip : Addr} {k : WatchKind} (hsync : Synced cfg ev.env.code s)
    (ha : s.watchPoint.isActive = true) (hk : watchKind cfg ev.env.code s = some k)
    (hi : 1 ≤ i ∧ i < cfg.curEventId) (hrt : k ≠ .runtimeReturn) (h : Flushes i s f)
    (hne : f.counts ≠ []) (hr : Resumes cfg ev.env s ip t) : Flushes i t (k.flush f) := by
  cases hr with
  | runtimeReturn hrun =>
    have : watchKind cfg ev.env.code s = some .runtimeReturn := if_pos hrun
    cases hk.symm.trans this
    exact absurd rfl hrt
  | @innerReturn method pc xedd s₁ ctxt retRest hrun hthr hx hc hg hm hpc hrec hret hw =>
    have hkind : watchKind cfg ev.env.code s = some .innerReturn :=
      watchKind_of_exec hrun hx ⟨xedd, hc, hg⟩
    cases hk.symm.trans hkind
    obtain ⟨-, hdepth, -⟩ := hsync.armed ha
    obtain ⟨-, -, -, -, ⟨sd, ho, -⟩, hwp, -⟩ := hsync.kind ha hkind
    have htop : 0 < s.cpuEventStack.top := by
      have := List.length_pos_of_ne_nil hwp
      rw [ho, List.length_cons] at hdepth
      omega
    exact (h.innerReturn hi htop hrec).congr ⟨rfl, rfl, rfl, rfl, rfl, rfl, rfl⟩
  | @branch xedd _ hrun hthr hx hc hg =>
    cases hk.symm.trans (watchKind_of_branch hrun hx hc hg)
    exact h.congr takeTrap_sameCounts
  | @call xedd calleeIP method s₁ hrun hthr hx hc hg ht hm ho =>
    have hkind : watchKind cfg ev.env.code s = some .call :=
      watchKind_of_exec hrun hx ⟨xedd, hc, hg⟩
    cases hk.symm.trans hkind
    obtain ⟨-, rfl⟩ := openCall_ok ho
    exact (h.congr takeTrap_sameCounts).openedCall hne hi

theorem trapStep_flushes {k : WatchKind} (hsync : Synced cfg ev.env.code s)
    (hscope : inScope cfg ev s = true) (hk : watchKind cfg ev.env.code s = some k)
    (hi : 1 ≤ i ∧ i < cfg.curEventId) (h : Flushes i s f) (hne : f.counts ≠ [])
    (ht : TrapStep cfg ev s s') : Flushes i s' (k.flush f) := by
  obtain ⟨ha, hthr, pc, method, k', hpc, hpc0, hm, hk', hrt, hcall, hout⟩ := inScope_spec hscope
  cases hk.symm.trans hk'
  cases ht with
  | dropped hev => cases hev.symm.trans hpc
  | reset hev =>
    cases hev.symm.trans hpc
    exact absurd rfl hpc0
  | unmapped hev hnone =>
    cases hev.symm.trans hpc
    cases hnone.symm.trans hm
  | undecoded hrun hthr' hx hc =>
    rw [watchKind, if_neg (show ¬_ = _ from hrun), if_pos hx] at hk
    obtain ⟨xedd, hxedd, hkind⟩ := Option.bind_eq_some_iff.mp hk
    rw [hc xedd hxedd] at hkind
    cases hkind
  | resume _ hr hd =>
    exact (resumes_flushes hsync ha hk hi hrt h hne hr).congr (decoder_sameCounts hd)
  | @runtimeCall xedd calleeIP _ hrun hthr' hx hc hg htarget hnone hs =>
    cases hk.symm.trans (watchKind_of_exec hrun hx ⟨xedd, hc, hg⟩)
    simp [compiledTarget, hc, htarget, hnone] at hcall
  | @lastReturn method pc xedd s₁ ctxt retRest _ hrun hthr' hx hc hg hm' hpc' hrec hret hw =>
    obtain ⟨-, -, -, -, -, hwp, -⟩ := hsync.kind ha (watchKind_of_exec hrun hx ⟨xedd, hc, hg⟩)
    exact absurd ((hrec.control flushReturn_countsOnly).1.wpStack ▸ hw) hwp
  | overInsane hrun hthr' => omega
  | overThreshold _ hrun hthr' => omega
  | outermostInsane hrun hthr' hx hev hm' hp =>
    cases hev.symm.trans hpc
    cases hm'.symm.trans hm
    cases hk.symm.trans (watchKind_of_outermost hrun hthr' hx)
    simp [hp] at hout
  | outermost hrun hthr' hx hm' hpc₀ hpc' hrec =>
    have hkind : watchKind cfg ev.env.code s = some .outermostReturn :=
      watchKind_of_outermost hrun hthr' hx
    cases hk.symm.trans hkind
    obtain ⟨-, hdepth, -⟩ := hsync.armed ha
    obtain ⟨-, -, -, ho, -, -⟩ := hsync.kind ha hkind
    have htop : s.cpuEventStack.top = 0 := by
      simp only [ho, List.length_cons, List.length_nil, zero_add, Nat.cast_one] at hdepth
      omega
    exact (h.outermostReturn hi htop hrec).congr ⟨rfl, rfl, rfl, rfl, rfl, rfl, rfl⟩

theorem Flushes.counts_ne_nil (hsync : Synced cfg ev.env.code s)
    (ha : s.watchPoint.isActive = true) (h : Flushes i s f) : f.counts ≠ [] := by
  obtain ⟨hopen, hdepth, -⟩ := hsync.armed ha
  have hpos := List.length_pos_of_ne_nil hopen
  have htop := h.rows.top_eq
  rintro hnil
  rw [hnil] at htop
  simp only [List.length_nil, Nat.cast_zero] at htop
  omega

theorem run_matches {code : Addr → Option Inst} {traps : List TrapInput} {c : CallStack UInt64}
    (hcode : ∀ ev ∈ traps, ev.env.code = code) (hi : 1 ≤ i ∧ i < cfg.curEventId)
    (hsync : Synced cfg code s) (h : Flushes i s f) (hm : Matches f c)
    (hscope : Meets (onWatchPoint cfg) (fun ev s => inScope cfg ev s = true) traps s)
    (hrun : run (onWatchPoint cfg) traps s = .ok s') :
    ∃ f', Flushes i s' f' ∧ Matches f' (callsAfter cfg i traps s c) := by
  induction traps generalizing s f c with
  | nil =>
    cases hrun
    exact ⟨f, h, hm⟩
  | cons ev traps ih =>
    obtain ⟨rfl, hcode⟩ := List.forall_mem_cons.mp hcode
    obtain ⟨hsc, hscope⟩ := hscope
    obtain ⟨s₁, hstep, hrun⟩ := run_cons.mp hrun
    obtain ⟨ha, hthr, -, -, k, -, -, -, hk, -⟩ := inScope_spec hsc
    have hsync₁ : Synced cfg ev.env.code s₁ :=
      (onWatchPoint_ensures hsync fun hlate => by omega).ok s₁ hstep
    have hne := h.counts_ne_nil hsync ha
    have hopen : c.opened ≠ [] := fun hnil => hne (hm.empty hnil)
    rcases onWatchPoint_step hstep with ⟨hf, -⟩ | ⟨-, ht⟩
    · rw [ha] at hf
      cases hf
    have h₁ := trapStep_flushes (hsync.counted ev) hsc hk hi h.counted hne ht
    have hm₁ := hm.next hopen (k.trigger (counterIncrement cfg ev i s))
    rw [flush_next] at hm₁
    rw [callsAfter, hk, hstep]
    exact ih hcode hsync₁ h₁ hm₁ (hscope s₁ hstep) hrun

structure Sampled (cfg : Config) (code : Addr → Option Inst) (past : List Event) (ev : SampleInput)
    (s : Thread) : Prop where
  image : ∀ e ∈ past ++ [.sample ev], e.env.code = code
  regular : Meets (step cfg) (Regular cfg code) (past ++ [.sample ev]) Thread.init
  taken : ∃ method, ev.env.getMethod ev.ip = some method ∧ accepts cfg method = true
  reached : run (step cfg) (past ++ [.sample ev]) Thread.init = .ok s

theorem Sampled.synced {code : Addr → Option Inst} {past : List Event} {ev : SampleInput}
    (h : Sampled cfg code past ev s) : Synced cfg code s :=
  (run_ensures step_ensures synced_init (h.regular.and_of_mem h.image)).ok s h.reached

theorem Sampled.flushes {code : Addr → Option Inst} {past : List Event} {ev : SampleInput}
    (h : Sampled cfg code past ev s) (hi : 1 ≤ i ∧ i < cfg.curEventId) :
    Flushes i s .start := by
  obtain ⟨s₀, -, hlast⟩ := run_append.mp h.reached
  obtain ⟨s₁, hs, hnil⟩ := run_cons.mp hlast
  cases hnil
  obtain ⟨method, hm, hacc⟩ := h.taken
  have hd : decoder cfg ev.env.code ev.ip (openSample cfg ev method s₀) = .ok s := by
    have hs : onSample cfg ev s₀ = .ok s := hs
    simp only [onSample, hm, hacc, Bool.not_true, Bool.false_eq_true, ↓reduceIte] at hs
    exact (ok_of_ite_error hs).2
  have hopened : Flushes i (openSample cfg ev method s₀) .start := by
    refine ⟨⟨?_, rfl⟩, fun _ => overEvents_apply hi, rfl⟩
    simp only [openSample, EventValueStack.store, Function.update_self, overEvents_apply hi]
    rfl
  exact hopened.congr (decoder_sameCounts hd)

/-- After a sample and any traps on branches, calls and returns, what was recorded
for event `i` are the inclusive counts of the instances exactly when for every
recorded instance its callees had counted nothing, in sum, at the return of their
own last callees. -/
theorem recorded_inclusive_iff (cfg : Config) (code : Addr → Option Inst) (past : List Event)
    (ev : SampleInput) (traps : List TrapInput) (s s' : Thread) (i : ℕ)
    (hsampled : Sampled cfg code past ev s) (hcode : ∀ ev ∈ traps, ev.env.code = code)
    (hscope : Meets (onWatchPoint cfg) (fun ev s => inScope cfg ev s = true) traps s)
    (hrun : run (onWatchPoint cfg) traps s = .ok s') (hi : 1 ≤ i ∧ i < cfg.curEventId) :
    (instancesSince s'.log).map (·.newValue i) =
        (callsAfter cfg i traps s .start).closed.map Call.total ↔
      ∀ k ∈ (callsAfter cfg i traps s .start).closed, k.lost = 0 := by
  obtain ⟨f, hf, hm⟩ := run_matches hcode hi hsampled.synced (hsampled.flushes hi) matches_start
    hscope hrun
  rw [hf.recorded]
  exact hm.recorded_eq_totals

def callLeafTraps : List TrapInput :=
  [trapAt (callLeafEnv 0x1000) 10, trapAt (callLeafEnv 0x2000) 30, trapAt (callLeafEnv 0x1005) 40]

def callLeafSampled : Thread :=
  ((onSample (oneEventConfig 8) (sampleAt (callLeafEnv 0x1000) 0) .init).toOption).getD .init

theorem sampled_callLeaf :
    Sampled (oneEventConfig 8) (callLeafEnv 0).code [] (sampleAt (callLeafEnv 0x1000) 0)
      callLeafSampled := by
  refine ⟨?_, by decide, ⟨_, rfl, rfl⟩, rfl⟩
  simp [sampleAt, Event.env, callLeafEnv, imageEnv]

theorem recorded_inclusive_callLeaf :
    ∃ s', run (onWatchPoint (oneEventConfig 8)) callLeafTraps callLeafSampled = .ok s' ∧
      (instancesSince s'.log).map (·.newValue 1) =
        (callsAfter (oneEventConfig 8) 1 callLeafTraps callLeafSampled .start).closed.map
          Call.total := by
  refine ⟨_, rfl, (recorded_inclusive_iff _ _ _ _ callLeafTraps _ _ 1 sampled_callLeaf ?_
    (by decide) rfl (by decide)).mpr (by decide)⟩
  simp [callLeafTraps, trapAt, callLeafEnv, imageEnv]

def callMidTraps : List TrapInput :=
  [trapAt (callMidEnv 0x1000 0) 10, trapAt (callMidEnv 0x2000 0) 30,
    trapAt (callMidEnv 0x3000 0x2005) 70, trapAt (callMidEnv 0x2005 0x1005) 150,
    trapAt (callMidEnv 0x1005 0) 310]

/-- `mid` counts 140 in all, 60 of it before `leaf` returns; `main` is charged 250 and
not 310. -/
theorem callMid_count_lost :
    ∃ s s', Sampled (oneEventConfig 8) (callMidEnv 0 0).code [] (sampleAt (callMidEnv 0x1000 0) 0) s ∧
      Meets (onWatchPoint (oneEventConfig 8)) (fun ev s => inScope (oneEventConfig 8) ev s = true)
        callMidTraps s ∧
      run (onWatchPoint (oneEventConfig 8)) callMidTraps s = .ok s' ∧
      (instancesSince s'.log).map (·.newValue 1) = [250, 140, 40] ∧
      (callsAfter (oneEventConfig 8) 1 callMidTraps s .start).closed.map Call.total =
        [310, 140, 40] := by
  refine ⟨_, _, ⟨?_, by decide, ⟨_, rfl, rfl⟩, rfl⟩, by decide, rfl, rfl, rfl⟩
  simp [sampleAt, Event.env, callMidEnv, imageEnv]

end Trace4J.Profiler
