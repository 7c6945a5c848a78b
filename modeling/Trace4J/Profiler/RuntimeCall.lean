import Trace4J.Profiler.InclusiveCount

/-!
# Calls out of the code cache

A `CALL` whose callee is not compiled is not traced: only its return address is watched,
and what is counted until then is to be charged to the runtime alone. The handler of the
`CALL` saves 0 instead of the pending count, and clears it, so the caller keeps its
pending count exactly when there was none.
-/

namespace Trace4J.Profiler
open Library

def TrapInput.Handled (ev : TrapInput) : Prop :=
  ∃ pc method, ev.pc = some pc ∧ pc ≠ 0 ∧ ev.env.getMethod pc = some method

instance {ev : TrapInput} : Decidable ev.Handled :=
  decidable_of_iff (((ev.pc.filter fun pc => pc ≠ 0).bind ev.env.getMethod).isSome = true) (by
    simp only [TrapInput.Handled, Option.isSome_iff_exists, Option.bind_eq_some_iff,
      Option.filter_eq_some_iff, decide_eq_true_eq]
    tauto)

structure CallsRuntime (cfg : Config) (ev : TrapInput) (s : Thread) (xedd : Inst)
    (calleeIP : Addr) : Prop where
  active : s.watchPoint.isActive = true
  handled : ev.Handled
  traced : ¬IsRuntime s
  below : s.decodeInsCounter < cfg.decodeThreshold
  exec : s.watchPoint.sd.watchType = .exec
  inst : ev.env.code s.watchPoint.sd.va = some xedd
  call : xedd.iclass.group = .call
  target : getBranchTarget ev.env.xedAgen s.watchPoint.sd.va xedd ev.env.uCtxt = some calleeIP
  runtime : ev.env.getMethod calleeIP = none

/-- What the two triggers leave behind, `c` being the thread when the `CALL` is handled:
decoding resumes after the `CALL` with the stacks of `c`, the pending counts are those of
`c`, and the runtime is charged what was counted between the triggers. -/
structure Neutral (cfg : Config) (ev : TrapInput) (c s₁ s₂ : Thread) : Prop where
  cpuEventStack : s₂.cpuEventStack = c.cpuEventStack
  cpuEventCntStack : s₂.cpuEventCntStack = c.cpuEventCntStack
  resumed : ∃ s, s.wpStack = c.wpStack ∧ s.retCtxtStack = c.retCtxtStack ∧
    decoder cfg ev.env.code s₁.watchPoint.sd.va s = .ok s₂
  eventRDCnt : ∀ i, 1 ≤ i → i < cfg.curEventId → s₂.eventRDCnt i = c.eventRDCnt i
  runtimeCallTime : ∀ i, 1 ≤ i → i < cfg.curEventId →
    s₂.runtimeCallTime i = c.runtimeCallTime i + counterIncrement cfg ev i s₁

variable {cfg : Config} {ev : TrapInput} {s s' : Thread} {xedd : Inst} {calleeIP : Addr}

theorem TrapInput.Handled.pc_ne_none (h : ev.Handled) : ev.pc ≠ none := by
  obtain ⟨pc, method, hpc, -⟩ := h
  simp [hpc]

theorem TrapInput.Handled.pc_ne_zero (h : ev.Handled) : ev.pc ≠ some 0 := by
  obtain ⟨pc, method, hpc, hne, -⟩ := h
  simpa [hpc] using hne

theorem TrapInput.Handled.getMethod_ne_none (h : ev.Handled) {pc : Addr} (hpc : ev.pc = some pc) :
    ev.env.getMethod pc ≠ none := by
  obtain ⟨pc', method, hpc', -, hm⟩ := h
  obtain rfl := Option.some.inj (hpc.symm.trans hpc')
  simp [hm]

structure RuntimeCalled (n : ℕ) (c s : Thread) : Prop where
  active : s.watchPoint.isActive = true
  runtime : IsRuntime s
  cpuEventStack : s.cpuEventStack = c.cpuEventStack
  cpuEventCntStack : s.cpuEventCntStack = c.cpuEventCntStack
  wpStack : s.wpStack = c.wpStack
  retCtxtStack : s.retCtxtStack = c.retCtxtStack
  runtimeCallTime : s.runtimeCallTime = c.runtimeCallTime
  saved : ∀ i, 1 ≤ i → i < n → s.runtimeCallCount i = 0
  pending : ∀ i, 1 ≤ i → i < n → s.eventRDCnt i = 0

theorem onRuntimeCall_called {retToIp : Addr} (h : onRuntimeCall cfg retToIp (takeTrap s) = .ok s') :
    RuntimeCalled cfg.curEventId s s' := by
  rw [onRuntimeCall_ok h, subscribe, wpSubscribe_exec rfl]
  exact ⟨rfl, rfl, rfl, rfl, rfl, rfl, rfl, fun i h1 hi => overEvents_apply ⟨h1, hi⟩,
    fun i h1 hi => overEvents_apply ⟨h1, hi⟩⟩

theorem CallsRuntime.next (h : CallsRuntime cfg ev s xedd calleeIP)
    (hs : onWatchPoint cfg ev s = .ok s') : RuntimeCalled cfg.curEventId (counted cfg ev s) s' := by
  obtain ⟨hidle, -⟩ | ⟨-, ht⟩ := onWatchPoint_step hs
  · rw [h.active] at hidle
    cases hidle
  have hgroup : ∀ {x : Inst}, ev.env.code s.watchPoint.sd.va = some x → x.iclass.group = .call := by
    intro x hx
    rw [h.inst] at hx
    cases hx
    exact h.call
  cases ht with
  | dropped hnone => exact absurd hnone h.handled.pc_ne_none
  | reset hzero => exact absurd hzero h.handled.pc_ne_zero
  | unmapped hpc hnone => exact absurd hnone (h.handled.getMethod_ne_none hpc)
  | undecoded _ _ _ hdefault => exact absurd (h.call.symm.trans (hdefault _ h.inst)) (by decide)
  | resume _ hres _ =>
    cases hres with
    | runtimeReturn hrt => exact absurd hrt h.traced
    | innerReturn _ _ _ hc hg => exact absurd ((hgroup hc).symm.trans hg) (by decide)
    | branch _ _ _ hc hg =>
      obtain hg | hg := hg
      · exact absurd ((hgroup hc).symm.trans hg) (by decide)
      · exact absurd ((hgroup hc).symm.trans hg) (by decide)
    | call _ _ _ hc _ htarget hcompiled _ =>
      obtain rfl := Option.some.inj (h.inst.symm.trans hc)
      obtain rfl := Option.some.inj (h.target.symm.trans htarget)
      rw [h.runtime] at hcompiled
      cases hcompiled
  | runtimeCall _ _ _ _ _ _ _ hcall => exact onRuntimeCall_called hcall
  | lastReturn _ _ _ _ hc hg => exact absurd ((hgroup hc).symm.trans hg) (by decide)
  | overInsane _ hthr => exact absurd h.below (not_lt.mpr hthr)
  | overThreshold _ _ hthr => exact absurd h.below (not_lt.mpr hthr)
  | outermostInsane _ _ hx => exact absurd h.exec hx
  | outermost _ _ hx => exact absurd h.exec hx

theorem runtimeReturn_next (ha : s.watchPoint.isActive = true) (hrt : IsRuntime s)
    (hev : ev.Handled) (hs : onWatchPoint cfg ev s = .ok s') :
    decoder cfg ev.env.code s.watchPoint.sd.va (closeRuntimeCall cfg.watermark.curWatermarkId
      (takeTrap (counted cfg ev s))) = .ok s' := by
  obtain ⟨hidle, -⟩ | ⟨-, ht⟩ := onWatchPoint_step hs
  · rw [ha] at hidle
    cases hidle
  cases ht with
  | dropped hnone => exact absurd hnone hev.pc_ne_none
  | reset hzero => exact absurd hzero hev.pc_ne_zero
  | unmapped hpc hnone => exact absurd hnone (hev.getMethod_ne_none hpc)
  | resume _ hres hd =>
    cases hres with
    | runtimeReturn => exact hd
    | innerReturn h => exact absurd hrt h
    | branch h => exact absurd hrt h
    | call h => exact absurd hrt h
  | undecoded h => exact absurd hrt h
  | runtimeCall h => exact absurd hrt h
  | lastReturn _ h => exact absurd hrt h
  | overInsane h => exact absurd hrt h
  | overThreshold _ h => exact absurd hrt h
  | outermostInsane h => exact absurd hrt h
  | outermost h => exact absurd hrt h

/-- A runtime call and its return are neutral exactly when nothing was pending. -/
theorem runtimeCall_neutral_iff (cfg : Config) (hn : cfg.watermark.curWatermarkId = cfg.curEventId)
    (ev₁ ev₂ : TrapInput) (s s₁ s₂ : Thread) (xedd : Inst) (calleeIP : Addr)
    (hcall : CallsRuntime cfg ev₁ s xedd calleeIP) (h₁ : onWatchPoint cfg ev₁ s = .ok s₁)
    (hret : ev₂.Handled) (h₂ : onWatchPoint cfg ev₂ s₁ = .ok s₂) :
    Neutral cfg ev₂ (counted cfg ev₁ s) s₁ s₂ ↔
      ∀ i, 1 ≤ i → i < cfg.curEventId → (counted cfg ev₁ s).eventRDCnt i = 0 := by
  have hc := hcall.next h₁
  have hd := runtimeReturn_next hc.active hc.runtime hret h₂
  rw [hn] at hd
  have hsame := decoder_sameCounts hd
  have hpending : ∀ i, 1 ≤ i → i < cfg.curEventId → s₂.eventRDCnt i = 0 := by
    intro i h1 hi
    rw [hsame.eventRDCnt, ← hc.saved i h1 hi]
    exact overEvents_apply ⟨h1, hi⟩
  constructor
  · intro h i h1 hi
    rw [← h.eventRDCnt i h1 hi, hpending i h1 hi]
  · intro hzero
    refine ⟨hsame.cpuEventStack.trans hc.cpuEventStack,
      hsame.cpuEventCntStack.trans hc.cpuEventCntStack,
      ⟨closeRuntimeCall cfg.curEventId (takeTrap (counted cfg ev₂ s₁)),
        hc.wpStack, hc.retCtxtStack, hd⟩, ?_, ?_⟩
    · intro i h1 hi
      rw [hpending i h1 hi, hzero i h1 hi]
    · intro i h1 hi
      have hcharged : s₂.runtimeCallTime i = s₁.runtimeCallTime i +
          ((counted cfg ev₂ s₁).eventRDCnt i - s₁.runtimeCallCount i) := by
        rw [hsame.runtimeCallTime]
        exact overEvents_apply ⟨h1, hi⟩
      rw [hcharged, hc.saved i h1 hi, counterIncrement, hc.pending i h1 hi, hc.runtimeCallTime]

def runtimeEnv (pc : Addr) : Env :=
  imageEnv callLeaf [⟨1, 1, ['m'], 0x1000, 0x1fff⟩] (stoppedAt pc 0x7000 0x1005)

def runtimeSampled : Thread :=
  match run (step (oneEventConfig 8)) [.sample (sampleAt (runtimeEnv 0x1000) 0)] Thread.init with
  | .ok s => s
  | .error _ => Thread.init

theorem callsRuntime_sampled (reading : UInt64) :
    CallsRuntime (oneEventConfig 8) (trapAt (runtimeEnv 0x1000) reading) runtimeSampled
      ⟨.callNear, 5, .relbr 0xffb⟩ 0x2000 := by
  refine ⟨rfl, ?_, by decide, by decide, rfl, rfl, rfl, rfl, rfl⟩
  exact ⟨0x1000, _, rfl, by decide, rfl⟩

theorem runtimeCall_neutral_nothingPending :
    ∃ s₁ s₂, onWatchPoint (oneEventConfig 8) (trapAt (runtimeEnv 0x1000) 0) runtimeSampled = .ok s₁ ∧
      onWatchPoint (oneEventConfig 8) (trapAt (runtimeEnv 0x1005) 20) s₁ = .ok s₂ ∧
      s₂.runtimeCallTime 1 = 20 ∧
      Neutral (oneEventConfig 8) (trapAt (runtimeEnv 0x1005) 20)
        (counted (oneEventConfig 8) (trapAt (runtimeEnv 0x1000) 0) runtimeSampled) s₁ s₂ := by
  refine ⟨_, _, rfl, rfl, rfl, ?_⟩
  refine (runtimeCall_neutral_iff (oneEventConfig 8) rfl _ _ _ _ _ _ _ (callsRuntime_sampled 0) rfl
    ⟨0x1005, _, rfl, by decide, rfl⟩ rfl).mpr ?_
  intro i h1 hi
  obtain rfl : i = 1 := by
    have hi' : i < 2 := hi
    omega
  rfl

/-- The 10 that `main` had counted when it made the call are gone after the return. -/
theorem runtimeCall_pending_lost :
    ∃ s₁ s₂, CallsRuntime (oneEventConfig 8) (trapAt (runtimeEnv 0x1000) 10) runtimeSampled
        ⟨.callNear, 5, .relbr 0xffb⟩ 0x2000 ∧
      onWatchPoint (oneEventConfig 8) (trapAt (runtimeEnv 0x1000) 10) runtimeSampled = .ok s₁ ∧
      onWatchPoint (oneEventConfig 8) (trapAt (runtimeEnv 0x1005) 30) s₁ = .ok s₂ ∧
      (counted (oneEventConfig 8) (trapAt (runtimeEnv 0x1000) 10) runtimeSampled).eventRDCnt 1 = 10 ∧
      s₂.eventRDCnt 1 = 0 ∧
      ¬Neutral (oneEventConfig 8) (trapAt (runtimeEnv 0x1005) 30)
        (counted (oneEventConfig 8) (trapAt (runtimeEnv 0x1000) 10) runtimeSampled) s₁ s₂ := by
  refine ⟨_, _, callsRuntime_sampled 10, rfl, rfl, rfl, rfl, ?_⟩
  intro h
  exact absurd (h.eventRDCnt 1 le_rfl (by decide)) (by decide)

end Trace4J.Profiler
