import Trace4J.Profiler.StackSync

/-!
# The event stacks stay inside their arrays

`CPUEventStack` and `CPUEventCntStack` hold `MAX_STACK` rows, and no push checks for room.
`ArmedDepth` relates the index to the lengths of `WP_Stack` and `retCtxtStack`, which
bounds it from below. It survives a `CALL` that is handled as a return over the threshold,
where the stacks are no longer in step. The only bound from above is the depth of calls
that the program reaches.
-/

namespace Trace4J.Profiler
open Library

/-- The compiled method that the watched `CALL` is about to enter. -/
def calledMethod (env : Env) (s : Thread) : Option MethodInfo :=
  ((env.code s.watchPoint.sd.va).filter fun xedd => xedd.iclass.group = .call).bind fun xedd =>
    (getBranchTarget env.xedAgen s.watchPoint.sd.va xedd env.uCtxt).bind env.getMethod

def OpensCall (cfg : Config) (env : Env) (s : Thread) : Prop :=
  s.watchPoint.isActive = true ∧ ¬IsRuntime s ∧ s.decodeInsCounter < cfg.decodeThreshold ∧
    s.watchPoint.sd.watchType = .exec ∧ (calledMethod env s).isSome = true

instance (cfg : Config) (env : Env) (s : Thread) : Decidable (OpensCall cfg env s) :=
  inferInstanceAs (Decidable (_ ∧ _))

/-- A sample arrives with no watchpoint armed, and a call finds a free row. -/
def Shallow (cfg : Config) : Event → Thread → Prop
  | .sample _, s => s.watchPoint.isActive = false
  | .trap ev, s => OpensCall cfg ev.env s → s.cpuEventStack.top + 1 < maxStack

instance (cfg : Config) : ∀ ev s, Decidable (Shallow cfg ev s)
  | .sample _, s => inferInstanceAs (Decidable (s.watchPoint.isActive = false))
  | .trap ev, s =>
    inferInstanceAs (Decidable (OpensCall cfg ev.env s → s.cpuEventStack.top + 1 < maxStack))

inductive ArmedDepth (cfg : Config) (code : Addr → Option Inst) (s : Thread) : Prop
  | traced : (IsRuntime s ∨ s.watchPoint.sd.watchType = .exec ∧
        ∃ g, g ≠ .ret ∧ InstAt code s.watchPoint.sd.va g) →
      0 ≤ s.cpuEventStack.top → (s.wpStack.length : ℤ) = s.cpuEventStack.top + 1 →
      (s.retCtxtStack.length : ℤ) = s.cpuEventStack.top + 1 → ArmedDepth cfg code s
  | innerReturn : ¬IsRuntime s → s.watchPoint.sd.watchType = .exec →
      InstAt code s.watchPoint.sd.va .ret → s.decodeInsCounter < cfg.decodeThreshold →
      1 ≤ s.cpuEventStack.top → (s.wpStack.length : ℤ) = s.cpuEventStack.top →
      (s.retCtxtStack.length : ℤ) = s.cpuEventStack.top + 1 → ArmedDepth cfg code s
  | overThreshold : ¬IsRuntime s → cfg.decodeThreshold ≤ s.decodeInsCounter →
      (s.retCtxtStack.length : ℤ) = s.cpuEventStack.top + 1 → ArmedDepth cfg code s
  | outermost : ¬IsRuntime s → s.watchPoint.sd.watchType = .rw →
      s.decodeInsCounter < cfg.decodeThreshold → s.cpuEventStack.top = 0 → ArmedDepth cfg code s

structure Bounded (cfg : Config) (code : Addr → Option Inst) (s : Thread) : Prop where
  blocks : BlocksOk code s.basicBlockMap
  watches : ∀ sd ∈ s.wpStack, IsReturnWatch sd
  top_lt : s.cpuEventStack.top < maxStack
  armed : s.watchPoint.isActive = true → ArmedDepth cfg code s

structure Entering (code : Addr → Option Inst) (s : Thread) : Prop where
  blocks : BlocksOk code s.basicBlockMap
  watches : ∀ sd ∈ s.wpStack, IsReturnWatch sd
  top_nonneg : 0 ≤ s.cpuEventStack.top
  top_lt : s.cpuEventStack.top < maxStack
  wpStack : (s.wpStack.length : ℤ) = s.cpuEventStack.top + 1
  retCtxtStack : (s.retCtxtStack.length : ℤ) = s.cpuEventStack.top + 1
  free : s.watchPoint.isActive = false

variable {cfg : Config} {code : Addr → Option Inst} {env : Env} {s s' t : Thread} {e : Fault}
variable {ip : Addr}

theorem bounded_init : Bounded cfg code Thread.init where
  blocks := blocksOk_empty
  watches := by simp [Thread.init]
  top_lt := by decide
  armed h := by cases h

theorem instAt_unique {a : Addr} {g g' : IGroup} (h : InstAt code a g) (h' : InstAt code a g') :
    g = g' := by
  obtain ⟨x, hx, rfl⟩ := h
  obtain ⟨y, hy, rfl⟩ := h'
  cases hx.symm.trans hy
  rfl

theorem ArmedDepth.of_runtime (h : ArmedDepth cfg code s) (hrt : IsRuntime s) :
    0 ≤ s.cpuEventStack.top ∧ (s.wpStack.length : ℤ) = s.cpuEventStack.top + 1 ∧
      (s.retCtxtStack.length : ℤ) = s.cpuEventStack.top + 1 := by
  cases h with
  | traced _ htop hwp hret => exact ⟨htop, hwp, hret⟩
  | innerReturn hn => exact absurd hrt hn
  | overThreshold hn => exact absurd hrt hn
  | outermost hn => exact absurd hrt hn

theorem ArmedDepth.of_exec {g : IGroup} (h : ArmedDepth cfg code s)
    (hthr : s.decodeInsCounter < cfg.decodeThreshold) (hx : s.watchPoint.sd.watchType = .exec)
    (hi : InstAt code s.watchPoint.sd.va g) (hg : g ≠ .ret) :
    0 ≤ s.cpuEventStack.top ∧ (s.wpStack.length : ℤ) = s.cpuEventStack.top + 1 ∧
      (s.retCtxtStack.length : ℤ) = s.cpuEventStack.top + 1 := by
  cases h with
  | traced _ htop hwp hret => exact ⟨htop, hwp, hret⟩
  | innerReturn _ _ hret => exact absurd (instAt_unique hi hret) hg
  | overThreshold _ hover => exact absurd hthr (not_lt.mpr hover)
  | outermost _ hrw =>
    rw [hx] at hrw
    cases hrw

theorem ArmedDepth.of_ret (h : ArmedDepth cfg code s) (hrt : ¬IsRuntime s)
    (hthr : s.decodeInsCounter < cfg.decodeThreshold) (hx : s.watchPoint.sd.watchType = .exec)
    (hi : InstAt code s.watchPoint.sd.va .ret) :
    1 ≤ s.cpuEventStack.top ∧ (s.wpStack.length : ℤ) = s.cpuEventStack.top ∧
      (s.retCtxtStack.length : ℤ) = s.cpuEventStack.top + 1 := by
  cases h with
  | traced hk =>
    obtain hk | ⟨-, g, hg, hi'⟩ := hk
    · exact absurd hk hrt
    · exact absurd (instAt_unique hi' hi) hg
  | innerReturn _ _ _ _ htop hwp hret => exact ⟨htop, hwp, hret⟩
  | overThreshold _ hover => exact absurd hthr (not_lt.mpr hover)
  | outermost _ hrw =>
    rw [hx] at hrw
    cases hrw

theorem ArmedDepth.of_over (h : ArmedDepth cfg code s)
    (hthr : cfg.decodeThreshold ≤ s.decodeInsCounter) :
    (s.retCtxtStack.length : ℤ) = s.cpuEventStack.top + 1 := by
  cases h with
  | traced _ _ _ hret => exact hret
  | innerReturn _ _ _ hlt => exact absurd hlt (not_lt.mpr hthr)
  | overThreshold _ _ hret => exact hret
  | outermost _ _ hlt => exact absurd hlt (not_lt.mpr hthr)

theorem ArmedDepth.of_outermost (h : ArmedDepth cfg code s) (hrt : ¬IsRuntime s)
    (hthr : s.decodeInsCounter < cfg.decodeThreshold) (hx : s.watchPoint.sd.watchType ≠ .exec) :
    s.cpuEventStack.top = 0 := by
  cases h with
  | traced hk =>
    obtain hk | ⟨hexec, -⟩ := hk
    · exact absurd hk hrt
    · exact absurd hexec hx
  | innerReturn _ hexec => exact absurd hexec hx
  | overThreshold _ hover => exact absurd hthr (not_lt.mpr hover)
  | outermost _ _ _ htop => exact htop

theorem DecoderStep.bounded (h : Entering code s) (hd : DecoderStep cfg code ip s s') :
    Bounded cfg code s' := by
  have hwp := h.wpStack
  have hret := h.retCtxtStack
  cases hd with
  | @overThreshold map sd wpRest hthr hm hw =>
    have hsd : IsReturnWatch sd := h.watches sd (by simp [hw])
    rw [wpSubscribe_of_inactive h.free hsd.valid]
    refine ⟨hm, fun sd' hmem => h.watches sd' (by simp [hw, hmem]), h.top_lt, fun _ => ?_⟩
    exact .overThreshold hsd.frame hthr hret
  | @outermost map sd ctxt retRest hthr hm hw hr =>
    have hsd : IsReturnWatch sd := h.watches sd (by simp [hw])
    rw [wpSubscribe_of_inactive h.free hsd.valid]
    refine ⟨hm, by simp, h.top_lt, fun _ => .outermost hsd.frame hsd.rw hthr ?_⟩
    simpa [hw] using hwp.symm
  | @inner map sd wpRest xedd tempIp hthr hm hw hne hc hg =>
    have hsd : IsReturnWatch sd := h.watches sd (by simp [hw])
    have hpos := List.length_pos_of_ne_nil hne
    rw [hw, List.length_cons] at hwp
    rw [wpSubscribe_exec h.free]
    refine ⟨hm, fun sd' hmem => h.watches sd' (by simp [hw, hmem]), h.top_lt, fun _ => ?_⟩
    refine .innerReturn hsd.frame rfl ⟨xedd, hc, hg⟩ hthr ?_ ?_ hret
    · dsimp only
      omega
    · dsimp only
      omega
  | @call map xedd tempIp hthr hm he hc hg =>
    rw [wpSubscribe_exec h.free]
    refine ⟨hm, h.watches, h.top_lt, fun _ => ?_⟩
    exact .traced (.inr ⟨rfl, .call, by decide, xedd, hc, hg⟩) h.top_nonneg hwp hret
  | @branch map xedd tempIp hthr hm he hc hg =>
    rw [wpSubscribe_exec h.free]
    refine ⟨hm, h.watches, h.top_lt, fun _ => ?_⟩
    refine .traced (.inr ⟨rfl, xedd.iclass.group, ?_, xedd, hc, rfl⟩) h.top_nonneg hwp hret
    rcases hg with hg | hg
    · simp [hg]
    · simp [hg]

theorem decoder_not_outOfBounds (h : decoder cfg code ip s = .error e) : e ≠ .outOfBounds := by
  rcases decoder_fault h with rfl | rfl | ⟨rfl, -⟩
  · decide
  · decide
  · decide

theorem Entering.decoder_ensures (h : Entering code s) :
    Ensures (· = .outOfBounds) (decoder cfg code ip s) (Bounded cfg code) where
  ok _ hs := (decoder_step h.blocks hs).bounded h
  error _ he := decoder_not_outOfBounds he

theorem Resumes.entering (h : Bounded cfg env.code s) (ha : s.watchPoint.isActive = true)
    (hcall : OpensCall cfg env s → s.cpuEventStack.top + 1 < maxStack)
    (hr : Resumes cfg env s ip t) : Entering env.code t := by
  have hk := h.armed ha
  cases hr with
  | runtimeReturn hrt =>
    obtain ⟨htop, hwp, hret⟩ := hk.of_runtime hrt
    exact ⟨h.blocks, h.watches, htop, h.top_lt, hwp, hret, rfl⟩
  | @innerReturn method pc xedd s₁ ctxt retRest hrt hthr hx hc hg hm hpc hrec hret hne =>
    obtain ⟨htop, hwp, hlen⟩ := hk.of_ret hrt hthr hx ⟨xedd, hc, hg⟩
    obtain ⟨hctl, -⟩ := hrec.control flushReturn_countsOnly
    have hret' : s.retCtxtStack = ctxt :: retRest := hctl.retCtxtStack ▸ hret
    have htop' : s₁.cpuEventStack.top = s.cpuEventStack.top - 1 := hctl.top
    have hwp' : s₁.wpStack = s.wpStack := hctl.wpStack
    have hlt := h.top_lt
    rw [hret', List.length_cons] at hlen
    refine ⟨hctl.basicBlockMap ▸ h.blocks, hwp'.symm ▸ h.watches, ?_, ?_, ?_, ?_, ?_⟩
    · dsimp only
      omega
    · dsimp only
      omega
    · rw [hwp', htop', hwp]
      omega
    · dsimp only
      omega
    · exact congrArg WPRegisterInfo.isActive hctl.watchPoint
  | @branch xedd _ hrt hthr hx hc hg =>
    have hne : xedd.iclass.group ≠ .ret := by
      rcases hg with hg | hg
      · simp [hg]
      · simp [hg]
    obtain ⟨htop, hwp, hret⟩ := hk.of_exec hthr hx ⟨xedd, hc, rfl⟩ hne
    exact ⟨h.blocks, h.watches, htop, h.top_lt, hwp, hret, rfl⟩
  | @call xedd calleeIP method s₁ hrt hthr hx hc hg ht hm ho =>
    obtain ⟨htop, hwp, hret⟩ := hk.of_exec hthr hx ⟨xedd, hc, hg⟩ (by decide)
    obtain ⟨-, rfl⟩ := openCall_ok ho
    have hopens : OpensCall cfg env s :=
      ⟨ha, hrt, hthr, hx, by simp [calledMethod, hc, hg, ht, hm, Option.filter]⟩
    refine ⟨h.blocks, ?_, ?_, hcall hopens, ?_, ?_, rfl⟩
    · intro sd hmem
      rcases List.mem_cons.mp hmem with rfl | hmem
      · exact isReturnWatch_of_method hm
      · exact h.watches sd hmem
    · exact add_nonneg htop zero_le_one
    · exact congrArg (· + 1) hwp
    · exact congrArg (· + 1) hret

theorem Bounded.of_free (h : Bounded cfg code s) (hb : t.basicBlockMap = s.basicBlockMap)
    (hw : ∀ sd ∈ t.wpStack, sd ∈ s.wpStack) (ht : t.cpuEventStack.top < maxStack)
    (hf : t.watchPoint.isActive = false) : Bounded cfg code t where
  blocks := hb ▸ h.blocks
  watches sd hmem := h.watches sd (hw sd hmem)
  top_lt := ht
  armed ha := by
    rw [hf] at ha
    cases ha

theorem mem_armNext {sd : SampleData} (h : sd ∈ (armNext s).wpStack) : sd ∈ s.wpStack := by
  cases hw : s.wpStack with
  | nil => rwa [armNext_nil hw, hw] at h
  | cons sd' rest =>
    unfold armNext at h
    rw [hw] at h
    dsimp only at h
    split_ifs at h
    · exact .tail _ h
    · exact h

theorem armNext_armed (hw : ∀ sd ∈ s.wpStack, IsReturnWatch sd)
    (ha : (armNext (takeTrap s)).watchPoint.isActive = true) :
    IsReturnWatch (armNext (takeTrap s)).watchPoint.sd := by
  cases hs : s.wpStack with
  | nil =>
    rw [armNext_nil (s := takeTrap s) hs] at ha
    cases ha
  | cons sd rest =>
    have hsd := hw sd (by simp [hs])
    rw [armNext_cons (s := takeTrap s) hs rfl hsd.valid]
    exact hsd

theorem TrapStep.bounded {ev : TrapInput} (h : Bounded cfg ev.env.code s)
    (ha : s.watchPoint.isActive = true)
    (hcall : OpensCall cfg ev.env s → s.cpuEventStack.top + 1 < maxStack)
    (ht : TrapStep cfg ev s s') : Bounded cfg ev.env.code s' := by
  have hk := h.armed ha
  have hdec : s.cpuEventStack.top - 1 < maxStack := by
    have := h.top_lt
    omega
  cases ht with
  | dropped _ => exact h.of_free rfl (fun _ => id) h.top_lt rfl
  | reset _ => exact h.of_free rfl (fun _ => id) (by decide : (-1 : ℤ) < maxStack) rfl
  | unmapped _ _ => exact h.of_free rfl (fun _ => id) hdec rfl
  | undecoded => exact h.of_free rfl (fun _ => id) h.top_lt rfl
  | resume _ hr hd => exact ((hr.entering h ha hcall).decoder_ensures).ok s' hd
  | @runtimeCall xedd _ _ hrt hthr hx hc hg _ _ hs =>
    obtain ⟨htop, hwp, hret⟩ := hk.of_exec hthr hx ⟨xedd, hc, hg⟩ (by decide)
    rw [onRuntimeCall_ok hs, subscribe, wpSubscribe_exec rfl]
    exact ⟨h.blocks, h.watches, h.top_lt, fun _ => .traced (.inl rfl) htop hwp hret⟩
  | lastReturn _ _ _ _ _ _ _ _ hrec =>
    obtain ⟨hctl, -⟩ := hrec.control flushReturn_countsOnly
    refine h.of_free hctl.basicBlockMap ?_ (hctl.top.trans_lt hdec) ?_
    · rw [hctl.wpStack]
      exact fun _ => id
    · exact congrArg WPRegisterInfo.isActive hctl.watchPoint
  | overInsane =>
    obtain ⟨wpi, wps, harm⟩ := armNext_eq (s := takeTrap s)
    refine h.of_free ?_ (fun sd => mem_armNext (s := takeTrap s)) ?_ rfl
    · rw [harm]
      rfl
    · rw [harm]
      exact hdec
  | @overThreshold _ _ _ _ s₁ ctxt retRest _ hrt hthr _ _ _ _ hrec hret =>
    obtain ⟨hctl, -⟩ := hrec.control flushReturn_countsOnly
    obtain ⟨wpi, wps, harm⟩ := armNext_eq (s := takeTrap s)
    have hwatch : s₁.watchPoint = (armNext (takeTrap s)).watchPoint := hctl.watchPoint
    have hwp : s₁.wpStack = (armNext (takeTrap s)).wpStack := hctl.wpStack
    have hmap := congrArg Thread.basicBlockMap harm
    have hins := congrArg Thread.decodeInsCounter harm
    have hblocks : s₁.basicBlockMap = s.basicBlockMap := hctl.basicBlockMap.trans hmap
    have hcounter : s₁.decodeInsCounter = s.decodeInsCounter := hctl.decodeInsCounter.trans hins
    have htop : s₁.cpuEventStack.top = s.cpuEventStack.top - 1 :=
      hctl.top.trans (congrArg (fun t => t.cpuEventStack.top - 1) harm)
    have hrets : s₁.retCtxtStack = s.retCtxtStack :=
      hctl.retCtxtStack.trans armNext_retCtxtStack
    refine ⟨hblocks ▸ h.blocks, ?_, htop.trans_lt hdec, fun hactive => ?_⟩
    · intro sd hmem
      exact h.watches sd (mem_armNext (s := takeTrap s) (hwp ▸ hmem))
    · have hsd := armNext_armed h.watches (hwatch ▸ hactive)
      have hlen := hk.of_over hthr
      rw [← hrets, hret, List.length_cons] at hlen
      refine .overThreshold ?_ (hcounter ▸ hthr) ?_
      · exact hwatch ▸ hsd.frame
      · dsimp only
        omega
  | outermostInsane => exact h.of_free rfl (fun _ => id) hdec rfl
  | outermost _ _ _ _ _ _ hrec =>
    obtain ⟨hctl, -⟩ := hrec.control flushOutermost_countsOnly
    refine h.of_free hctl.basicBlockMap ?_ (hctl.top.trans_lt hdec) rfl
    intro sd hmem
    exact hctl.wpStack ▸ hmem

theorem TrapFault.ne_outOfBounds (h : Bounded cfg env.code s) (ha : s.watchPoint.isActive = true)
    (hcall : OpensCall cfg env s → s.cpuEventStack.top + 1 < maxStack)
    (hf : TrapFault cfg env s e) : e ≠ .outOfBounds := by
  have hk := h.armed ha
  cases hf with
  | assertion => decide
  | retCtxtStackEmpty => decide
  | innerPop => decide
  | topNotZero => decide
  | resume _ hd => exact decoder_not_outOfBounds hd
  | @callBounds xedd calleeIP method hrt hthr hx hc hg ht hm hd =>
    obtain ⟨htop, -⟩ := hk.of_exec hthr hx ⟨xedd, hc, hg⟩ (by decide)
    have hopens : OpensCall cfg env s :=
      ⟨ha, hrt, hthr, hx, by simp [calledMethod, hc, hg, ht, hm, Option.filter]⟩
    exact absurd ⟨htop, hcall hopens⟩ hd
  | @returnBounds xedd hrt hthr hx hc hg hd =>
    obtain ⟨htop, -⟩ := hk.of_ret hrt hthr hx ⟨xedd, hc, hg⟩
    exact absurd ⟨by omega, h.top_lt⟩ hd
  | overBounds hrt hthr hne hd =>
    have hlen := hk.of_over hthr
    have hpos := List.length_pos_of_ne_nil hne
    exact absurd ⟨by omega, h.top_lt⟩ hd
  | outermostBounds hrt hthr hx hd =>
    have htop := hk.of_outermost hrt hthr hx
    exact absurd ⟨htop.ge, h.top_lt⟩ hd

theorem entering_openSample {ev : SampleInput} {method : MethodInfo}
    (h : Bounded cfg ev.env.code s) (hf : s.watchPoint.isActive = false)
    (hm : ev.env.getMethod ev.ip = some method) :
    Entering ev.env.code (openSample cfg ev method s) := by
  refine ⟨h.blocks, ?_, le_rfl, (by decide : (0 : ℤ) < maxStack), rfl, rfl, hf⟩
  intro sd hmem
  obtain rfl := List.mem_singleton.mp hmem
  exact isReturnWatch_of_method hm

theorem Bounded.counted (h : Bounded cfg code s) (ev : TrapInput) :
    Bounded cfg code (counted cfg ev s) := by
  refine ⟨h.blocks, h.watches, h.top_lt, fun ha => ?_⟩
  cases h.armed ha with
  | traced hk htop hwp hret => exact .traced hk htop hwp hret
  | innerReturn hrt hx hi hthr htop hwp hret => exact .innerReturn hrt hx hi hthr htop hwp hret
  | overThreshold hrt hthr hret => exact .overThreshold hrt hthr hret
  | outermost hrt hx hthr htop => exact .outermost hrt hx hthr htop

theorem step_bounded (ev : Event) (s : Thread) (h : Bounded cfg code s)
    (hr : ev.env.code = code ∧ Shallow cfg ev s) :
    Ensures (· = .outOfBounds) (step cfg ev s) (Bounded cfg code) := by
  obtain ⟨rfl, hr⟩ := hr
  cases ev with
  | sample ev =>
    constructor
    · intro s' hs
      cases onSample_step hs with
      | ignored => exact h
      | taken hm ha hn hd => exact ((entering_openSample h hr hm).decoder_ensures).ok s' hd
    · intro e he
      rcases onSample_fault he with rfl | ⟨method, hm, hd⟩
      · decide
      · exact decoder_not_outOfBounds hd
  | trap ev =>
    constructor
    · intro s' hs
      rcases onWatchPoint_step hs with ⟨-, rfl⟩ | ⟨ha, ht⟩
      · exact h
      · exact ht.bounded (h.counted ev) ha hr
    · intro e he
      obtain ⟨ha, hf⟩ := onWatchPoint_fault he
      exact hf.ne_outOfBounds (h.counted ev) ha hr

/-- Along every run over a fixed code image in which each sample finds the slot free and
each call a free row, no access leaves the arrays. -/
theorem accesses_in_bounds (cfg : Config) (code : Addr → Option Inst) (events : List Event)
    (hcode : ∀ ev ∈ events, ev.env.code = code)
    (hr : Meets (step cfg) (Shallow cfg) events Thread.init) :
    Ensures (· = .outOfBounds) (run (step cfg) events Thread.init)
      (fun s => s.cpuEventStack.top < maxStack) :=
  (run_ensures step_bounded bounded_init (hr.and_of_mem hcode)).mono fun _ h => h.top_lt

theorem accesses_in_bounds_callLeaf :
    (run (step (oneEventConfig 8)) callLeafRun Thread.init).isOk = true ∧
      Ensures (· = .outOfBounds) (run (step (oneEventConfig 8)) callLeafRun Thread.init)
        (fun s => s.cpuEventStack.top < maxStack) := by
  refine ⟨rfl, accesses_in_bounds _ (callLeafEnv 0).code _ ?_ (by decide)⟩
  simp [callLeafRun, sampleAt, trapAt, Event.env, callLeafEnv, imageEnv]

def faultOf {α : Type} : Except Fault α → Option Fault
  | .ok _ => none
  | .error e => some e

theorem faultOf_eq_some {α : Type} {x : Except Fault α} : faultOf x = some e ↔ x = .error e := by
  cases x <;> simp [faultOf]

def callSelfEnv : Env :=
  imageEnv [(0x1000, ⟨.callNear, 5, .relbr (-5)⟩)] [⟨1, 1, ['m'], 0x1000, 0x1fff⟩]
    (stoppedAt 0x1000 0x7000 0x1005)

def callSelfRun : List Event :=
  .sample (sampleAt callSelfEnv 0) :: List.replicate 64 (.trap (trapAt callSelfEnv 0))

/-- With a threshold above 64 the 64th nested call stores in row 64. -/
theorem callSelf_outOfBounds :
    ¬Ensures (· = .outOfBounds)
      (run (step (oneEventConfig 100)) callSelfRun Thread.init)
      (fun s => s.cpuEventStack.top < maxStack) :=
  fun h => h.error .outOfBounds (faultOf_eq_some.mp (by decide +kernel)) rfl

end Trace4J.Profiler
