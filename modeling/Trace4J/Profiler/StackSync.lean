import Trace4J.Profiler.Steps

/-!
# The stacks of a thread stay in step

`CPUEventStack`, `CPUEventCntStack`, `WP_Stack` and `retCtxtStack` are pushed and
popped in different places. `Synced` ties all four to the list of instances that
the log leaves open; how many entries each holds then depends only on the kind of
watchpoint that is armed. One kind breaks it: a `CALL` whose decoding brought
`decodeInsCounter` up to `decodeThreshold` is handled as a return when it traps.
-/

namespace Trace4J.Profiler
open Library

/-- The instances a log leaves open, innermost first, each with the return
watchpoint that was pushed for it. A sample abandons all that was open before. -/
def openInstances : List LogEntry → List SampleData
  | [] => []
  | .enter depth sd :: log => if depth = 0 then [sd] else sd :: openInstances log
  | .record _ :: log => (openInstances log).tail

def InstAt (code : Addr → Option Inst) (a : Addr) (g : IGroup) : Prop :=
  ∃ xedd, code a = some xedd ∧ xedd.iclass.group = g

instance (code : Addr → Option Inst) (a : Addr) (g : IGroup) : Decidable (InstAt code a g) :=
  decidable_of_iff ((code a).map (·.iclass.group) = some g) (by simp [InstAt])

/-- A trap on `fired` is a return of the instance that was opened with `sd`: its own
return watchpoint, or the execution of a `RET` watched with its frame. -/
def IsReturnOf (code : Addr → Option Inst) (fired sd : SampleData) : Prop :=
  fired = sd ∧ sd.watchType = .rw ∨
    fired.watchType = .exec ∧ InstAt code fired.va .ret ∧
      fired.calleeCtxtFrame = sd.calleeCtxtFrame

def RecordsReturns (code : Addr → Option Inst) : List LogEntry → Prop
  | [] => True
  | .enter _ _ :: log => RecordsReturns code log
  | .record inst :: log => RecordsReturns code log ∧
      ∃ sd rest, openInstances log = sd :: rest ∧ inst.depth = rest.length ∧
        IsReturnOf code inst.sd sd

inductive WatchKind
  | runtimeReturn | innerReturn | branch | call | overReturn | outermostReturn
deriving DecidableEq, Repr

def IGroup.watchKind : IGroup → Option WatchKind
  | .ret => some .innerReturn
  | .cond | .jump => some .branch
  | .call => some .call
  | .default => none

def watchKind (cfg : Config) (code : Addr → Option Inst) (s : Thread) : Option WatchKind :=
  if s.watchPoint.sd.calleeCtxtFrame.binaryAddr = -3 then some .runtimeReturn
  else if s.watchPoint.sd.watchType = .exec then
    (code s.watchPoint.sd.va).bind fun xedd => xedd.iclass.group.watchKind
  else if cfg.decodeThreshold ≤ s.decodeInsCounter then some .overReturn
  else some .outermostReturn

def WatchKind.isReturn : WatchKind → Bool
  | .innerReturn | .overReturn | .outermostReturn => true
  | .runtimeReturn | .branch | .call => false

/-- The stacks are in step. Once every opened instance is recorded they are all empty. -/
structure StacksInStep (cfg : Config) (code : Addr → Option Inst) (s : Thread) : Prop where
  tops : s.cpuEventCntStack.top = s.cpuEventStack.top
  armed : s.watchPoint.isActive = true → ∃ k, watchKind cfg code s = some k ∧
    (k ≠ .outermostReturn → (s.retCtxtStack.length : ℤ) = s.cpuEventStack.top + 1) ∧
    (s.wpStack.length : ℤ) = if k.isReturn then s.cpuEventStack.top else s.cpuEventStack.top + 1
  closed : openInstances s.log = [] →
    s.cpuEventStack.top = -1 ∧ s.wpStack = [] ∧ s.retCtxtStack = []
  returns : RecordsReturns code s.log

def StackFault : Fault → Prop
  | .retCtxtStackEmpty | .topNotZero | .popEmpty => True
  | _ => False

structure IsReturnWatch (sd : SampleData) : Prop where
  valid : validateWPData sd = true
  rw : sd.watchType = .rw
  frame : sd.calleeCtxtFrame.binaryAddr ≠ -3

/-- No method is compiled at the marker of a runtime call. -/
theorem isReturnWatch_of_method {env : Env} {ip va methodId : UInt64} {version : UInt32}
    {method : MethodInfo} (hm : env.getMethod ip = some method) :
    IsReturnWatch (returnWatch va (leafFrame ip methodId version)) := by
  refine ⟨rfl, rfl, ?_⟩
  rintro (rfl : ip = -3)
  rw [env.getMethod_runtime] at hm
  cases hm

def Armed (cfg : Config) (code : Addr → Option Inst) (s : Thread) : WatchKind → Prop
  | .runtimeReturn => IsRuntime s ∧ s.wpStack = openInstances s.log ∧
      s.retCtxtStack.length = (openInstances s.log).length
  | .branch => ¬IsRuntime s ∧ s.watchPoint.sd.watchType = .exec ∧
      (InstAt code s.watchPoint.sd.va .cond ∨ InstAt code s.watchPoint.sd.va .jump) ∧
      s.decodeInsCounter < cfg.decodeThreshold ∧
      s.wpStack = openInstances s.log ∧ s.retCtxtStack.length = (openInstances s.log).length
  | .call => ¬IsRuntime s ∧ s.watchPoint.sd.watchType = .exec ∧
      InstAt code s.watchPoint.sd.va .call ∧
      s.wpStack = openInstances s.log ∧ s.retCtxtStack.length = (openInstances s.log).length
  | .innerReturn => ¬IsRuntime s ∧ s.watchPoint.sd.watchType = .exec ∧
      InstAt code s.watchPoint.sd.va .ret ∧ s.decodeInsCounter < cfg.decodeThreshold ∧
      (∃ sd, openInstances s.log = sd :: s.wpStack ∧
        s.watchPoint.sd.calleeCtxtFrame = sd.calleeCtxtFrame) ∧
      s.wpStack ≠ [] ∧ s.retCtxtStack.length = (openInstances s.log).length
  | .overReturn => ¬IsRuntime s ∧ s.watchPoint.sd.watchType = .rw ∧
      cfg.decodeThreshold ≤ s.decodeInsCounter ∧
      openInstances s.log = s.watchPoint.sd :: s.wpStack ∧
      s.retCtxtStack.length = (openInstances s.log).length
  | .outermostReturn => ¬IsRuntime s ∧ s.watchPoint.sd.watchType = .rw ∧
      s.decodeInsCounter < cfg.decodeThreshold ∧
      openInstances s.log = [s.watchPoint.sd] ∧ s.wpStack = [] ∧ s.retCtxtStack = []

structure Synced (cfg : Config) (code : Addr → Option Inst) (s : Thread) : Prop where
  blocks : BlocksOk code s.basicBlockMap
  tops : s.cpuEventCntStack.top = s.cpuEventStack.top
  returns : RecordsReturns code s.log
  watches : ∀ sd ∈ openInstances s.log, IsReturnWatch sd
  closed : openInstances s.log = [] →
    s.cpuEventStack.top = -1 ∧ s.wpStack = [] ∧ s.retCtxtStack = []
  armed : s.watchPoint.isActive = true →
    openInstances s.log ≠ [] ∧ ((openInstances s.log).length : ℤ) = s.cpuEventStack.top + 1 ∧
      ∃ k, Armed cfg code s k

structure Aligned (code : Addr → Option Inst) (s : Thread) : Prop where
  blocks : BlocksOk code s.basicBlockMap
  tops : s.cpuEventCntStack.top = s.cpuEventStack.top
  returns : RecordsReturns code s.log
  watches : ∀ sd ∈ openInstances s.log, IsReturnWatch sd
  opened : openInstances s.log ≠ []
  depth : ((openInstances s.log).length : ℤ) = s.cpuEventStack.top + 1
  wpStack : s.wpStack = openInstances s.log
  retCtxtStack : s.retCtxtStack.length = (openInstances s.log).length
  free : s.watchPoint.isActive = false

variable {cfg : Config} {code : Addr → Option Inst} {env : Env} {s s' t : Thread} {e : Fault}
variable {ip : Addr} {k : WatchKind}

theorem synced_init : Synced cfg code Thread.init where
  blocks := blocksOk_empty
  tops := rfl
  returns := trivial
  watches := by simp [openInstances, Thread.init]
  closed _ := ⟨rfl, rfl, rfl⟩
  armed h := by cases h

theorem watchKind_of_exec {g : IGroup} (hrt : ¬IsRuntime s)
    (hx : s.watchPoint.sd.watchType = .exec) (hc : InstAt code s.watchPoint.sd.va g) :
    watchKind cfg code s = g.watchKind := by
  obtain ⟨xedd, hc, rfl⟩ := hc
  rw [watchKind, if_neg (show ¬_ = _ from hrt), if_pos hx, hc]
  rfl

theorem watchKind_of_branch {xedd : Inst} (hrt : ¬IsRuntime s)
    (hx : s.watchPoint.sd.watchType = .exec) (hc : code s.watchPoint.sd.va = some xedd)
    (hg : xedd.iclass.group = .cond ∨ xedd.iclass.group = .jump) :
    watchKind cfg code s = some .branch := by
  rcases hg with hg | hg
  · exact watchKind_of_exec hrt hx ⟨xedd, hc, hg⟩
  · exact watchKind_of_exec hrt hx ⟨xedd, hc, hg⟩

theorem watchKind_of_outermost (hrt : ¬IsRuntime s)
    (hthr : s.decodeInsCounter < cfg.decodeThreshold) (hx : s.watchPoint.sd.watchType ≠ .exec) :
    watchKind cfg code s = some .outermostReturn := by
  rw [watchKind, if_neg (show ¬_ = _ from hrt), if_neg hx, if_neg (by omega)]

theorem watchKind_of_armed (h : Armed cfg code s k) : watchKind cfg code s = some k := by
  cases k with
  | runtimeReturn => exact if_pos h.1
  | innerReturn => exact watchKind_of_exec h.1 h.2.1 h.2.2.1
  | branch =>
    obtain ⟨hrt, hx, hc | hc, -⟩ := h
    · exact watchKind_of_exec hrt hx hc
    · exact watchKind_of_exec hrt hx hc
  | call => exact watchKind_of_exec h.1 h.2.1 h.2.2.1
  | overReturn =>
    obtain ⟨hrt, hw, hthr, -⟩ := h
    rw [watchKind, if_neg (show ¬_ = _ from hrt), if_neg (by simp [hw]), if_pos hthr]
  | outermostReturn =>
    obtain ⟨hrt, hw, hthr, -⟩ := h
    exact watchKind_of_outermost hrt hthr (by simp [hw])

theorem Synced.stacksInStep (h : Synced cfg code s) : StacksInStep cfg code s where
  tops := h.tops
  closed := h.closed
  returns := h.returns
  armed ha := by
    obtain ⟨-, hdepth, k, hk⟩ := h.armed ha
    refine ⟨k, watchKind_of_armed hk, ?_⟩
    cases k with
    | runtimeReturn =>
      obtain ⟨-, hwp, hret⟩ := hk
      simp [WatchKind.isReturn, hwp, hret, hdepth]
    | branch =>
      obtain ⟨-, -, -, -, hwp, hret⟩ := hk
      simp [WatchKind.isReturn, hwp, hret, hdepth]
    | call =>
      obtain ⟨-, -, -, hwp, hret⟩ := hk
      simp [WatchKind.isReturn, hwp, hret, hdepth]
    | innerReturn =>
      obtain ⟨-, -, -, -, ⟨sd, ho, -⟩, -, hret⟩ := hk
      simp only [ho, List.length_cons, Nat.cast_add, Nat.cast_one] at hdepth hret
      simp only [WatchKind.isReturn, hret]
      constructor
      · intro
        push_cast
        omega
      · simp only [↓reduceIte]
        omega
    | overReturn =>
      obtain ⟨-, -, -, ho, hret⟩ := hk
      simp only [ho, List.length_cons, Nat.cast_add, Nat.cast_one] at hdepth hret
      simp only [WatchKind.isReturn, hret]
      constructor
      · intro
        push_cast
        omega
      · simp only [↓reduceIte]
        omega
    | outermostReturn =>
      obtain ⟨-, -, -, ho, hwp, -⟩ := hk
      simp only [ho, List.length_cons, List.length_nil, zero_add, Nat.cast_one] at hdepth
      simp only [WatchKind.isReturn, hwp, ↓reduceIte, List.length_nil, Nat.cast_zero]
      exact ⟨fun hne => absurd rfl hne, by omega⟩

theorem wpSubscribe_exec {wpi : WPRegisterInfo} {va : Addr} {frame : ContextFrame}
    (hi : wpi.isActive = false) :
    (wpSubscribe wpi (execWatch va frame)).1 = ⟨execWatch va frame, true⟩ := by
  rw [wpSubscribe_of_inactive hi rfl]

theorem ne_runtime_of_code {code : Addr → Option Inst} {ip : Addr} (hrt : code (-3) = none)
    (h : (code ip).isSome) : ip ≠ -3 := by
  rintro rfl
  simp [hrt] at h

theorem DecoderStep.synced (hrt : code (-3) = none) (h : Aligned code s)
    (hd : DecoderStep cfg code ip s s') : Synced cfg code s' := by
  have keep {o : List SampleData} (ho : openInstances s.log = o) (P : Prop) : o = [] → P :=
    fun hn => absurd (ho.trans hn) h.opened
  cases hd with
  | @overThreshold map sd wpRest hthr hm hw =>
    have ho : openInstances s.log = sd :: wpRest := h.wpStack ▸ hw
    have hsd : IsReturnWatch sd := h.watches sd (by simp [ho])
    rw [wpSubscribe_of_inactive h.free hsd.valid]
    refine ⟨hm, h.tops, h.returns, h.watches, keep rfl _, fun _ => ⟨h.opened, h.depth, ?_⟩⟩
    exact ⟨.overReturn, hsd.frame, hsd.rw, hthr, ho, h.retCtxtStack⟩
  | @outermost map sd ctxt retRest hthr hm hw hr =>
    have ho : openInstances s.log = [sd] := h.wpStack ▸ hw
    have hsd : IsReturnWatch sd := h.watches sd (by simp [ho])
    have hret : retRest = [] := by simpa [hr, ho] using h.retCtxtStack
    rw [wpSubscribe_of_inactive h.free hsd.valid]
    refine ⟨hm, h.tops, h.returns, h.watches, keep rfl _, fun _ => ⟨h.opened, h.depth, ?_⟩⟩
    exact ⟨.outermostReturn, hsd.frame, hsd.rw, hthr, ho, rfl, hret⟩
  | @inner map sd wpRest xedd tempIp hthr hm hw hne hc hg =>
    have ho : openInstances s.log = sd :: wpRest := h.wpStack ▸ hw
    have hsd : IsReturnWatch sd := h.watches sd (by simp [ho])
    rw [wpSubscribe_exec h.free]
    refine ⟨hm, h.tops, h.returns, h.watches, keep rfl _, fun _ => ⟨h.opened, h.depth, ?_⟩⟩
    exact ⟨.innerReturn, hsd.frame, rfl, ⟨xedd, hc, hg⟩, hthr, ⟨sd, ho, rfl⟩, hne, h.retCtxtStack⟩
  | @call map xedd tempIp hthr hm he hc hg =>
    rw [wpSubscribe_exec h.free]
    refine ⟨hm, h.tops, h.returns, h.watches, keep rfl _, fun _ => ⟨h.opened, h.depth, ?_⟩⟩
    exact ⟨.call, ne_runtime_of_code hrt he, rfl, ⟨xedd, hc, hg⟩, h.wpStack, h.retCtxtStack⟩
  | @branch map xedd tempIp hthr hm he hc hg =>
    rw [wpSubscribe_exec h.free]
    refine ⟨hm, h.tops, h.returns, h.watches, keep rfl _, fun _ => ⟨h.opened, h.depth, ?_⟩⟩
    exact ⟨.branch, ne_runtime_of_code hrt he, rfl,
      hg.imp (fun hg => ⟨xedd, hc, hg⟩) fun hg => ⟨xedd, hc, hg⟩, hthr, h.wpStack, h.retCtxtStack⟩

theorem Aligned.decoder_ensures (hrt : code (-3) = none) (h : Aligned code s) :
    Ensures StackFault (decoder cfg code ip s) (Synced cfg code) where
  ok s' hs := (decoder_step h.blocks hs).synced hrt h
  error e he := by
    rcases decoder_fault he with rfl | rfl | ⟨rfl, hw | ⟨hw, hr⟩⟩
    · exact id
    · exact id
    · exact absurd (h.wpStack ▸ hw) h.opened
    · have := h.retCtxtStack
      rw [← h.wpStack, hw, hr] at this
      cases this

theorem Synced.kind (h : Synced cfg code s) (ha : s.watchPoint.isActive = true)
    (hk : watchKind cfg code s = some k) : Armed cfg code s k := by
  obtain ⟨-, -, k', hk'⟩ := h.armed ha
  have := (watchKind_of_armed hk').symm.trans hk
  cases this
  exact hk'

theorem Synced.kind_over (h : Synced cfg code s) (ha : s.watchPoint.isActive = true)
    (hrt : ¬IsRuntime s) (hthr : cfg.decodeThreshold ≤ s.decodeInsCounter)
    (hcall : watchKind cfg code s ≠ some .call) : Armed cfg code s .overReturn := by
  obtain ⟨-, -, k, hk⟩ := h.armed ha
  cases k with
  | runtimeReturn => exact absurd hk.1 hrt
  | innerReturn => exact absurd hk.2.2.2.1 (by omega)
  | branch => exact absurd hk.2.2.2.1 (by omega)
  | call => exact absurd (watchKind_of_armed hk) hcall
  | overReturn => exact hk
  | outermostReturn => exact absurd hk.2.2.1 (by omega)

theorem Synced.kind_outermost (h : Synced cfg code s) (ha : s.watchPoint.isActive = true)
    (hrt : ¬IsRuntime s) (hthr : s.decodeInsCounter < cfg.decodeThreshold)
    (hx : s.watchPoint.sd.watchType ≠ .exec) : Armed cfg code s .outermostReturn :=
  h.kind ha (watchKind_of_outermost hrt hthr hx)

theorem recordsReturns_record {inst : Instance} {log : List LogEntry} {sd : SampleData}
    {rest : List SampleData} (h : RecordsReturns code log) (ho : openInstances log = sd :: rest)
    (hd : inst.depth = rest.length) (hr : IsReturnOf code inst.sd sd) :
    RecordsReturns code (.record inst :: log) :=
  ⟨h, sd, rest, ho, hd, hr⟩

theorem Resumes.aligned (h : Synced cfg env.code s) (ha : s.watchPoint.isActive = true)
    (hr : Resumes cfg env s ip t) : Aligned env.code t := by
  obtain ⟨hopen, hdepth, -⟩ := h.armed ha
  cases hr with
  | runtimeReturn hrt =>
    obtain ⟨-, hwp, hret⟩ := h.kind ha (if_pos hrt : watchKind cfg env.code s = some .runtimeReturn)
    exact ⟨h.blocks, h.tops, h.returns, h.watches, hopen, hdepth, hwp, hret, rfl⟩
  | @innerReturn method pc xedd s₁ ctxt retRest hrt hthr hx hc hg hm hpc hrec hret hne =>
    have hi : InstAt env.code s.watchPoint.sd.va .ret := ⟨xedd, hc, hg⟩
    obtain ⟨-, -, -, -, ⟨sd, ho, hframe⟩, -, hlen⟩ := h.kind ha (watchKind_of_exec hrt hx hi)
    obtain ⟨hctl, inst, hlog, hd, hsd⟩ := hrec.control flushReturn_countsOnly
    have ho' : openInstances s₁.log = s.wpStack := by
      rw [hlog]
      exact congrArg List.tail ho
    have hlen' : (s.wpStack.length : ℤ) = s.cpuEventStack.top := by
      rw [ho, List.length_cons] at hdepth
      omega
    have hret' : s.retCtxtStack = ctxt :: retRest := hctl.retCtxtStack ▸ hret
    have hwp : s₁.wpStack = s.wpStack := hctl.wpStack
    refine ⟨hctl.basicBlockMap ▸ h.blocks, ?_, ?_, ?_, ?_, ?_, ?_, ?_, ?_⟩
    · exact hctl.cntTop.trans ((congrArg (· - 1) h.tops).trans hctl.top.symm)
    · exact hlog ▸ recordsReturns_record h.returns ho (hd.trans hlen'.symm)
        (.inr ⟨hsd ▸ hx, hsd ▸ hi, hsd ▸ hframe⟩)
    · intro sd' hmem
      exact h.watches sd' (by rw [ho]; exact .tail _ (ho' ▸ hmem))
    · exact fun hn => hne (hwp.trans (ho'.symm.trans hn))
    · rw [ho', hlen', hctl.top]
      exact (sub_add_cancel _ _).symm
    · exact hwp.trans ho'.symm
    · rw [ho, hret', List.length_cons, List.length_cons] at hlen
      rw [ho']
      exact Nat.succ.inj hlen
    · exact congrArg WPRegisterInfo.isActive hctl.watchPoint
  | @branch xedd _ hrt hthr hx hc hg =>
    obtain ⟨-, -, -, -, hwp, hret⟩ := h.kind ha (watchKind_of_branch hrt hx hc hg)
    exact ⟨h.blocks, h.tops, h.returns, h.watches, hopen, hdepth, hwp, hret, rfl⟩
  | @call xedd calleeIP method s₁ hrt hthr hx hc hg _ hm ho =>
    obtain ⟨-, -, -, hwp, hret⟩ := h.kind ha (watchKind_of_exec hrt hx ⟨xedd, hc, hg⟩)
    obtain ⟨-, rfl⟩ := openCall_ok ho
    have hpos := List.length_pos_of_ne_nil hopen
    have htop : s.cpuEventStack.top + 1 ≠ 0 := by omega
    have ho' : openInstances (openedCall cfg env ip method (takeTrap s)).log =
        returnWatch (env.uCtxt.sp - 8) (leafFrame ip method.methodId method.version) ::
          openInstances s.log := if_neg htop
    refine ⟨h.blocks, congrArg (· + 1) h.tops, h.returns, ?_, ?_, ?_, ?_, ?_, rfl⟩
    · rw [ho']
      intro sd hmem
      rcases List.mem_cons.mp hmem with rfl | hmem
      · exact isReturnWatch_of_method hm
      · exact h.watches sd hmem
    · rw [ho']
      exact List.cons_ne_nil _ _
    · rw [ho', List.length_cons]
      push_cast
      exact congrArg (· + 1) hdepth
    · rw [ho', ← hwp]
      rfl
    · rw [ho', List.length_cons, ← hret]
      rfl

theorem Synced.of_free (h : Synced cfg code s) (ho : openInstances s.log ≠ [])
    (hb : t.basicBlockMap = s.basicBlockMap)
    (ht : t.cpuEventCntStack.top = t.cpuEventStack.top) (hl : t.log = s.log)
    (hf : t.watchPoint.isActive = false) : Synced cfg code t where
  blocks := hb ▸ h.blocks
  tops := ht
  returns := hl ▸ h.returns
  watches := hl ▸ h.watches
  closed hn := absurd (hl ▸ hn) ho
  armed ha := by
    rw [hf] at ha
    cases ha

theorem armNext_nil (hw : s.wpStack = []) : armNext s = s := by
  unfold armNext
  rw [hw]

theorem armNext_cons {sd : SampleData} {rest : List SampleData} (hw : s.wpStack = sd :: rest)
    (hf : s.watchPoint.isActive = false) (hv : validateWPData sd = true) :
    armNext s = { s with watchPoint := ⟨sd, true⟩, wpStack := rest } := by
  unfold armNext
  rw [hw]
  simp only [wpSubscribe_of_inactive hf hv, ↓reduceIte]

theorem synced_over {method : MethodInfo} {pc prevIP : Addr} {s₁ : Thread} {ctxt : ℕ}
    {retRest : List ℕ} (h : Synced cfg env.code s) (ha : s.watchPoint.isActive = true)
    (hk : Armed cfg env.code s .overReturn)
    (hrec : Records cfg env s.cpuEventStack.top pc method.methodId method.version s.watchPoint.sd
      flushReturn { decTops (armNext (takeTrap s)) with prevIP := prevIP } s₁)
    (hret : s₁.retCtxtStack = ctxt :: retRest) :
    Synced cfg env.code { s₁ with retCtxtStack := retRest } := by
  obtain ⟨hopen, hdepth, -⟩ := h.armed ha
  obtain ⟨hrt, hw, hthr, ho, hlen⟩ := hk
  obtain ⟨wpi, wps, harm⟩ := armNext_eq (s := takeTrap s)
  rw [harm] at hrec
  obtain ⟨hctl, inst, hlog, hd, hsd⟩ := hrec.control flushReturn_countsOnly
  have htop : s₁.cpuEventStack.top = s.cpuEventStack.top - 1 := hctl.top
  have hret' : s.retCtxtStack = ctxt :: retRest := hctl.retCtxtStack ▸ hret
  have ho' : openInstances s₁.log = s.wpStack := by
    rw [hlog]
    exact congrArg List.tail ho
  have hlen' : (s.wpStack.length : ℤ) = s.cpuEventStack.top := by
    rw [ho, List.length_cons] at hdepth
    omega
  have hretlen : retRest.length = s.wpStack.length := by
    rw [ho, hret', List.length_cons, List.length_cons] at hlen
    exact Nat.succ.inj hlen
  refine ⟨hctl.basicBlockMap ▸ h.blocks, ?_, ?_, ?_, ?_, ?_⟩
  · exact hctl.cntTop.trans ((congrArg (· - 1) h.tops).trans hctl.top.symm)
  · exact hlog ▸ recordsReturns_record h.returns ho (hd.trans hlen'.symm) (.inl ⟨hsd, hw⟩)
  · intro sd hmem
    exact h.watches sd (by rw [ho]; exact .tail _ (ho' ▸ hmem))
  · intro hn
    have hnil : s.wpStack = [] := ho'.symm.trans hn
    have harm' := harm.symm.trans (armNext_nil (s := takeTrap s) hnil)
    have hwps : wps = s.wpStack := congrArg Thread.wpStack harm'
    rw [hnil] at hlen' hretlen hwps
    exact ⟨by rw [htop, ← hlen']; rfl, hctl.wpStack.trans hwps, List.length_eq_zero_iff.mp hretlen⟩
  · intro hactive
    have hactive : s₁.watchPoint.isActive = true := hactive
    rw [hctl.watchPoint] at hactive
    cases hw' : s.wpStack with
    | nil =>
      have harm' := harm.symm.trans (armNext_nil (s := takeTrap s) hw')
      have hwpi : wpi = (takeTrap s).watchPoint := congrArg Thread.watchPoint harm'
      rw [hwpi] at hactive
      cases hactive
    | cons sd rest =>
      have hsd' : IsReturnWatch sd := h.watches sd (by simp [ho, hw'])
      have harm' := harm.symm.trans (armNext_cons (s := takeTrap s) hw' rfl hsd'.valid)
      have hwpi : s₁.watchPoint = ⟨sd, true⟩ :=
        hctl.watchPoint.trans (congrArg Thread.watchPoint harm')
      have hwps : s₁.wpStack = rest := hctl.wpStack.trans (congrArg Thread.wpStack harm')
      refine ⟨by simp [ho', hw'], ?_, .overReturn, ?_, ?_, ?_, ?_, ?_⟩
      · dsimp only
        rw [ho', hlen', htop]
        omega
      · rw [IsRuntime, hwpi]
        exact hsd'.frame
      · rw [hwpi]
        exact hsd'.rw
      · exact hctl.decodeInsCounter ▸ hthr
      · rw [hwpi, hwps]
        exact ho'.trans hw'
      · exact hretlen.trans (congrArg List.length ho').symm

theorem TrapStep.synced {ev : TrapInput} (h : Synced cfg ev.env.code s)
    (ha : s.watchPoint.isActive = true)
    (hcall : cfg.decodeThreshold ≤ s.decodeInsCounter → watchKind cfg ev.env.code s ≠ some .call)
    (ht : TrapStep cfg ev s s') : Synced cfg ev.env.code s' := by
  obtain ⟨hopen, hdepth, -⟩ := h.armed ha
  cases ht with
  | dropped _ => exact h.of_free hopen rfl h.tops rfl rfl
  | reset _ => exact h.of_free hopen rfl rfl rfl rfl
  | unmapped _ _ => exact h.of_free hopen rfl (congrArg (· - 1) h.tops) rfl rfl
  | undecoded hrt hthr hx hc => exact h.of_free hopen rfl h.tops rfl rfl
  | resume _ hr hd => exact ((hr.aligned h ha).decoder_ensures ev.env.code_runtime).ok s' hd
  | @runtimeCall xedd _ _ hrt hthr hx hc hg _ _ hs =>
    obtain ⟨-, -, -, hwp, hret⟩ := h.kind ha (watchKind_of_exec hrt hx ⟨xedd, hc, hg⟩)
    rw [onRuntimeCall_ok hs, subscribe, wpSubscribe_exec rfl]
    refine ⟨h.blocks, h.tops, h.returns, h.watches, fun hn => absurd hn hopen, fun _ => ?_⟩
    exact ⟨hopen, hdepth, .runtimeReturn, rfl, hwp, hret⟩
  | @lastReturn method pc xedd s₁ ctxt retRest _ hrt hthr hx hc hg hm hpc hrec hret hw =>
    obtain ⟨-, -, -, -, -, hne, -⟩ := h.kind ha (watchKind_of_exec hrt hx ⟨xedd, hc, hg⟩)
    exact absurd ((hrec.control flushReturn_countsOnly).1.wpStack ▸ hw) hne
  | overInsane hrt hthr hne =>
    obtain ⟨wpi, wps, harm⟩ := armNext_eq (s := takeTrap s)
    rw [harm]
    exact h.of_free hopen rfl (congrArg (· - 1) h.tops) rfl rfl
  | overThreshold _ hrt hthr hne hm hpc₀ hpc hrec hret =>
    exact synced_over h ha (h.kind_over ha hrt hthr (hcall hthr)) hrec hret
  | outermostInsane hrt hthr hx _ _ _ =>
    exact h.of_free hopen rfl (congrArg (· - 1) h.tops) rfl rfl
  | @outermost method pc₀ pc prevIP s₁ hrt hthr hx hm hpc₀ hpc hrec =>
    obtain ⟨-, hw, -, ho, hwp, hret⟩ := h.kind_outermost ha hrt hthr hx
    obtain ⟨hctl, inst, hlog, hd, hsd⟩ := hrec.control flushOutermost_countsOnly
    have htop : s.cpuEventStack.top = 0 := by
      simp only [ho, List.length_cons, List.length_nil, zero_add, Nat.cast_one] at hdepth
      omega
    have ho' : openInstances s₁.log = [] := by
      rw [hlog]
      exact congrArg List.tail ho
    refine ⟨hctl.basicBlockMap ▸ h.blocks, ?_, ?_, ?_, fun _ => ⟨?_, ?_, ?_⟩, fun hn => by cases hn⟩
    · exact hctl.cntTop.trans ((congrArg (· - 1) h.tops).trans hctl.top.symm)
    · exact hlog ▸ recordsReturns_record h.returns ho (hd.trans htop) (.inl ⟨hsd, hw⟩)
    · intro sd hmem
      rw [show openInstances (takeTrap s₁).log = [] from ho'] at hmem
      cases hmem
    · exact hctl.top.trans (congrArg (· - 1) htop)
    · exact hctl.wpStack.trans hwp
    · exact hctl.retCtxtStack.trans hret

theorem TrapFault.not_stackFault (h : Synced cfg env.code s) (ha : s.watchPoint.isActive = true)
    (hcall : cfg.decodeThreshold ≤ s.decodeInsCounter → watchKind cfg env.code s ≠ some .call)
    (hf : TrapFault cfg env s e) : ¬StackFault e := by
  obtain ⟨hopen, hdepth, -⟩ := h.armed ha
  have hpos := List.length_pos_of_ne_nil hopen
  cases hf with
  | assertion => exact id
  | callBounds => exact id
  | returnBounds => exact id
  | overBounds => exact id
  | outermostBounds => exact id
  | resume hr hd => exact ((hr.aligned h ha).decoder_ensures env.code_runtime).error e hd
  | retCtxtStackEmpty hrt hthr hret =>
    obtain ⟨-, -, -, -, hlen⟩ := h.kind_over ha hrt hthr (hcall hthr)
    rw [hret] at hlen
    exact absurd hlen.symm hpos.ne'
  | @innerPop xedd hrt hx hc hg hret =>
    obtain ⟨-, -, -, -, -, -, hlen⟩ := h.kind ha (watchKind_of_exec hrt hx ⟨xedd, hc, hg⟩)
    rw [hret] at hlen
    exact absurd hlen.symm hpos.ne'
  | topNotZero hrt hthr hx htop =>
    obtain ⟨-, -, -, ho, -⟩ := h.kind_outermost ha hrt hthr hx
    simp only [ho, List.length_cons, List.length_nil, zero_add, Nat.cast_one] at hdepth
    exact absurd (by omega) htop

/-- A sample arrives with no watchpoint armed, and no trap is the execution of a `CALL`
once the threshold is reached. -/
def Regular (cfg : Config) (code : Addr → Option Inst) : Event → Thread → Prop
  | .sample _, s => s.watchPoint.isActive = false
  | .trap _, s => ¬(s.watchPoint.isActive = true ∧ cfg.decodeThreshold ≤ s.decodeInsCounter ∧
      watchKind cfg code s = some .call)

instance : ∀ ev s, Decidable (Regular cfg code ev s)
  | .sample _, s => inferInstanceAs (Decidable (s.watchPoint.isActive = false))
  | .trap _, s => inferInstanceAs (Decidable (¬(s.watchPoint.isActive = true ∧
      cfg.decodeThreshold ≤ s.decodeInsCounter ∧ watchKind cfg code s = some .call)))

theorem aligned_openSample {ev : SampleInput} {method : MethodInfo}
    (h : Synced cfg ev.env.code s) (hf : s.watchPoint.isActive = false)
    (hm : ev.env.getMethod ev.ip = some method) :
    Aligned ev.env.code (openSample cfg ev method s) := by
  have ho : openInstances (openSample cfg ev method s).log =
      [returnWatch ev.env.uCtxt.sp (leafFrame ev.ip method.methodId method.version)] := rfl
  refine ⟨h.blocks, ?_, h.returns, ?_, ?_, rfl, rfl, rfl, hf⟩
  · dsimp only [openSample]
    split_ifs with ht
    · rfl
    · rw [h.tops]
      omega
  · rw [ho]
    simp only [List.mem_singleton, forall_eq]
    exact isReturnWatch_of_method hm
  · rw [ho]
    exact List.cons_ne_nil _ _

theorem onSample_ensures {ev : SampleInput} (h : Synced cfg ev.env.code s)
    (hf : s.watchPoint.isActive = false) :
    Ensures StackFault (onSample cfg ev s) (Synced cfg ev.env.code) where
  ok s' hs := by
    cases onSample_step hs with
    | ignored => exact h
    | taken hm ha hn hd =>
      exact ((aligned_openSample h hf hm).decoder_ensures ev.env.code_runtime).ok s' hd
  error e he := by
    rcases onSample_fault he with rfl | ⟨method, hm, hd⟩
    · exact id
    · exact ((aligned_openSample h hf hm).decoder_ensures ev.env.code_runtime).error e hd

theorem Synced.counted (h : Synced cfg code s) (ev : TrapInput) :
    Synced cfg code (counted cfg ev s) :=
  ⟨h.blocks, h.tops, h.returns, h.watches, h.closed, h.armed⟩

theorem onWatchPoint_ensures {ev : TrapInput} (h : Synced cfg ev.env.code s)
    (hr : Regular cfg ev.env.code (.trap ev) s) :
    Ensures StackFault (onWatchPoint cfg ev s) (Synced cfg ev.env.code) where
  ok s' hs := by
    rcases onWatchPoint_step hs with ⟨-, rfl⟩ | ⟨ha, ht⟩
    · exact h
    · exact ht.synced (h.counted ev) ha fun hthr hk => hr ⟨ha, hthr, hk⟩
  error e he := by
    obtain ⟨ha, hf⟩ := onWatchPoint_fault he
    exact hf.not_stackFault (h.counted ev) ha fun hthr hk => hr ⟨ha, hthr, hk⟩

theorem step_ensures (ev : Event) (s : Thread) (h : Synced cfg code s)
    (hr : ev.env.code = code ∧ Regular cfg code ev s) :
    Ensures StackFault (step cfg ev s) (Synced cfg code) := by
  obtain ⟨rfl, hr⟩ := hr
  cases ev with
  | sample ev => exact onSample_ensures h hr
  | trap ev => exact onWatchPoint_ensures h hr

/-- Along every regular run over a fixed code image the stacks stay in step, every
recorded instance is recorded by its return, and no stack fault is raised. -/
theorem stacks_in_step (cfg : Config) (code : Addr → Option Inst) (events : List Event)
    (hcode : ∀ ev ∈ events, ev.env.code = code)
    (hr : Meets (step cfg) (Regular cfg code) events Thread.init) :
    Ensures StackFault (run (step cfg) events Thread.init) (StacksInStep cfg code) :=
  (run_ensures step_ensures synced_init (hr.and_of_mem hcode)).mono fun _ h => h.stacksInStep

/-! ## A small program -/

def imageEnv (image : List (Addr × Inst)) (methods : List MethodInfo) (uCtxt : UContext) : Env where
  uCtxt := uCtxt
  code a := if a = -3 then none else (image.find? fun p => p.1 = a).map (·.2)
  xedAgen _ _ := 0
  getMethod a := if a = -3 then none else
    methods.find? fun m => decide (m.startAddr ≤ a) && decide (a ≤ m.endAddr)
  trace := ⟨0, fun _ => ⟨0, 0⟩⟩
  code_runtime := rfl
  getMethod_runtime := rfl

def stoppedAt (pc sp ret : Addr) : UContext :=
  { pc := pc, sp := sp, fl := 0, reg := fun _ => 0, load := fun _ => ret }

def callLeaf : List (Addr × Inst) :=
  [(0x1000, ⟨.callNear, 5, .relbr 0xffb⟩), (0x1005, ⟨.retNear, 1, .other⟩),
    (0x2000, ⟨.retNear, 1, .other⟩)]

def callLeafMethods : List MethodInfo :=
  [⟨1, 1, ['m'], 0x1000, 0x1fff⟩, ⟨2, 1, ['l'], 0x2000, 0x2fff⟩]

def oneEventConfig (decodeThreshold : ℕ) : Config where
  decodeThreshold := decodeThreshold
  selectedMethod := []
  curEventId := 2
  watermark := (setupWatermarks ['T'] [['c'], ['i']] {}).getD {}
  cv _ _ := 0
  fuel := 8

def sampleAt (env : Env) (reading : UInt64) : SampleInput := ⟨env, env.uCtxt.pc, fun _ => reading⟩

def trapAt (env : Env) (reading : UInt64) : TrapInput :=
  ⟨env, fun _ => reading, fun _ => reading, false, some (env.uCtxt.pc, true)⟩

def callLeafEnv (pc : Addr) : Env := imageEnv callLeaf callLeafMethods (stoppedAt pc 0x7000 0x1005)

def callLeafRun : List Event :=
  [.sample (sampleAt (callLeafEnv 0x1000) 0), .trap (trapAt (callLeafEnv 0x1000) 10),
    .trap (trapAt (callLeafEnv 0x2000) 30), .trap (trapAt (callLeafEnv 0x1005) 40)]

def callMid : List (Addr × Inst) :=
  [(0x1000, ⟨.callNear, 5, .relbr 0xffb⟩), (0x1005, ⟨.retNear, 1, .other⟩),
    (0x2000, ⟨.callNear, 5, .relbr 0xffb⟩), (0x2005, ⟨.retNear, 1, .other⟩),
    (0x3000, ⟨.retNear, 1, .other⟩)]

def callMidEnv (pc ret : Addr) : Env :=
  imageEnv callMid (⟨3, 1, ['n'], 0x3000, 0x3fff⟩ :: callLeafMethods) (stoppedAt pc 0x7000 ret)

theorem stacks_in_step_callLeaf :
    (run (step (oneEventConfig 8)) callLeafRun Thread.init).isOk = true ∧
      Ensures StackFault (run (step (oneEventConfig 8)) callLeafRun Thread.init)
        (StacksInStep (oneEventConfig 8) (callLeafEnv 0).code) := by
  refine ⟨rfl, stacks_in_step _ _ _ ?_ (by decide)⟩
  simp [callLeafRun, sampleAt, trapAt, Event.env, callLeafEnv, imageEnv]

/-- With a threshold of 1 the `CALL` itself is recorded as the return of `main`, and
the return finds `retCtxtStack` empty. -/
theorem late_call_stack_fault :
    ¬Ensures StackFault
      (run (step (oneEventConfig 1)) [.sample (sampleAt (callLeafEnv 0x1000) 0),
        .trap (trapAt (callLeafEnv 0x1000) 10), .trap (trapAt (callLeafEnv 0x1005) 20)] Thread.init)
      (StacksInStep (oneEventConfig 1) (callLeafEnv 0).code) :=
  fun h => h.error .retCtxtStackEmpty rfl trivial

end Trace4J.Profiler
