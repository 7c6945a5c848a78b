import Trace4J.Profiler.Decoder

/-!
# What one event can do to a thread

`TrapStep` lists every way in which a trap on the armed watchpoint is handled,
guards included, and `SampleStep` the two outcomes of a sample. The invariants of
the later modules are case analyses over these two relations.
-/

namespace Trace4J.Profiler
open Library

variable {cfg : Config} {env : Env} {ev : TrapInput} {n : ℕ} {top : ℤ} {s s' : Thread} {e : Fault}

theorem overEvents_apply {i : ℕ} {new old : Row} (hi : 1 ≤ i ∧ i < n) :
    overEvents n new old i = new i :=
  if_pos hi

theorem checkIndex_ok {u : Unit} (h : checkIndex n top = .ok u) :
    1 < n → 0 ≤ top ∧ top < maxStack := by
  intro hn
  by_contra hd
  rw [checkIndex, if_pos ⟨hn, hd⟩] at h
  cases h

theorem checkIndex_fault (h : checkIndex n top = .error e) :
    e = .outOfBounds ∧ ¬(0 ≤ top ∧ top < maxStack) := by
  unfold checkIndex at h
  split_ifs at h with hc
  cases h
  exact ⟨rfl, hc.2⟩

theorem returnCounts_value {i : ℕ} (hi : 1 ≤ i ∧ i < n) :
    (returnCounts n top s).value top i = s.cpuEventCntStack.value top i + s.eventRDCnt i := by
  have hne : top ≠ top - 1 := by omega
  simp only [returnCounts]
  split_ifs <;>
  simp [EventValueStack.store, Function.update_of_ne hne, overEvents_apply hi]

theorem flushReturn_ok (h : flushReturn n top s = .ok s') :
    (1 < n → 0 ≤ top ∧ top < maxStack) ∧
    s' = { s with
      cpuEventCntStack := returnCounts n top s
      cpuEventStack := if top = 0 then s.cpuEventStack.store n top
        (s.cpuEventStack.value top + (returnCounts n top s).value top) else s.cpuEventStack
      eventRDCnt := overEvents n 0 s.eventRDCnt } := by
  obtain ⟨u, hu, h⟩ := bind_eq_ok.mp h
  obtain ⟨v, -, h⟩ := bind_eq_ok.mp h
  cases h
  exact ⟨checkIndex_ok hu, rfl⟩

theorem flushReturn_fault (h : flushReturn n top s = .error e) :
    e = .outOfBounds ∧ ¬(0 ≤ top ∧ top < maxStack) := by
  rcases bind_eq_error.mp h with h | ⟨u, -, h⟩
  · exact checkIndex_fault h
  · rcases bind_eq_error.mp h with h | ⟨v, -, h⟩
    · unfold checkCaller at h
      split_ifs at h with htop
      obtain ⟨he, hd⟩ := checkIndex_fault h
      exact ⟨he, fun hr => hd (by omega)⟩
    · cases h

theorem flushOutermost_ok (h : flushOutermost n top s = .ok s') :
    (1 < n → top = 0) ∧
    s' = { s with
      cpuEventCntStack :=
        s.cpuEventCntStack.store n top (s.cpuEventCntStack.value top + s.eventRDCnt)
      cpuEventStack := s.cpuEventStack.store n top (s.cpuEventStack.value top +
        (s.cpuEventCntStack.store n top
          (s.cpuEventCntStack.value top + s.eventRDCnt)).value top) } := by
  obtain ⟨u, -, h⟩ := bind_eq_ok.mp h
  obtain ⟨hc, h⟩ := ok_of_ite_error h
  cases h
  exact ⟨fun hn => by_contra fun ht => hc ⟨hn, ht⟩, rfl⟩

theorem flushOutermost_fault (h : flushOutermost n top s = .error e) :
    e = .outOfBounds ∧ ¬(0 ≤ top ∧ top < maxStack) ∨ e = .topNotZero ∧ top ≠ 0 := by
  rcases bind_eq_error.mp h with h | ⟨u, -, h⟩
  · exact .inl (checkIndex_fault h)
  · split_ifs at h with hc
    · cases h
      exact .inr ⟨rfl, hc.2⟩

theorem orAssert_eq_ok {α : Type} {o : Option α} {a : α} : orAssert o = .ok a ↔ o = some a := by
  cases o <;> simp [orAssert]

section Record
variable {pc methodId : UInt64} {methodVersion : UInt32} {sd : SampleData}
  {flush : ℕ → ℤ → Thread → Except Fault Thread}

def recordedInstance (env : Env) (top : ℤ) (pc methodId : UInt64) (methodVersion : UInt32)
    (sd : SampleData) (s s₁ : Thread) : Instance where
  depth := top
  start := s.cpuEventStack.value top
  stop := s.cpuEventStack.value top + s₁.cpuEventCntStack.value top
  newValue := s₁.cpuEventCntStack.value top
  ctxt := (constructContext s.contextTree env.trace pc methodId methodVersion
    s.watchPoint.sd.calleeCtxtFrame).2
  sd := sd
  frame := s.watchPoint.sd.calleeCtxtFrame

def Instance.update (cfg : Config) (tree : ContextTree) (inst : Instance) : Option ContextMetrics :=
  recordMetrics cfg.watermark cfg.cv (tree.contextMap inst.ctxt).metrics inst.start inst.stop
    inst.newValue

def Records (cfg : Config) (env : Env) (top : ℤ) (pc methodId : UInt64) (methodVersion : UInt32)
    (sd : SampleData) (flush : ℕ → ℤ → Thread → Except Fault Thread) (s s' : Thread) : Prop :=
  ∃ s₁ m, flush cfg.curEventId top s = .ok s₁ ∧
    (recordedInstance env top pc methodId methodVersion sd s s₁).update cfg
      (constructContext s.contextTree env.trace pc methodId methodVersion
        s.watchPoint.sd.calleeCtxtFrame).1 = some m ∧
    s' = { s₁ with
      contextTree := (constructContext s.contextTree env.trace pc methodId methodVersion
        s.watchPoint.sd.calleeCtxtFrame).1.setMetrics
          (recordedInstance env top pc methodId methodVersion sd s s₁).ctxt m
      log := .record (recordedInstance env top pc methodId methodVersion sd s s₁) :: s₁.log }

theorem recordInstance_ok
    (h : recordInstance cfg env top pc methodId methodVersion sd flush s = .ok s') :
    cfg.curEventId = cfg.watermark.curWatermarkId ∧
      Records cfg env top pc methodId methodVersion sd flush s s' := by
  obtain ⟨hn, h⟩ := ok_of_ite_error h
  have hn := not_not.mp hn
  obtain ⟨s₁, hf, h⟩ := bind_eq_ok.mp h
  obtain ⟨m, hm, h⟩ := bind_eq_ok.mp h
  cases h
  exact ⟨hn, s₁, m, hn ▸ hf, orAssert_eq_ok.mp hm, rfl⟩

theorem recordInstance_fault
    (h : recordInstance cfg env top pc methodId methodVersion sd flush s = .error e) :
    e = .assertion ∨ flush cfg.watermark.curWatermarkId top s = .error e := by
  dsimp only [recordInstance] at h
  split_ifs at h with hn
  · cases h
    exact .inl rfl
  · rcases bind_eq_error.mp h with h | ⟨s₁, -, h⟩
    · exact .inr h
    · rcases bind_eq_error.mp h with h | ⟨m, -, h⟩
      · left
        unfold orAssert at h
        split at h
        · cases h
          rfl
        · cases h
      · cases h

end Record

/-- The part of a thread that drives the tracing, apart from what has been counted. -/
structure SameControl (s s' : Thread) : Prop where
  top : s'.cpuEventStack.top = s.cpuEventStack.top
  cntTop : s'.cpuEventCntStack.top = s.cpuEventCntStack.top
  wpStack : s'.wpStack = s.wpStack
  retCtxtStack : s'.retCtxtStack = s.retCtxtStack
  decodeInsCounter : s'.decodeInsCounter = s.decodeInsCounter
  basicBlockMap : s'.basicBlockMap = s.basicBlockMap
  watchPoint : s'.watchPoint = s.watchPoint
  eventTempCnt : s'.eventTempCnt = s.eventTempCnt

def CountsOnly (flush : ℕ → ℤ → Thread → Except Fault Thread) : Prop :=
  ∀ n top s s', flush n top s = .ok s' → SameControl s s' ∧ s'.log = s.log

theorem returnCounts_top : (returnCounts n top s).top = s.cpuEventCntStack.top := by
  unfold returnCounts
  dsimp only
  split_ifs <;> rfl

theorem flushReturn_countsOnly : CountsOnly flushReturn := by
  intro n top s s' h
  rw [(flushReturn_ok h).2]
  refine ⟨⟨?_, returnCounts_top, rfl, rfl, rfl, rfl, rfl, rfl⟩, rfl⟩
  dsimp only
  split_ifs <;> rfl

theorem flushOutermost_countsOnly : CountsOnly flushOutermost := by
  intro n top s s' h
  rw [(flushOutermost_ok h).2]
  exact ⟨⟨rfl, rfl, rfl, rfl, rfl, rfl, rfl, rfl⟩, rfl⟩

theorem Records.control {pc methodId : UInt64} {methodVersion : UInt32} {sd : SampleData}
    {flush : ℕ → ℤ → Thread → Except Fault Thread} (hflush : CountsOnly flush)
    (h : Records cfg env top pc methodId methodVersion sd flush s s') :
    SameControl s s' ∧
      ∃ inst, s'.log = .record inst :: s.log ∧ inst.depth = top ∧ inst.sd = sd := by
  obtain ⟨s₁, m, hf, -, rfl⟩ := h
  obtain ⟨hc, hlog⟩ := hflush _ _ _ _ hf
  exact ⟨⟨hc.1, hc.2, hc.3, hc.4, hc.5, hc.6, hc.7, hc.8⟩, _, by rw [← hlog], rfl, rfl⟩

def IsRuntime (s : Thread) : Prop := s.watchPoint.sd.calleeCtxtFrame.binaryAddr = -3

instance : Decidable (IsRuntime s) := inferInstanceAs (Decidable (_ = _))

/-- The calls of `decoder` from the handler of a trap on the armed watchpoint of `s`:
the address and the thread it is called with. -/
inductive Resumes (cfg : Config) (env : Env) (s : Thread) : Addr → Thread → Prop
  | runtimeReturn : IsRuntime s →
      Resumes cfg env s s.watchPoint.sd.va
        (closeRuntimeCall cfg.watermark.curWatermarkId (takeTrap s))
  | innerReturn {method : MethodInfo} {pc : Addr} {xedd : Inst} {s₁ : Thread} {ctxt : ℕ}
      {retRest : List ℕ} :
      ¬IsRuntime s → s.decodeInsCounter < cfg.decodeThreshold →
      s.watchPoint.sd.watchType = .exec →
      env.code s.watchPoint.sd.va = some xedd → xedd.iclass.group = .ret →
      env.getMethod pc = some method → pc ≠ 0 →
      Records cfg env s.cpuEventStack.top pc method.methodId method.version s.watchPoint.sd
        flushReturn { decTops (takeTrap s) with prevIP := pc } s₁ →
      s₁.retCtxtStack = ctxt :: retRest → s₁.wpStack ≠ [] →
      Resumes cfg env s (env.uCtxt.load env.uCtxt.sp) { s₁ with retCtxtStack := retRest }
  | branch {xedd : Inst} {ip : Addr} :
      ¬IsRuntime s → s.decodeInsCounter < cfg.decodeThreshold →
      s.watchPoint.sd.watchType = .exec →
      env.code s.watchPoint.sd.va = some xedd →
      xedd.iclass.group = .cond ∨ xedd.iclass.group = .jump →
      resumeIp env.xedAgen s.watchPoint.sd.va xedd env.uCtxt = some ip →
      Resumes cfg env s ip (takeTrap s)
  | call {xedd : Inst} {calleeIP : Addr} {method : MethodInfo} {s₁ : Thread} :
      ¬IsRuntime s → s.decodeInsCounter < cfg.decodeThreshold →
      s.watchPoint.sd.watchType = .exec →
      env.code s.watchPoint.sd.va = some xedd → xedd.iclass.group = .call →
      getBranchTarget env.xedAgen s.watchPoint.sd.va xedd env.uCtxt = some calleeIP →
      env.getMethod calleeIP = some method →
      openCall cfg env calleeIP method (takeTrap s) = .ok s₁ →
      Resumes cfg env s calleeIP s₁

def TrapInput.pc (ev : TrapInput) : Option Addr :=
  if ev.insideAgent then none
  else ev.collected.map fun p => if p.1 = 0 then ev.env.uCtxt.pc else p.1

def TrapInput.pcPrecise (ev : TrapInput) : Bool := (ev.collected.map (·.2)).getD false

def TrapInput.Mapped (ev : TrapInput) : Prop :=
  ∃ pc method, ev.pc = some pc ∧ ev.env.getMethod pc = some method

instance : Decidable ev.Mapped :=
  decidable_of_iff ((ev.pc.bind ev.env.getMethod).isSome = true) (by
    simp [TrapInput.Mapped, Option.isSome_iff_exists, Option.bind_eq_some_iff]
    tauto)

inductive TrapStep (cfg : Config) (ev : TrapInput) (s : Thread) : Thread → Prop
  | dropped : ev.pc = none → TrapStep cfg ev s (takeTrap s)
  | reset : ev.pc = some 0 → TrapStep cfg ev s (resetTops (takeTrap s))
  | unmapped {pc : Addr} : ev.pc = some pc → ev.env.getMethod pc = none →
      TrapStep cfg ev s (decTops (takeTrap s))
  | undecoded : ¬IsRuntime s → s.decodeInsCounter < cfg.decodeThreshold →
      s.watchPoint.sd.watchType = .exec →
      (∀ xedd, ev.env.code s.watchPoint.sd.va = some xedd → xedd.iclass.group = .default) →
      TrapStep cfg ev s (takeTrap s)
  | resume {ip : Addr} {t s' : Thread} : ev.Mapped → Resumes cfg ev.env s ip t →
      decoder cfg ev.env.code ip t = .ok s' → TrapStep cfg ev s s'
  | runtimeCall {xedd : Inst} {calleeIP : Addr} {s' : Thread} :
      ¬IsRuntime s → s.decodeInsCounter < cfg.decodeThreshold →
      s.watchPoint.sd.watchType = .exec →
      ev.env.code s.watchPoint.sd.va = some xedd → xedd.iclass.group = .call →
      getBranchTarget ev.env.xedAgen s.watchPoint.sd.va xedd ev.env.uCtxt = some calleeIP →
      ev.env.getMethod calleeIP = none →
      onRuntimeCall cfg (s.watchPoint.sd.va + UInt64.ofNat xedd.length) (takeTrap s) = .ok s' →
      TrapStep cfg ev s s'
  | lastReturn {method : MethodInfo} {pc : Addr} {xedd : Inst} {s₁ : Thread} {ctxt : ℕ}
      {retRest : List ℕ} :
      ev.Mapped → ¬IsRuntime s → s.decodeInsCounter < cfg.decodeThreshold →
      s.watchPoint.sd.watchType = .exec →
      ev.env.code s.watchPoint.sd.va = some xedd → xedd.iclass.group = .ret →
      ev.env.getMethod pc = some method → pc ≠ 0 →
      Records cfg ev.env s.cpuEventStack.top pc method.methodId method.version s.watchPoint.sd
        flushReturn { decTops (takeTrap s) with prevIP := pc } s₁ →
      s₁.retCtxtStack = ctxt :: retRest → s₁.wpStack = [] →
      TrapStep cfg ev s { s₁ with retCtxtStack := retRest }
  | overInsane : ¬IsRuntime s → cfg.decodeThreshold ≤ s.decodeInsCounter → s.retCtxtStack ≠ [] →
      TrapStep cfg ev s (takeTrap (decTops (armNext (takeTrap s))))
  | overThreshold {method : MethodInfo} {pc₀ pc prevIP : Addr} {s₁ : Thread} {ctxt : ℕ}
      {retRest : List ℕ} :
      ev.Mapped → ¬IsRuntime s → cfg.decodeThreshold ≤ s.decodeInsCounter → s.retCtxtStack ≠ [] →
      ev.env.getMethod pc₀ = some method → pc₀ ≠ 0 → pc ≠ 0 →
      Records cfg ev.env s.cpuEventStack.top pc method.methodId method.version s.watchPoint.sd
        flushReturn { decTops (armNext (takeTrap s)) with prevIP := prevIP } s₁ →
      s₁.retCtxtStack = ctxt :: retRest →
      TrapStep cfg ev s { s₁ with retCtxtStack := retRest }
  | outermostInsane {pc : Addr} {method : MethodInfo} :
      ¬IsRuntime s → s.decodeInsCounter < cfg.decodeThreshold →
      s.watchPoint.sd.watchType ≠ .exec → ev.pc = some pc → ev.env.getMethod pc = some method →
      patchPC ev.env method ⟨s.watchPoint.sd, pc, ev.pcPrecise⟩ (decTops (takeTrap s)) = none →
      TrapStep cfg ev s (decTops (takeTrap s))
  | outermost {method : MethodInfo} {pc₀ pc prevIP : Addr} {s₁ : Thread} :
      ¬IsRuntime s → s.decodeInsCounter < cfg.decodeThreshold →
      s.watchPoint.sd.watchType ≠ .exec →
      ev.env.getMethod pc₀ = some method → pc₀ ≠ 0 → pc ≠ 0 →
      Records cfg ev.env s.cpuEventStack.top pc method.methodId method.version s.watchPoint.sd
        flushOutermost { decTops (takeTrap s) with prevIP := prevIP } s₁ →
      TrapStep cfg ev s (takeTrap s₁)

inductive TrapFault (cfg : Config) (env : Env) (s : Thread) : Fault → Prop
  | assertion : TrapFault cfg env s .assertion
  | callBounds {xedd : Inst} {calleeIP : Addr} {method : MethodInfo} :
      ¬IsRuntime s → s.decodeInsCounter < cfg.decodeThreshold →
      s.watchPoint.sd.watchType = .exec →
      env.code s.watchPoint.sd.va = some xedd → xedd.iclass.group = .call →
      getBranchTarget env.xedAgen s.watchPoint.sd.va xedd env.uCtxt = some calleeIP →
      env.getMethod calleeIP = some method →
      ¬(0 ≤ s.cpuEventStack.top ∧ s.cpuEventStack.top + 1 < maxStack) →
      TrapFault cfg env s .outOfBounds
  | returnBounds {xedd : Inst} : ¬IsRuntime s → s.decodeInsCounter < cfg.decodeThreshold →
      s.watchPoint.sd.watchType = .exec →
      env.code s.watchPoint.sd.va = some xedd → xedd.iclass.group = .ret →
      ¬(0 ≤ s.cpuEventStack.top ∧ s.cpuEventStack.top < maxStack) →
      TrapFault cfg env s .outOfBounds
  | overBounds : ¬IsRuntime s → cfg.decodeThreshold ≤ s.decodeInsCounter → s.retCtxtStack ≠ [] →
      ¬(0 ≤ s.cpuEventStack.top ∧ s.cpuEventStack.top < maxStack) →
      TrapFault cfg env s .outOfBounds
  | outermostBounds : ¬IsRuntime s → s.decodeInsCounter < cfg.decodeThreshold →
      s.watchPoint.sd.watchType ≠ .exec →
      ¬(0 ≤ s.cpuEventStack.top ∧ s.cpuEventStack.top < maxStack) →
      TrapFault cfg env s .outOfBounds
  | resume {ip : Addr} {t : Thread} {e : Fault} : Resumes cfg env s ip t →
      decoder cfg env.code ip t = .error e → TrapFault cfg env s e
  | retCtxtStackEmpty : ¬IsRuntime s → cfg.decodeThreshold ≤ s.decodeInsCounter →
      s.retCtxtStack = [] → TrapFault cfg env s .retCtxtStackEmpty
  | innerPop {xedd : Inst} : ¬IsRuntime s → s.watchPoint.sd.watchType = .exec →
      env.code s.watchPoint.sd.va = some xedd → xedd.iclass.group = .ret →
      s.retCtxtStack = [] → TrapFault cfg env s .popEmpty
  | topNotZero : ¬IsRuntime s → s.decodeInsCounter < cfg.decodeThreshold →
      s.watchPoint.sd.watchType ≠ .exec → s.cpuEventStack.top ≠ 0 →
      TrapFault cfg env s .topNotZero

theorem armNext_eq : ∃ wpi wps, armNext s = { s with watchPoint := wpi, wpStack := wps } := by
  unfold armNext
  split
  · next hw => exact ⟨s.watchPoint, [], by rw [← hw]⟩
  · next sd rest hw => exact ⟨_, _, rfl⟩

@[simp]
theorem armNext_retCtxtStack : (armNext s).retCtxtStack = s.retCtxtStack := by
  obtain ⟨wpi, wps, h⟩ := armNext_eq (s := s)
  rw [h]

theorem patchPC_ne_zero {method : MethodInfo} {wpt : TriggerInfo} {pc prevIP : Addr}
    (hpc : wpt.pc ≠ 0) (h : patchPC env method wpt s = some (pc, prevIP)) : pc ≠ 0 := by
  unfold patchPC at h
  by_cases hp : wpt.pcPrecise = true
  · rw [if_pos hp] at h
    cases h
    exact hpc
  · rw [if_neg hp] at h
    obtain ⟨hs, h⟩ := Option.ite_none_right_eq_some.mp h
    cases h
    intro h0
    simp [isPCSane, h0] at hs

theorem onBranchWatchPoint_step {wpt : TriggerInfo} {method : MethodInfo} (hmap : ev.Mapped)
    (hsd : wpt.sd = s.watchPoint.sd) (hrt : ¬IsRuntime s)
    (hthr : s.decodeInsCounter < cfg.decodeThreshold)
    (hexec : s.watchPoint.sd.watchType = .exec) (hpc : wpt.pc ≠ 0)
    (hm : ev.env.getMethod wpt.pc = some method)
    (h : onBranchWatchPoint cfg ev.env wpt (takeTrap s) = .ok s') : TrapStep cfg ev s s' := by
  unfold onBranchWatchPoint at h
  rw [hsd] at h
  split at h
  · next hc =>
    cases h
    exact .undecoded hrt hthr hexec fun xedd hx => by cases hc.symm.trans hx
  · next xedd hc =>
    split at h
    · next hg =>
      obtain ⟨s₁, hr, h⟩ := bind_eq_ok.mp h
      obtain ⟨⟨c, cs⟩, hp, h⟩ := bind_eq_ok.mp h
      rw [hm] at hr
      have hr := (recordInstance_ok hr).2
      have hp := popStack_eq_ok.mp hp
      dsimp only at h
      split_ifs at h with hw
      · cases h
        exact .lastReturn hmap hrt hthr hexec hc hg hm hpc hr hp (List.isEmpty_iff.mp hw)
      · exact .resume hmap (.innerReturn hrt hthr hexec hc hg hm hpc hr hp
          fun hn => hw (List.isEmpty_iff.mpr hn)) h
    · next hg =>
      obtain ⟨ip, hip, h⟩ := bind_eq_ok.mp h
      exact .resume hmap (.branch hrt hthr hexec hc (.inl hg) (orAssert_eq_ok.mp hip)) h
    · next hg =>
      obtain ⟨ip, hip, h⟩ := bind_eq_ok.mp h
      exact .resume hmap (.branch hrt hthr hexec hc (.inr hg) (orAssert_eq_ok.mp hip)) h
    · next hg =>
      obtain ⟨calleeIP, ht, h⟩ := bind_eq_ok.mp h
      have ht := orAssert_eq_ok.mp ht
      split at h
      · next hm' => exact .runtimeCall hrt hthr hexec hc hg ht hm' h
      · next m hm' =>
        obtain ⟨s₁, ho, h⟩ := bind_eq_ok.mp h
        exact .resume hmap (.call hrt hthr hexec hc hg ht hm' ho) h
    · next hg =>
      cases h
      refine .undecoded hrt hthr hexec fun x hx => ?_
      cases hc.symm.trans hx
      exact hg

theorem orAssert_fault {α : Type} {o : Option α} (h : orAssert o = .error e) :
    e = .assertion := by
  cases o <;> cases h
  rfl

def openedCall (cfg : Config) (env : Env) (calleeIP : Addr) (method : MethodInfo) (s : Thread) :
    Thread :=
  let n := cfg.curEventId
  let top := s.cpuEventStack.top
  let frame := leafFrame calleeIP method.methodId method.version
  let sd := returnWatch (env.uCtxt.sp - 8) frame
  let cnt := s.cpuEventCntStack.store n top (s.cpuEventCntStack.value top + s.eventRDCnt)
  let stack := s.cpuEventStack.store n (top + 1) (s.cpuEventStack.value top + cnt.value top)
  let ctxt := constructContext s.contextTree env.trace calleeIP method.methodId method.version frame
  { s with
    cpuEventStack := { stack with top := top + 1 }
    cpuEventCntStack := { cnt.store n (top + 1) 0 with top := s.cpuEventCntStack.top + 1 }
    eventRDCnt := overEvents n 0 s.eventRDCnt
    wpStack := sd :: s.wpStack
    retCtxtStack := ctxt.2 :: s.retCtxtStack
    contextTree := ctxt.1
    log := .enter (top + 1) sd :: s.log }

theorem openCall_ok {calleeIP : Addr} {method : MethodInfo}
    (h : openCall cfg env calleeIP method s = .ok s') :
    (1 < cfg.curEventId → 0 ≤ s.cpuEventStack.top ∧ s.cpuEventStack.top + 1 < maxStack) ∧
      s' = openedCall cfg env calleeIP method s := by
  obtain ⟨-, h⟩ := ok_of_ite_error h
  simp only [add_sub_cancel_right] at h
  obtain ⟨u, hu, h⟩ := bind_eq_ok.mp h
  obtain ⟨v, hv, h⟩ := bind_eq_ok.mp h
  cases h
  exact ⟨fun hn => ⟨(checkIndex_ok hu hn).1, (checkIndex_ok hv hn).2⟩, rfl⟩

theorem onRuntimeCall_ok {retToIp : Addr} (h : onRuntimeCall cfg retToIp s = .ok s') :
    s' = subscribe { s with
        runtimeCallCount := overEvents cfg.curEventId 0 s.runtimeCallCount
        eventRDCnt := overEvents cfg.curEventId 0 s.eventRDCnt }
      (execWatch retToIp runtimeFrame) := by
  obtain ⟨-, h⟩ := ok_of_ite_error h
  cases h
  rfl

theorem openCall_fault {calleeIP : Addr} {method : MethodInfo}
    (h : openCall cfg env calleeIP method s = .error e) :
    e = .assertion ∨
      e = .outOfBounds ∧ ¬(0 ≤ s.cpuEventStack.top ∧ s.cpuEventStack.top + 1 < maxStack) := by
  dsimp only [openCall] at h
  split_ifs at h with hn
  · cases h
    exact .inl rfl
  · right
    rcases bind_eq_error.mp h with h | ⟨u, -, h⟩
    · obtain ⟨he, hd⟩ := checkIndex_fault h
      exact ⟨he, fun hr => hd (by omega)⟩
    · rcases bind_eq_error.mp h with h | ⟨v, -, h⟩
      · obtain ⟨he, hd⟩ := checkIndex_fault h
        exact ⟨he, fun hr => hd (by omega)⟩
      · cases h

theorem recordInstance_flushReturn_fault {pc methodId : UInt64} {methodVersion : UInt32}
    {sd : SampleData}
    (h : recordInstance cfg env top pc methodId methodVersion sd flushReturn s = .error e) :
    e = .assertion ∨ e = .outOfBounds ∧ ¬(0 ≤ top ∧ top < maxStack) :=
  (recordInstance_fault h).imp_right flushReturn_fault

theorem onBranchWatchPoint_fault {wpt : TriggerInfo} {method : MethodInfo}
    (hsd : wpt.sd = s.watchPoint.sd) (hrt : ¬IsRuntime s)
    (hthr : s.decodeInsCounter < cfg.decodeThreshold)
    (hexec : s.watchPoint.sd.watchType = .exec) (hpc : wpt.pc ≠ 0)
    (hm : env.getMethod wpt.pc = some method)
    (h : onBranchWatchPoint cfg env wpt (takeTrap s) = .error e) : TrapFault cfg env s e := by
  unfold onBranchWatchPoint at h
  rw [hsd] at h
  split at h
  · cases h
  · next xedd hc =>
    split at h
    · next hg =>
      simp only [methodOf, hm] at h
      rcases bind_eq_error.mp h with h | ⟨s₁, hr, h⟩
      · rcases recordInstance_flushReturn_fault h with rfl | ⟨rfl, hd⟩
        · exact .assertion
        · exact .returnBounds hrt hthr hexec hc hg hd
      have hr := (recordInstance_ok hr).2
      rcases bind_eq_error.mp h with h | ⟨⟨c, cs⟩, hp, h⟩
      · obtain ⟨hret, rfl⟩ := popStack_eq_error.mp h
        exact .innerPop hrt hexec hc hg ((hr.control flushReturn_countsOnly).1.retCtxtStack ▸ hret)
      · dsimp only at h
        split_ifs at h with hw
        exact .resume (.innerReturn hrt hthr hexec hc hg hm hpc hr (popStack_eq_ok.mp hp)
          fun hn => hw (List.isEmpty_iff.mpr hn)) h
    · next hg =>
      rcases bind_eq_error.mp h with h | ⟨ip, hip, h⟩
      · exact orAssert_fault h ▸ .assertion
      · exact .resume (.branch hrt hthr hexec hc (.inl hg) (orAssert_eq_ok.mp hip)) h
    · next hg =>
      rcases bind_eq_error.mp h with h | ⟨ip, hip, h⟩
      · exact orAssert_fault h ▸ .assertion
      · exact .resume (.branch hrt hthr hexec hc (.inr hg) (orAssert_eq_ok.mp hip)) h
    · next hg =>
      rcases bind_eq_error.mp h with h | ⟨calleeIP, ht, h⟩
      · exact orAssert_fault h ▸ .assertion
      split at h
      · unfold onRuntimeCall at h
        split_ifs at h
        cases h
        exact .assertion
      · next m hm' =>
        rcases bind_eq_error.mp h with h | ⟨s₁, ho, h⟩
        · rcases openCall_fault h with rfl | ⟨rfl, hd⟩
          · exact .assertion
          · exact .callBounds hrt hthr hexec hc hg (orAssert_eq_ok.mp ht) hm' hd
        · exact .resume (.call hrt hthr hexec hc hg (orAssert_eq_ok.mp ht) hm' ho) h
    · cases h

theorem onOverThreshold_step {wpt : TriggerInfo} {method : MethodInfo} {action : TriggerAction}
    (hmap : ev.Mapped) (hsd : wpt.sd = s.watchPoint.sd) (hrt : ¬IsRuntime s)
    (hthr : cfg.decodeThreshold ≤ s.decodeInsCounter)
    (hpc : wpt.pc ≠ 0) (hm : ev.env.getMethod wpt.pc = some method)
    (h : onOverThreshold cfg ev.env method wpt (takeTrap s) = .ok (s', action)) :
    TrapStep cfg ev s (takeAction action s') := by
  obtain ⟨hret, h⟩ := ok_of_ite_error h
  have hret : s.retCtxtStack ≠ [] := fun hn => hret (List.isEmpty_iff.mpr hn)
  dsimp only at h
  split at h
  · cases h
    exact .overInsane hrt hthr hret
  · next pc prevIP hp =>
    obtain ⟨s₁, hr, h⟩ := bind_eq_ok.mp h
    obtain ⟨⟨c, cs⟩, hq, h⟩ := bind_eq_ok.mp h
    cases h
    rw [hsd] at hr
    exact .overThreshold hmap hrt hthr hret hm hpc (patchPC_ne_zero hpc hp) (recordInstance_ok hr).2
      (popStack_eq_ok.mp hq)

theorem onOverThreshold_fault {wpt : TriggerInfo} {method : MethodInfo} (hrt : ¬IsRuntime s)
    (hthr : cfg.decodeThreshold ≤ s.decodeInsCounter)
    (h : onOverThreshold cfg env method wpt (takeTrap s) = .error e) : TrapFault cfg env s e := by
  unfold onOverThreshold at h
  split_ifs at h with hret
  · cases h
    exact .retCtxtStackEmpty hrt hthr (List.isEmpty_iff.mp hret)
  dsimp only at h
  split at h
  · cases h
  · rcases bind_eq_error.mp h with h | ⟨s₁, hr, h⟩
    · rcases recordInstance_flushReturn_fault h with rfl | ⟨rfl, hd⟩
      · exact .assertion
      · exact .overBounds hrt hthr (fun hn => hret (List.isEmpty_iff.mpr hn)) hd
    rcases bind_eq_error.mp h with h | ⟨⟨c, cs⟩, -, h⟩
    · obtain ⟨hempty, rfl⟩ := popStack_eq_error.mp h
      rw [((recordInstance_ok hr).2.control flushReturn_countsOnly).1.retCtxtStack] at hempty
      exact absurd (List.isEmpty_iff.mpr hempty)
        (by simpa [armNext_retCtxtStack, decTops] using hret)
    · cases h

theorem onOutermostReturn_step {wpt : TriggerInfo} {method : MethodInfo} {action : TriggerAction}
    (hwpt : wpt = ⟨s.watchPoint.sd, wpt.pc, ev.pcPrecise⟩) (hev : ev.pc = some wpt.pc)
    (hrt : ¬IsRuntime s) (hthr : s.decodeInsCounter < cfg.decodeThreshold)
    (hexec : s.watchPoint.sd.watchType ≠ .exec) (hpc : wpt.pc ≠ 0)
    (hm : ev.env.getMethod wpt.pc = some method)
    (h : onOutermostReturn cfg ev.env method wpt (takeTrap s) = .ok (s', action)) :
    TrapStep cfg ev s (takeAction action s') := by
  dsimp only [onOutermostReturn] at h
  split at h
  · next hp =>
    cases h
    exact .outermostInsane hrt hthr hexec hev hm (hwpt ▸ hp)
  · next pc prevIP hp =>
    obtain ⟨s₁, hr, h⟩ := bind_eq_ok.mp h
    cases h
    have hsd : wpt.sd = s.watchPoint.sd := congrArg TriggerInfo.sd hwpt
    rw [hsd] at hr
    exact .outermost hrt hthr hexec hm hpc (patchPC_ne_zero hpc hp) (recordInstance_ok hr).2

theorem onOutermostReturn_fault {wpt : TriggerInfo} {method : MethodInfo} (hrt : ¬IsRuntime s)
    (hthr : s.decodeInsCounter < cfg.decodeThreshold)
    (hexec : s.watchPoint.sd.watchType ≠ .exec)
    (h : onOutermostReturn cfg env method wpt (takeTrap s) = .error e) : TrapFault cfg env s e := by
  dsimp only [onOutermostReturn] at h
  split at h
  · cases h
  · rcases bind_eq_error.mp h with h | ⟨s₁, -, h⟩
    · rcases recordInstance_fault h with rfl | h
      · exact .assertion
      · rcases flushOutermost_fault h with ⟨rfl, hd⟩ | ⟨rfl, htop⟩
        · exact .outermostBounds hrt hthr hexec hd
        · exact .topNotZero hrt hthr hexec htop
    · cases h

theorem dispatch_step (h : dispatch cfg ev.env ev.insideAgent ev.collected s = .ok s') :
    TrapStep cfg ev s s' := by
  unfold dispatch at h
  split at h
  · next hc =>
    cases h
    exact .dropped (by simp [TrapInput.pc, hc])
  · next pc pcPrecise hc =>
    obtain ⟨⟨t, action⟩, hr, h⟩ := bind_eq_ok.mp h
    cases h
    dsimp only [onRetWatchPoint] at hr
    by_cases hin : ev.insideAgent = true
    · rw [if_pos hin] at hr
      cases hr
      exact .dropped (if_pos hin)
    rw [if_neg hin] at hr
    have hev : ev.pc = some (if pc = 0 then ev.env.uCtxt.pc else pc) := by
      simp [TrapInput.pc, hc, hin]
    have hprecise : ev.pcPrecise = pcPrecise := by simp [TrapInput.pcPrecise, hc]
    generalize (if pc = 0 then ev.env.uCtxt.pc else pc) = pc' at hr hev
    by_cases hpc : pc' = 0
    · rw [if_pos hpc] at hr
      cases hr
      exact .reset (hpc ▸ hev)
    rw [if_neg hpc] at hr
    split at hr
    · next hm =>
      cases hr
      exact .unmapped hev hm
    · next method hm =>
      have hmap : ev.Mapped := ⟨pc', method, hev, hm⟩
      split_ifs at hr with hrt hthr hexec
      · obtain ⟨t', hd, hr⟩ := bind_eq_ok.mp hr
        cases hr
        exact .resume hmap (.runtimeReturn hrt) hd
      · exact onOverThreshold_step hmap rfl hrt hthr hpc hm hr
      · obtain ⟨t', hb, hr⟩ := bind_eq_ok.mp hr
        cases hr
        exact onBranchWatchPoint_step hmap rfl hrt (not_le.mp hthr) hexec hpc hm hb
      · exact onOutermostReturn_step (hprecise ▸ rfl) hev hrt (not_le.mp hthr) hexec hpc hm hr

theorem dispatch_fault {insideAgent : Bool} {collected : Option (Addr × Bool)}
    (h : dispatch cfg env insideAgent collected s = .error e) : TrapFault cfg env s e := by
  unfold dispatch at h
  split at h
  · cases h
  · next pc pcPrecise =>
    rcases bind_eq_error.mp h with hr | ⟨⟨t, action⟩, -, h⟩
    swap
    · cases h
    dsimp only [onRetWatchPoint] at hr
    by_cases hin : insideAgent = true
    · rw [if_pos hin] at hr
      cases hr
    rw [if_neg hin] at hr
    generalize hw : (if pc = 0 then env.uCtxt.pc else pc) = pc' at hr
    by_cases hpc : pc' = 0
    · rw [if_pos hpc] at hr
      cases hr
    rw [if_neg hpc] at hr
    split at hr
    · cases hr
    · next method hm =>
      split_ifs at hr with hrt hthr hexec
      · rcases bind_eq_error.mp hr with hd | ⟨t', -, hr⟩
        · exact .resume (.runtimeReturn hrt) hd
        · cases hr
      · exact onOverThreshold_fault hrt hthr hr
      · rcases bind_eq_error.mp hr with hb | ⟨t', -, hr⟩
        · exact onBranchWatchPoint_fault rfl hrt (not_le.mp hthr) hexec hpc hm hb
        · cases hr
      · exact onOutermostReturn_fault hrt (not_le.mp hthr) hexec hr

inductive SampleStep (cfg : Config) (ev : SampleInput) (s : Thread) : Thread → Prop
  | ignored : SampleStep cfg ev s s
  | taken {method : MethodInfo} {s' : Thread} : ev.env.getMethod ev.ip = some method →
      accepts cfg method = true → 1 ≤ cfg.curEventId →
      decoder cfg ev.env.code ev.ip (openSample cfg ev method s) = .ok s' → SampleStep cfg ev s s'

theorem onSample_step {ev : SampleInput} (h : onSample cfg ev s = .ok s') :
    SampleStep cfg ev s s' := by
  unfold onSample at h
  split at h
  · cases h
    exact .ignored
  · next method hm =>
    split_ifs at h with ha hn
    · cases h
      exact .ignored
    · exact .taken hm (by simpa using ha) (by omega) h

theorem onSample_fault {ev : SampleInput} (h : onSample cfg ev s = .error e) :
    e = .assertion ∨ ∃ method, ev.env.getMethod ev.ip = some method ∧
      decoder cfg ev.env.code ev.ip (openSample cfg ev method s) = .error e := by
  unfold onSample at h
  split at h
  · cases h
  · next method hm =>
    split_ifs at h with ha hn
    · cases h
      exact .inl rfl
    · exact .inr ⟨method, hm, h⟩

def counted (cfg : Config) (ev : TrapInput) (s : Thread) : Thread :=
  let acc := countEvents cfg.curEventId ev.readCounter ev.rebase (s.eventRDCnt, s.eventTempCnt)
  { s with eventRDCnt := acc.1, eventTempCnt := acc.2 }

theorem onWatchPoint_step (h : onWatchPoint cfg ev s = .ok s') :
    s.watchPoint.isActive = false ∧ s' = s ∨
      s.watchPoint.isActive = true ∧ TrapStep cfg ev (counted cfg ev s) s' := by
  unfold onWatchPoint at h
  cases ha : s.watchPoint.isActive with
  | false =>
    simp only [ha, Bool.not_false, ↓reduceIte, Except.ok.injEq] at h
    exact .inl ⟨rfl, h.symm⟩
  | true =>
    simp only [ha, Bool.not_true, Bool.false_eq_true, ↓reduceIte] at h
    exact .inr ⟨rfl, dispatch_step h⟩

theorem onWatchPoint_fault (h : onWatchPoint cfg ev s = .error e) :
    s.watchPoint.isActive = true ∧ TrapFault cfg ev.env (counted cfg ev s) e := by
  unfold onWatchPoint at h
  cases ha : s.watchPoint.isActive with
  | false => simp [ha] at h
  | true =>
    simp only [ha, Bool.not_true, Bool.false_eq_true, ↓reduceIte] at h
    exact ⟨rfl, dispatch_fault h⟩

end Trace4J.Profiler
