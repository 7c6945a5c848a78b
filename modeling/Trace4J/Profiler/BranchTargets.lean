import Trace4J.Profiler.BlockCache
import Mathlib.Data.Nat.Bitwise

/-!
# Where decoding resumes and where the processor goes on

`processorNext` is the address the processor executes after a near control transfer of
64-bit mode. `OnBranchWatchPoint` predicts it from the saved registers. The prediction
fails for `JECXZ`, which `decoder` takes for straight-line code, for a `LOOP` whose
counter is 0 or negative as a signed number, and for the operands `RDI`, read as `RBP`,
and `RSP`.
-/

namespace Trace4J.Profiler
open Library

def UContext.cf (uCtxt : UContext) : Bool := uCtxt.fl.toNat.testBit 0
def UContext.pf (uCtxt : UContext) : Bool := uCtxt.fl.toNat.testBit 2
def UContext.zf (uCtxt : UContext) : Bool := uCtxt.fl.toNat.testBit 6
def UContext.sf (uCtxt : UContext) : Bool := uCtxt.fl.toNat.testBit 7
def UContext.of (uCtxt : UContext) : Bool := uCtxt.fl.toNat.testBit 11

/-- The architectural condition of a branch; a `LOOP` decrements the counter first. -/
def conditionHolds (uCtxt : UContext) : IClass → Bool
  | .jb => uCtxt.cf
  | .jbe => uCtxt.cf || uCtxt.zf
  | .jl => uCtxt.sf != uCtxt.of
  | .jle => uCtxt.zf || uCtxt.sf != uCtxt.of
  | .jnb => !uCtxt.cf
  | .jnbe => !uCtxt.cf && !uCtxt.zf
  | .jnl => uCtxt.sf == uCtxt.of
  | .jnle => !uCtxt.zf && uCtxt.sf == uCtxt.of
  | .jno => !uCtxt.of
  | .jnp => !uCtxt.pf
  | .jns => !uCtxt.sf
  | .jnz => !uCtxt.zf
  | .jo => uCtxt.of
  | .jp => uCtxt.pf
  | .js => uCtxt.sf
  | .jz => uCtxt.zf
  | .jrcxz => uCtxt.reg .rcx == 0
  | .jecxz => (uCtxt.reg .rcx).toUInt32 == 0
  | .loop => uCtxt.reg .rcx - 1 != 0
  | .loope => uCtxt.reg .rcx - 1 != 0 && uCtxt.zf
  | .loopne => uCtxt.reg .rcx - 1 != 0 && !uCtxt.zf
  | _ => true

/-- The near control transfers of 64-bit mode with the operands they take. -/
def IsNearTransfer (xedd : Inst) : Prop :=
  match xedd.iclass with
  | .retNear => True
  | .jmp | .callNear => xedd.op0 ≠ .other
  | .retFar | .jmpFar | .callFar | .other => False
  | _ => ∃ disp, xedd.op0 = .relbr disp

def operandTarget (env : Env) (va : Addr) (xedd : Inst) : Addr :=
  match xedd.op0 with
  | .relbr disp => va + UInt64.ofNat xedd.length + disp
  | .register r => env.uCtxt.reg r
  | .mem0 => env.uCtxt.load (env.xedAgen xedd env.uCtxt)
  | .other => va + UInt64.ofNat xedd.length

def processorNext (env : Env) (va : Addr) (xedd : Inst) : Addr :=
  if xedd.iclass = .retNear then env.uCtxt.load env.uCtxt.sp
  else if conditionHolds env.uCtxt xedd.iclass then operandTarget env va xedd
  else va + UInt64.ofNat xedd.length

def resumeAddr (env : Env) (va : Addr) (xedd : Inst) : Option Addr :=
  match xedd.iclass.group with
  | .ret => some (env.uCtxt.load env.uCtxt.sp)
  | .cond | .jump => resumeIp env.xedAgen va xedd env.uCtxt
  | .call => getBranchTarget env.xedAgen va xedd env.uCtxt
  | .default => none

def resumeFrom (cfg : Config) (env : Env) (wpt : TriggerInfo) (xedd : Inst) (ip : Addr)
    (s : Thread) : Except Fault Thread :=
  match xedd.iclass.group with
  | .ret => do
    let (methodId, methodVersion) := methodOf env wpt.pc
    let s ← recordInstance cfg env s.cpuEventStack.top wpt.pc methodId methodVersion wpt.sd
      flushReturn { decTops s with prevIP := wpt.pc }
    let (_, retRest) ← popStack s.retCtxtStack
    let s := { s with retCtxtStack := retRest }
    if s.wpStack.isEmpty then .ok s else decoder cfg env.code ip s
  | .cond | .jump => decoder cfg env.code ip s
  | .call =>
    match env.getMethod ip with
    | none => onRuntimeCall cfg (wpt.sd.va + UInt64.ofNat xedd.length) s
    | some method => do
      let s ← openCall cfg env ip method s
      decoder cfg env.code ip s
  | .default => .ok s

def Stops (va : Addr) (xedd : Inst) : Prop :=
  ∀ (cfg : Config) (code : Addr → Option Inst) (counter fuel : ℕ) (sampleIP : Addr)
    (bbInfo : Option BasicBlock) (map : BasicBlockMap),
    counter < cfg.decodeThreshold → knownBlock bbInfo = none → code va = some xedd →
    ∃ map', decoderLoop cfg code counter sampleIP bbInfo (fuel + 1) va map =
        .ok (.stop xedd va, map') ∨
      ∃ disp, xedd.iclass = .jmp ∧ xedd.op0 = .relbr disp ∧
        decoderLoop cfg code counter sampleIP bbInfo (fuel + 1) va map =
          decoderLoop cfg code counter sampleIP bbInfo fuel
            (va + UInt64.ofNat xedd.length + disp) map'

/-- The instruction at `va` is not run over, and its trigger resumes decoding where the
processor goes on. -/
structure Follows (env : Env) (va : Addr) (xedd : Inst) : Prop where
  stops : Stops va xedd
  resumes : resumeAddr env va xedd = some (processorNext env va xedd)
  handler : ∀ cfg wpt s, wpt.sd.va = va → env.code va = some xedd →
    onBranchWatchPoint cfg env wpt s = resumeFrom cfg env wpt xedd (processorNext env va xedd) s

def CountsDown (uCtxt : UContext) : Prop :=
  uCtxt.reg .rcx ≠ 0 ∧ uCtxt.reg .rcx < 0x8000000000000000

def Predictable (uCtxt : UContext) (xedd : Inst) : Prop :=
  match xedd.iclass with
  | .jecxz => False
  | .loop => CountsDown uCtxt ∨ xedd.op0 = .relbr 0
  | .loope => uCtxt.zf = false ∨ CountsDown uCtxt ∨ xedd.op0 = .relbr 0
  | .loopne => uCtxt.zf = true ∨ CountsDown uCtxt ∨ xedd.op0 = .relbr 0
  | .jmp | .callNear => xedd.op0 ≠ .register .rsp ∧
      (xedd.op0 = .register .rdi → uCtxt.reg .rbp = uCtxt.reg .rdi)
  | _ => True

variable {cfg : Config} {env : Env} {uCtxt : UContext} {va : Addr} {xedd : Inst} {c : IClass}

/-! ## Flags and counters -/

theorem flagSet_toNat (fl mask : UInt64) :
    flagSet fl mask = (fl.toNat &&& mask.toNat != 0) := by
  rw [flagSet, Bool.eq_iff_iff]
  simp [← UInt64.toNat_inj]

theorem flagSet_bit {fl mask : UInt64} {k : ℕ} (h : mask.toNat = 2 ^ k) :
    flagSet fl mask = fl.toNat.testBit k := by
  rw [flagSet_toNat, h, Nat.and_two_pow]
  cases fl.toNat.testBit k <;> simp

theorem flagSet_cf : flagSet uCtxt.fl 0x0001 = uCtxt.cf := flagSet_bit (k := 0) rfl
theorem flagSet_pf : flagSet uCtxt.fl 0x0004 = uCtxt.pf := flagSet_bit (k := 2) rfl
theorem flagSet_zf : flagSet uCtxt.fl 0x0040 = uCtxt.zf := flagSet_bit (k := 6) rfl
theorem flagSet_sf : flagSet uCtxt.fl 0x0080 = uCtxt.sf := flagSet_bit (k := 7) rfl
theorem flagSet_of : flagSet uCtxt.fl 0x0800 = uCtxt.of := flagSet_bit (k := 11) rfl

theorem flagSet_cf_zf : flagSet uCtxt.fl 0x0041 = (uCtxt.cf || uCtxt.zf) := by
  have hmask : (0x0041 : UInt64).toNat = 2 ^ 0 ||| 2 ^ 6 := rfl
  rw [flagSet_toNat, hmask, Nat.and_or_distrib_left, Nat.and_two_pow, Nat.and_two_pow,
    UContext.cf, UContext.zf]
  cases uCtxt.fl.toNat.testBit 0 <;> cases uCtxt.fl.toNat.testBit 6 <;> decide

theorem countsDown_iff :
    decide (1 < (uCtxt.reg .rcx).toInt64) = (uCtxt.reg .rcx - 1 != 0) ↔ CountsDown uCtxt := by
  rw [CountsDown]
  generalize uCtxt.reg .rcx = rcx
  have hsigned : (1 < rcx.toInt64) ↔ 1 < rcx.toBitVec.toInt := by
    rw [Int64.lt_iff_toInt_lt]
    rfl
  have hnext : (rcx - 1 != 0) = decide (rcx.toNat ≠ 1) := by
    rw [Bool.eq_iff_iff]
    simp [← UInt64.toNat_inj, sub_eq_zero]
  have hlt : rcx < 0x8000000000000000 ↔ rcx.toNat < 2 ^ 63 := UInt64.lt_iff_toNat_lt
  have hne : rcx ≠ 0 ↔ rcx.toNat ≠ 0 := by simp [← UInt64.toNat_inj]
  have hbv : rcx.toBitVec.toNat = rcx.toNat := rfl
  have hbound := rcx.toNat_lt
  rw [hnext, hlt, hne]
  simp only [hsigned]
  rw [BitVec.toInt_eq_toNat_cond, hbv, decide_eq_decide]
  split_ifs <;> omega

theorem branchTaken_iff (hc : c.group = .cond) :
    branchTaken uCtxt.fl (uCtxt.reg .rcx) c = conditionHolds uCtxt c ↔
      match c with
      | .loop => CountsDown uCtxt
      | .loope => uCtxt.zf = false ∨ CountsDown uCtxt
      | .loopne => uCtxt.zf = true ∨ CountsDown uCtxt
      | _ => True := by
  cases c with
  | loop => exact countsDown_iff
  | loope =>
    simp only [branchTaken, conditionHolds, flagSet_zf, ← countsDown_iff]
    cases uCtxt.zf <;> simp
  | loopne =>
    simp only [branchTaken, conditionHolds, flagSet_zf, ← countsDown_iff]
    cases uCtxt.zf <;> simp
  | retNear | retFar | jmp | jmpFar | callNear | callFar | jecxz | other => cases hc
  | jl | jle | jnl | jnle =>
    simp only [branchTaken, conditionHolds, flagSet_zf, flagSet_sf, flagSet_of, iff_true]
    cases uCtxt.zf <;> cases uCtxt.sf <;> cases uCtxt.of <;> rfl
  | jnbe => simp [branchTaken, conditionHolds, flagSet_cf_zf]
  | _ =>
    simp only [branchTaken, conditionHolds, flagSet_cf, flagSet_pf, flagSet_zf, flagSet_sf,
      flagSet_of, flagSet_cf_zf]

/-! ## Stops and resumptions -/

theorem onBranchWatchPoint_resumes {wpt : TriggerInfo} {s : Thread}
    (hc : env.code wpt.sd.va = some xedd) (hg : xedd.iclass.group ≠ .default) :
    onBranchWatchPoint cfg env wpt s =
      orAssert (resumeAddr env wpt.sd.va xedd) >>= fun ip => resumeFrom cfg env wpt xedd ip s := by
  rw [onBranchWatchPoint, hc]
  dsimp only [resumeAddr, resumeFrom]
  cases h : xedd.iclass.group with
  | ret => rfl
  | cond => rfl
  | jump => rfl
  | call => rfl
  | default => exact absurd h hg

theorem stops_iff :
    Stops va xedd ↔ nextIp xedd va = none ∨
      ∃ disp, xedd.iclass = .jmp ∧ xedd.op0 = .relbr disp := by
  constructor
  · intro h
    by_contra hn
    rw [not_or] at hn
    obtain ⟨next, hnext⟩ := Option.ne_none_iff_exists'.mp hn.1
    -- with no fuel left behind it, a walk that runs over the instruction does not stop
    obtain ⟨map', hstop | ⟨disp, hj, hop, -⟩⟩ := h
      { decodeThreshold := 1, selectedMethod := [], curEventId := 0, watermark := {}
        cv := fun _ _ => 0, fuel := 0 }
      (fun _ => some xedd) 0 0 va none (fun _ => none) zero_lt_one rfl rfl
    · rw [decoderLoop_succ zero_lt_one (show fetchInst _ _ _ _ _ = .ok (xedd, va, _) from rfl),
        hnext] at hstop
      cases hstop
    · exact hn.2 ⟨disp, hj, hop⟩
  · intro h cfg code counter fuel sampleIP bbInfo map hthr hk hc
    refine ⟨if va = sampleIP then insertBlock map sampleIP ⟨xedd, noIP⟩ else map, ?_⟩
    have hf : fetchInst code sampleIP bbInfo va map = .ok (xedd, va,
        if va = sampleIP then insertBlock map sampleIP ⟨xedd, noIP⟩ else map) := by
      simp only [fetchInst, hk, hc]
    rw [decoderLoop_succ hthr hf]
    obtain hn | ⟨disp, hj, hop⟩ := h
    · rw [hn]
      exact .inl rfl
    · refine .inr ⟨disp, hj, hop, ?_⟩
      have hnext : nextIp xedd va = some (va + UInt64.ofNat xedd.length + disp) := by
        simp only [nextIp, hj, hop, IClass.group]
      rw [hnext]

theorem stops_of_group (hd : xedd.iclass.group ≠ .default) (hj : xedd.iclass.group ≠ .jump) :
    Stops va xedd :=
  stops_iff.mpr (.inl (isStop_iff_nextIp.mp ⟨hd, fun h => hj h.1⟩))

theorem follows_iff_resumes (hs : Stops va xedd) (hg : xedd.iclass.group ≠ .default) :
    Follows env va xedd ↔ resumeAddr env va xedd = some (processorNext env va xedd) := by
  constructor
  · exact fun h => h.resumes
  · intro hr
    refine ⟨hs, hr, ?_⟩
    rintro cfg wpt s rfl hc
    rw [onBranchWatchPoint_resumes hc hg, hr]
    rfl

theorem resume_branch_iff {taken holds : Bool} (next : Addr) {disp : Addr} :
    (if taken then some (next + disp) else some next) =
        some (if holds then next + disp else next) ↔ taken = holds ∨ disp = 0 := by
  cases taken <;> cases holds <;> simp

theorem follows_cond_iff {disp : Addr} (hc : xedd.iclass.group = .cond)
    (hop : xedd.op0 = .relbr disp) :
    Follows env va xedd ↔
      branchTaken env.uCtxt.fl (env.uCtxt.reg .rcx) xedd.iclass =
        conditionHolds env.uCtxt xedd.iclass ∨ disp = 0 := by
  have hne : xedd.iclass ≠ .retNear := by
    intro h
    rw [h] at hc
    cases hc
  rw [follows_iff_resumes (stops_of_group (by simp [hc]) (by simp [hc])) (by simp [hc]),
    ← resume_branch_iff (va + UInt64.ofNat xedd.length)]
  simp only [resumeAddr, hc, resumeIp, getBranchTarget, hop, processorNext, if_neg hne,
    operandTarget]

theorem resume_operand_iff (hop : xedd.op0 ≠ .other) :
    getBranchTarget env.xedAgen va xedd env.uCtxt = some (operandTarget env va xedd) ↔
      xedd.op0 ≠ .register .rsp ∧
        (xedd.op0 = .register .rdi → env.uCtxt.reg .rbp = env.uCtxt.reg .rdi) := by
  unfold getBranchTarget operandTarget
  cases h : xedd.op0 with
  | relbr disp => simp
  | mem0 => simp
  | other => exact absurd h hop
  | register r => cases r <;> simp [readReg, getContextRDI]

/-- `decoder` and `OnBranchWatchPoint` follow a near control transfer exactly when it is
predictable. -/
theorem follows_iff (env : Env) (va : Addr) (xedd : Inst) (h : IsNearTransfer xedd) :
    Follows env va xedd ↔ Predictable env.uCtxt xedd := by
  obtain ⟨iclass, length, op0⟩ := xedd
  cases iclass with
  | retFar | jmpFar | callFar | other => exact absurd h id
  | retNear =>
    rw [follows_iff_resumes (stops_of_group (by simp [IClass.group]) (by simp [IClass.group]))
      (by simp [IClass.group])]
    simp [resumeAddr, processorNext, Predictable, IClass.group]
  | jmp =>
    have hstops : Stops va ⟨.jmp, length, op0⟩ := by
      rw [stops_iff]
      cases op0 with
      | relbr disp => exact .inr ⟨disp, rfl, rfl⟩
      | register r => exact .inl rfl
      | mem0 => exact .inl rfl
      | other => exact absurd rfl h
    rw [follows_iff_resumes hstops (by simp [IClass.group])]
    exact resume_operand_iff h
  | callNear =>
    rw [follows_iff_resumes (stops_of_group (by simp [IClass.group]) (by simp [IClass.group]))
      (by simp [IClass.group])]
    exact resume_operand_iff h
  | jecxz =>
    refine ⟨fun hf => ?_, False.elim⟩
    obtain hn | ⟨disp, hj, -⟩ := stops_iff.mp hf.stops
    · cases hn
    · cases hj
  | loope | loopne =>
    obtain ⟨disp, rfl⟩ := h
    rw [follows_cond_iff rfl rfl, branchTaken_iff rfl]
    simp [Predictable, or_assoc]
  | _ =>
    obtain ⟨disp, rfl⟩ := h
    rw [follows_cond_iff rfl rfl, branchTaken_iff rfl]
    simp [Predictable]

theorem follows_jz_taken :
    Follows (imageEnv [(0x1000, ⟨.jz, 2, .relbr 6⟩)] []
        { stoppedAt 0x1000 0x7000 0 with fl := 0x40 }) 0x1000 ⟨.jz, 2, .relbr 6⟩ ∧
      processorNext (imageEnv [(0x1000, ⟨.jz, 2, .relbr 6⟩)] []
        { stoppedAt 0x1000 0x7000 0 with fl := 0x40 }) 0x1000 ⟨.jz, 2, .relbr 6⟩ = 0x1008 :=
  ⟨(follows_iff _ _ ⟨.jz, 2, .relbr 6⟩ ⟨6, rfl⟩).mpr trivial, by decide⟩

def jmpRdiEnv : Env :=
  imageEnv [(0x1000, ⟨.jmp, 2, .register .rdi⟩)] []
    { stoppedAt 0x1000 0x7000 0 with
      reg := fun r => if r = .rdi then 0x2000 else if r = .rbp then 0x7ff0 else 0 }

/-- The processor goes on at `0x2000`, the tracer at the value of `RBP`. -/
theorem jmpRdi_not_followed :
    IsNearTransfer ⟨.jmp, 2, .register .rdi⟩ ∧
      processorNext jmpRdiEnv 0x1000 ⟨.jmp, 2, .register .rdi⟩ = 0x2000 ∧
      resumeAddr jmpRdiEnv 0x1000 ⟨.jmp, 2, .register .rdi⟩ = some 0x7ff0 ∧
      ¬Follows jmpRdiEnv 0x1000 ⟨.jmp, 2, .register .rdi⟩ := by
  refine ⟨by simp [IsNearTransfer], by decide, by decide, ?_⟩
  intro h
  exact absurd h.resumes (by decide)

end Trace4J.Profiler
