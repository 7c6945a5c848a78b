import Mathlib.Data.UInt
import Mathlib.Data.Int.Notation
import Mathlib.Tactic.Common

/-!
# The traced machine as the profiler sees it

Saved registers, decoded instructions and the pure helpers over them:
`readReg`, `get_branch_target` and the branch conditions of
`OnBranchWatchPoint`, and the backward sweep of `get_previous_instruction`.
XED is outside the repository: decoding is a partial function from addresses to
instructions and `xed_agen` is supplied with the instruction's memory operand.
-/

namespace Trace4J.Profiler

abbrev Addr := UInt64

inductive Reg
  | rax | rbx | rcx | rdx | rsi | rdi | rbp | rsp
  | r8 | r9 | r10 | r11 | r12 | r13 | r14 | r15
deriving DecidableEq, Repr

/-- The `ucontext` of a signal: program counter, stack pointer, flags, general
registers and the 8-byte loads the handler makes from memory. -/
structure UContext where
  pc : Addr
  sp : Addr
  fl : UInt64
  reg : Reg → UInt64
  load : Addr → UInt64

inductive IClass
  | retNear | retFar
  | jb | jbe | jl | jle | jnb | jnbe | jnl | jnle | jno | jnp | jns | jnz | jo | jp | jrcxz | js | jz
  | loop | loope | loopne
  | jmp | jmpFar
  | callNear | callFar
  | jecxz
  | other
deriving DecidableEq, Repr

inductive Operand
  | relbr (disp : UInt64)
  | register (r : Reg)
  | mem0
  | other
deriving DecidableEq, Repr

structure Inst where
  iclass : IClass
  length : ℕ
  op0 : Operand
deriving DecidableEq, Repr

inductive IGroup
  | ret | cond | jump | call | default
deriving DecidableEq, Repr

def IClass.group : IClass → IGroup
  | .retNear | .retFar => .ret
  | .jb | .jbe | .jl | .jle | .jnb | .jnbe | .jnl | .jnle | .jno | .jnp | .jns | .jnz | .jo | .jp
  | .jrcxz | .js | .jz | .loop | .loope | .loopne => .cond
  | .jmp | .jmpFar => .jump
  | .callNear | .callFar => .call
  | .jecxz | .other => .default

/-- `getContextRDI` returns `MCONTEXT_RBP`. -/
def getContextRDI (uCtxt : UContext) : UInt64 := uCtxt.reg .rbp

/-- `readReg`; both `XED_REG_RDI` and `XED_REG_RBP` are answered with
`getContextRDI`, and `RSP` hits the `assert(0)` of the default case. -/
def readReg (uCtxt : UContext) : Reg → Option UInt64
  | .rdi | .rbp => some (getContextRDI uCtxt)
  | .rsp => none
  | r => some (uCtxt.reg r)

def getBranchTarget (xedAgen : Inst → UContext → Addr) (tempIp : Addr) (xedd : Inst)
    (uCtxt : UContext) : Option Addr :=
  match xedd.op0 with
  | .relbr disp => some (tempIp + UInt64.ofNat xedd.length + disp)
  | .register r => readReg uCtxt r
  | .mem0 => some (uCtxt.load (xedAgen xedd uCtxt))
  | .other => none

def flagSet (fl mask : UInt64) : Bool := fl &&& mask != 0

/-- The conditions under which `OnBranchWatchPoint` resumes at the branch
target; `rcx_value` is compared as a signed 64-bit integer. -/
def branchTaken (fl rcx : UInt64) : IClass → Bool
  | .jb => flagSet fl 0x0001
  | .jbe => flagSet fl 0x0041
  | .jl => !flagSet fl 0x0800 != !flagSet fl 0x0080
  | .jle => (!flagSet fl 0x0800 != !flagSet fl 0x0080) || flagSet fl 0x0040
  | .jnb => !flagSet fl 0x0001
  | .jnbe => !flagSet fl 0x0041
  | .jnl => !flagSet fl 0x0800 == !flagSet fl 0x0080
  | .jnle => (!flagSet fl 0x0800 == !flagSet fl 0x0080) && !flagSet fl 0x0040
  | .jno => !flagSet fl 0x0800
  | .jnp => !flagSet fl 0x0004
  | .jns => !flagSet fl 0x0080
  | .jnz => !flagSet fl 0x0040
  | .jo => flagSet fl 0x0800
  | .jp => flagSet fl 0x0004
  | .jrcxz => rcx == 0
  | .js => flagSet fl 0x0080
  | .jz => flagSet fl 0x0040
  | .loop => decide (1 < rcx.toInt64)
  | .loope => decide (1 < rcx.toInt64) && flagSet fl 0x0040
  | .loopne => decide (1 < rcx.toInt64) && !flagSet fl 0x0040
  | .jmp | .jmpFar => true
  | _ => false

def resumeIp (xedAgen : Inst → UContext → Addr) (tempIp : Addr) (xedd : Inst)
    (uCtxt : UContext) : Option Addr :=
  if branchTaken uCtxt.fl (uCtxt.reg .rcx) xedd.iclass then
    getBranchTarget xedAgen tempIp xedd uCtxt
  else some (tempIp + UInt64.ofNat xedd.length)

def sweep (code : Addr → Option Inst) (methodEnd ins : Addr) : ℕ → Addr → Addr
  | 0, _ => 0
  | fuel + 1, pins =>
    if methodEnd < pins then 0
    else match code pins with
      | none => sweep code methodEnd ins fuel (pins + 1)
      | some xedd =>
        if pins + UInt64.ofNat xedd.length = ins then pins
        else sweep code methodEnd ins fuel (pins + UInt64.ofNat xedd.length)

/-- Every pass of the sweep moves at least one byte on, so one step per byte of
the method is enough. -/
def getPreviousInstruction (code : Addr → Option Inst) (methodStart methodEnd ins : Addr)
    (excludeList : List Addr) : Addr :=
  if ins < methodStart ∨ methodEnd < ins then 0
  else if excludeList.any (fun a => decide (methodStart ≤ a) && decide (a < ins)) then 0
  else sweep code methodEnd ins (methodEnd.toNat - methodStart.toNat + 1) methodStart

def isPCSane (ip patchedIP : Addr) : Bool :=
  !(patchedIP == 0 || decide (ip < patchedIP) || decide (patchedIP + 15 < ip))

end Trace4J.Profiler
