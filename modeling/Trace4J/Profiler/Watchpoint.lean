import Trace4J.Profiler.ContextTree

/-!
# The watchpoint library

`MAX_WP_SLOTS` is 1, so a thread owns a single debug register: `WP_Subscribe`
either takes over the one slot or, when the new range overlaps the range that is
still armed, drops the request and leaves the old watchpoint in place.
-/

namespace Trace4J.Profiler

inductive WPAccess
  | read | write | rw | exec | invalid
deriving DecidableEq, Repr

structure SampleData where
  va : Addr
  watchLen : ℕ := 8
  watchType : WPAccess
  accessLen : ℕ := 8
  calleeCtxtFrame : ContextFrame
deriving DecidableEq, Repr

structure WPRegisterInfo where
  sd : SampleData
  isActive : Bool

inductive TriggerAction
  | disable | triggered
deriving DecidableEq, Repr

def validateWPData (sd : SampleData) : Bool :=
  sd.watchLen == 1 || sd.watchLen == 2 || sd.watchLen == 4 || sd.watchLen == 8

def addressesOverlap (addr₁ : Addr) (len₁ : ℕ) (addr₂ : Addr) (len₂ : ℕ) : Bool :=
  decide (addr₂ < addr₁ + UInt64.ofNat len₁) && decide (addr₁ < addr₂ + UInt64.ofNat len₂)

def isOverlapped (wpi : WPRegisterInfo) (sd : SampleData) : Bool :=
  wpi.isActive && addressesOverlap wpi.sd.va wpi.sd.watchLen sd.va sd.watchLen

/-- Arming the victim slot always succeeds; the slot is the only one, empty or
replaced as the oldest. -/
def wpSubscribe (wpi : WPRegisterInfo) (sd : SampleData) : WPRegisterInfo × Bool :=
  if !validateWPData sd || isOverlapped wpi sd then (wpi, false)
  else (⟨sd, true⟩, true)

theorem wpSubscribe_of_inactive {wpi : WPRegisterInfo} {sd : SampleData}
    (hi : wpi.isActive = false) (hv : validateWPData sd = true) :
    wpSubscribe wpi sd = (⟨sd, true⟩, true) := by
  simp [wpSubscribe, isOverlapped, hi, hv]

def wpGetActiveAddresses (wpi : WPRegisterInfo) : List Addr :=
  if wpi.isActive then [wpi.sd.va] else []

end Trace4J.Profiler
