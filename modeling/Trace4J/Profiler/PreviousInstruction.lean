import Mathlib.Data.List.Range
import Trace4J.Library.ForwardChain
import Trace4J.Profiler.Tracer

/-!
# The instruction before an address

`get_previous_instruction` decodes forward from the start of a method or from a remembered
instruction until an instruction ends at the address. The instructions of a method follow one
another, so every start that is an instruction of the method gives the same result. On bytes
that do not decode the sweep goes on byte by byte.
-/

namespace Trace4J.Profiler
open Library Relation

/-! ## Decoding -/

def maxBytesToDecode : ℕ := 15

/-- `xed_decode` with `xed_decoded_inst_get_length`: the bytes determine the instruction, and it
is 1 to 15 bytes long. -/
structure Xed where
  decode : List UInt8 → Option Inst
  length_pos : ∀ bytes xedd, decode bytes = some xedd → 0 < xedd.length
  length_le : ∀ bytes xedd, decode bytes = some xedd → xedd.length ≤ maxBytesToDecode

def Xed.code (xed : Xed) (mem : Addr → UInt8) (pins : Addr) : Option Inst :=
  xed.decode ((List.range maxBytesToDecode).map fun i => mem (pins + UInt64.ofNat i))

structure Decodes (code : Addr → Option Inst) : Prop where
  length_pos : ∀ pins xedd, code pins = some xedd → 0 < xedd.length
  length_le : ∀ pins xedd, code pins = some xedd → xedd.length ≤ maxBytesToDecode

/-- The code of a method: not at the null pointer, and `xed_decode` can be given
`MAX_BYTES_TO_DECODE` bytes from any address in it. -/
structure CodeRegion where
  startAddr : Addr
  endAddr : Addr
  nonnull : 0 < startAddr
  window : endAddr.toNat + maxBytesToDecode < 2 ^ 64

/-- `GetPatchedIP`; the watchpoint library tells which of its watchpoints are active. -/
def getPatchedIP (code : Addr → Option Inst) (watchPointArray : List WPRegisterInfo)
    (methodStart methodEnd ip : Addr) : Addr :=
  getPreviousInstruction code methodStart methodEnd ip
    (watchPointArray.flatMap wpGetActiveAddresses)

/-! ## Boundaries -/

def NextBoundary (code : Addr → Option Inst) (methodEnd pins next : Addr) : Prop :=
  pins ≤ methodEnd ∧ ∃ xedd, code pins = some xedd ∧ pins + UInt64.ofNat xedd.length = next

/-- The places that valid instructions reach from the start of the method. When they tile it,
these are all its instruction boundaries. -/
def Boundary (code : Addr → Option Inst) (region : CodeRegion) : Addr → Prop :=
  ReflTransGen (NextBoundary code region.endAddr) region.startAddr

structure BoundaryBefore (code : Addr → Option Inst) (region : CodeRegion) (r ip : Addr) :
    Prop where
  boundary : Boundary code region r
  lt : r < ip
  last : ∀ a, Boundary code region a → a < ip → a ≤ r

/-! ## The sweep without a bound on its turns -/

inductive SweepTurn
  | returns (r : Addr)
  | goesOn (pins : Addr)

def sweepTurn (code : Addr → Option Inst) (methodEnd ins pins : Addr) : SweepTurn :=
  if methodEnd < pins then .returns 0
  else match code pins with
    | none => .goesOn (pins + 1)
    | some xedd =>
      if pins + UInt64.ofNat xedd.length = ins then .returns pins
      else .goesOn (pins + UInt64.ofNat xedd.length)

inductive SweepReturns (code : Addr → Option Inst) (methodEnd ins : Addr) : Addr → Addr → Prop
  | last {pins r : Addr} (hturn : sweepTurn code methodEnd ins pins = .returns r) :
      SweepReturns code methodEnd ins pins r
  | more {pins pins' r : Addr} (hturn : sweepTurn code methodEnd ins pins = .goesOn pins')
      (hrest : SweepReturns code methodEnd ins pins' r) : SweepReturns code methodEnd ins pins r

inductive PreviousReturns (code : Addr → Option Inst) (methodStart methodEnd ins : Addr)
    (excludeList : List Addr) : Addr → Prop
  | outside (hout : ins < methodStart ∨ methodEnd < ins) :
      PreviousReturns code methodStart methodEnd ins excludeList 0
  | excluded {a : Addr} (hmem : a ∈ excludeList) (ha : methodStart ≤ a ∧ a < ins) :
      PreviousReturns code methodStart methodEnd ins excludeList 0
  | swept {r : Addr} (hin : methodStart ≤ ins ∧ ins ≤ methodEnd)
      (hfree : ∀ a ∈ excludeList, ¬(methodStart ≤ a ∧ a < ins))
      (hsweep : SweepReturns code methodEnd ins methodStart r) :
      PreviousReturns code methodStart methodEnd ins excludeList r

section Sweep
variable {code : Addr → Option Inst} {methodStart methodEnd ins pins pins' r : Addr} {xedd : Inst}
  {fuel n : ℕ} {excludeList : List Addr}

theorem toNat_add_ofNat (hwindow : methodEnd.toNat + maxBytesToDecode < 2 ^ 64)
    (hle : pins ≤ methodEnd) (hn : n ≤ maxBytesToDecode) :
    (pins + UInt64.ofNat n).toNat = pins.toNat + n := by
  rw [UInt64.le_iff_toNat_le] at hle
  rw [UInt64.toNat_add, UInt64.toNat_ofNat', Nat.mod_eq_of_lt (a := n) (by omega),
    Nat.mod_eq_of_lt (by omega)]

theorem sweep_succ : sweep code methodEnd ins (fuel + 1) pins =
    match sweepTurn code methodEnd ins pins with
    | .returns r => r
    | .goesOn pins' => sweep code methodEnd ins fuel pins' := by
  rw [sweep, sweepTurn]
  split_ifs with hpast
  · rfl
  · cases code pins with
    | none => rfl
    | some xedd =>
      dsimp only
      split_ifs
      · rfl
      · rfl

theorem sweepTurn_returns (h : sweepTurn code methodEnd ins pins = .returns r) :
    methodEnd < pins ∧ r = 0 ∨ r = pins ∧ NextBoundary code methodEnd pins ins := by
  unfold sweepTurn at h
  split_ifs at h with hpast
  · exact .inl ⟨hpast, (SweepTurn.returns.inj h).symm⟩
  · cases hcode : code pins with
    | none => simp [hcode] at h
    | some xedd =>
      simp only [hcode] at h
      split_ifs at h with hins
      exact .inr ⟨(SweepTurn.returns.inj h).symm, UInt64.not_lt.mp hpast, xedd, hcode, hins⟩

theorem sweepTurn_goesOn (hcode : Decodes code)
    (h : sweepTurn code methodEnd ins pins = .goesOn pins') :
    pins ≤ methodEnd ∧ ∃ n, 0 < n ∧ n ≤ maxBytesToDecode ∧ pins' = pins + UInt64.ofNat n := by
  unfold sweepTurn at h
  split_ifs at h with hpast
  refine ⟨UInt64.not_lt.mp hpast, ?_⟩
  cases hxedd : code pins with
  | none =>
    simp only [hxedd] at h
    exact ⟨1, Nat.one_pos, by decide, (SweepTurn.goesOn.inj h).symm⟩
  | some xedd =>
    simp only [hxedd] at h
    split_ifs at h
    exact ⟨xedd.length, hcode.length_pos _ _ hxedd, hcode.length_le _ _ hxedd,
      (SweepTurn.goesOn.inj h).symm⟩

theorem SweepReturns.unique {r' : Addr} (h : SweepReturns code methodEnd ins pins r)
    (h' : SweepReturns code methodEnd ins pins r') : r = r' := by
  induction h with
  | last hturn =>
    cases h' with
    | last hturn' => exact SweepTurn.returns.inj (hturn.symm.trans hturn')
    | more hturn' _ => cases hturn.symm.trans hturn'
  | more hturn _ ih =>
    cases h' with
    | last hturn' => cases hturn.symm.trans hturn'
    | more hturn' hrest' =>
      cases hturn.symm.trans hturn'
      exact ih hrest'

/-- Every turn that goes on comes closer to the end of the method, so that one turn for each
byte is enough. -/
theorem sweep_returns (hcode : Decodes code)
    (hwindow : methodEnd.toNat + maxBytesToDecode < 2 ^ 64)
    (hfuel : methodEnd.toNat < pins.toNat + fuel) :
    SweepReturns code methodEnd ins pins (sweep code methodEnd ins fuel pins) := by
  induction fuel generalizing pins with
  | zero =>
    have hpast : methodEnd < pins := UInt64.lt_iff_toNat_lt.mpr hfuel
    exact .last (if_pos hpast)
  | succ fuel ih =>
    rw [sweep_succ]
    cases hturn : sweepTurn code methodEnd ins pins with
    | returns r => exact .last hturn
    | goesOn pins' =>
      obtain ⟨hle, n, hpos, hn, rfl⟩ := sweepTurn_goesOn hcode hturn
      have hnext := toNat_add_ofNat hwindow hle hn
      exact .more hturn (ih (by omega))

theorem SweepReturns.bounds (hcode : Decodes code)
    (hwindow : methodEnd.toNat + maxBytesToDecode < 2 ^ 64)
    (h : SweepReturns code methodEnd ins pins r) (hr : r ≠ 0) :
    pins ≤ r ∧ NextBoundary code methodEnd r ins := by
  induction h with
  | last hturn =>
    obtain ⟨-, hzero⟩ | ⟨rfl, hnext⟩ := sweepTurn_returns hturn
    · exact absurd hzero hr
    · exact ⟨UInt64.le_refl _, hnext⟩
  | more hturn _ ih =>
    obtain ⟨hle, n, -, hn, rfl⟩ := sweepTurn_goesOn hcode hturn
    obtain ⟨hge, hnext⟩ := ih hr
    have hforward := toNat_add_ofNat hwindow hle hn
    rw [UInt64.le_iff_toNat_le] at hge ⊢
    exact ⟨by omega, hnext⟩

theorem PreviousReturns.unique {r' : Addr}
    (h : PreviousReturns code methodStart methodEnd ins excludeList r)
    (h' : PreviousReturns code methodStart methodEnd ins excludeList r') : r = r' := by
  cases h with
  | outside hout =>
    cases h' with
    | outside _ => rfl
    | excluded _ _ => rfl
    | swept hin _ _ =>
      exact absurd hout (not_or_intro (UInt64.not_lt.mpr hin.1) (UInt64.not_lt.mpr hin.2))
  | excluded hmem ha =>
    cases h' with
    | outside _ => rfl
    | excluded _ _ => rfl
    | swept _ hfree _ => exact absurd ha (hfree _ hmem)
  | swept hin hfree hsweep =>
    cases h' with
    | outside hout =>
      exact absurd hout (not_or_intro (UInt64.not_lt.mpr hin.1) (UInt64.not_lt.mpr hin.2))
    | excluded hmem ha => exact absurd ha (hfree _ hmem)
    | swept _ _ hsweep' => exact hsweep.unique hsweep'

theorem getPreviousInstruction_returns (hcode : Decodes code)
    (hwindow : methodEnd.toNat + maxBytesToDecode < 2 ^ 64) (methodStart ins : Addr)
    (excludeList : List Addr) : PreviousReturns code methodStart methodEnd ins excludeList
      (getPreviousInstruction code methodStart methodEnd ins excludeList) := by
  unfold getPreviousInstruction
  split_ifs with hout hexcluded
  · exact .outside hout
  · rw [List.any_eq_true] at hexcluded
    obtain ⟨a, hmem, ha⟩ := hexcluded
    exact .excluded hmem (by simpa using ha)
  · have hin : methodStart ≤ ins ∧ ins ≤ methodEnd := by
      simpa [not_or] using hout
    apply PreviousReturns.swept hin
    · intro a hmem ha
      exact hexcluded (List.any_eq_true.mpr ⟨a, hmem, by simpa using ha⟩)
    · exact sweep_returns hcode hwindow (by omega)

theorem NextBoundary.bounds (hcode : Decodes code)
    (hwindow : methodEnd.toNat + maxBytesToDecode < 2 ^ 64)
    (h : NextBoundary code methodEnd pins ins) :
    pins.toNat < ins.toNat ∧ ins.toNat ≤ pins.toNat + maxBytesToDecode := by
  obtain ⟨hle, xedd, hxedd, rfl⟩ := h
  have hpos := hcode.length_pos _ _ hxedd
  have hlength := hcode.length_le _ _ hxedd
  rw [toNat_add_ofNat hwindow hle hlength]
  exact ⟨by omega, by omega⟩

theorem PreviousReturns.bounds (hcode : Decodes code)
    (hwindow : methodEnd.toNat + maxBytesToDecode < 2 ^ 64)
    (h : PreviousReturns code methodStart methodEnd ins excludeList r) (hr : r ≠ 0) :
    methodStart ≤ r ∧ NextBoundary code methodEnd r ins := by
  cases h with
  | outside _ => exact absurd rfl hr
  | excluded _ _ => exact absurd rfl hr
  | swept _ _ hsweep => exact hsweep.bounds hcode hwindow hr

end Sweep

/-! ## Sweeping over boundaries -/

section Boundaries
variable {code : Addr → Option Inst} {methodEnd b ip p pins next : Addr} {region : CodeRegion}
  {excludeList : List Addr}

theorem nextBoundary_forward (hcode : Decodes code)
    (hwindow : methodEnd.toNat + maxBytesToDecode < 2 ^ 64) :
    Forward UInt64.toNat (NextBoundary code methodEnd) := by
  refine ⟨fun _ _ => UInt64.toNat_inj.mp, ?_, fun a c h => (h.bounds hcode hwindow).1⟩
  intro a c c' h h'
  obtain ⟨-, xedd, hxedd, rfl⟩ := h
  obtain ⟨-, xedd', hxedd', rfl⟩ := h'
  rw [hxedd, Option.some.injEq] at hxedd'
  rw [hxedd']

theorem sweepTurn_of_next (h : NextBoundary code methodEnd pins next) (ins : Addr) :
    sweepTurn code methodEnd ins pins =
      if next = ins then .returns pins else .goesOn next := by
  obtain ⟨hle, xedd, hxedd, rfl⟩ := h
  rw [sweepTurn, if_neg (UInt64.not_lt.mpr hle), hxedd]

theorem sweepReturns_of_reaches (hcode : Decodes code)
    (hwindow : methodEnd.toNat + maxBytesToDecode < 2 ^ 64)
    (hreach : ReflTransGen (NextBoundary code methodEnd) b p)
    (hlast : NextBoundary code methodEnd p ip) : SweepReturns code methodEnd ip b p := by
  have hforward := nextBoundary_forward hcode hwindow
  induction hreach using ReflTransGen.head_induction_on with
  | refl => exact .last (by rw [sweepTurn_of_next hlast, if_pos rfl])
  | @head a c hnext hrest ih =>
    have hne : c ≠ ip := by
      rintro rfl
      exact (hforward.lt _ _ hlast).not_ge (hforward.le hrest)
    exact .more (by rw [sweepTurn_of_next hnext, if_neg hne]) ih

theorem Decodes.boundaryBefore (hcode : Decodes code) (hp : Boundary code region p)
    (hlast : NextBoundary code region.endAddr p ip) : BoundaryBefore code region p ip := by
  have hforward := nextBoundary_forward hcode region.window
  refine ⟨hp, UInt64.lt_iff_toNat_lt.mpr (hforward.lt _ _ hlast), ?_⟩
  intro a ha hlt
  rw [UInt64.lt_iff_toNat_lt] at hlt
  exact UInt64.le_iff_toNat_le.mpr (hforward.le_last hp hlast ha hlt)

theorem Decodes.ne_zero (hcode : Decodes code) (hp : Boundary code region p) : p ≠ 0 := by
  have hstart := (nextBoundary_forward hcode region.window).le hp
  have hnonnull := UInt64.lt_iff_toNat_lt.mp region.nonnull
  rintro rfl
  exact hnonnull.not_ge hstart

theorem isPCSane_of_next (hcode : Decodes code)
    (hwindow : methodEnd.toNat + maxBytesToDecode < 2 ^ 64)
    (h : NextBoundary code methodEnd p ip) (hp : p ≠ 0) : isPCSane ip p = true := by
  obtain ⟨hlt, hle⟩ := h.bounds hcode hwindow
  have hadd : (p + 15).toNat = p.toNat + 15 := toNat_add_ofNat hwindow h.1 le_rfl
  have hfront : ¬ip < p := by
    rw [UInt64.lt_iff_toNat_lt]
    omega
  have hnear : ¬p + 15 < ip := by
    rw [UInt64.lt_iff_toNat_lt, hadd]
    exact hle.not_gt
  simp [isPCSane, hp, hfront, hnear]

/-- From every boundary in front of `ip` the same one is found. -/
theorem getPreviousInstruction_boundary (hcode : Decodes code) (hip : Boundary code region ip)
    (hstart : region.startAddr < ip) (hend : ip ≤ region.endAddr)
    (hfree : ∀ a ∈ excludeList, ¬(region.startAddr ≤ a ∧ a < ip)) :
    ∃ r, BoundaryBefore code region r ip ∧ isPCSane ip r = true ∧
      ∀ b, Boundary code region b → b < ip →
        getPreviousInstruction code b region.endAddr ip excludeList = r := by
  have hforward := nextBoundary_forward hcode region.window
  obtain ⟨r, hr, hlast⟩ :=
    hforward.exists_last .refl hip (UInt64.lt_iff_toNat_lt.mp hstart)
  have hbefore := hcode.boundaryBefore hr hlast
  refine ⟨r, hbefore, isPCSane_of_next hcode region.window hlast (hcode.ne_zero hr), ?_⟩
  intro b hb hlt
  have hbr := UInt64.le_iff_toNat_le.mp (hbefore.last b hb hlt)
  have hsweep := sweepReturns_of_reaches hcode region.window
    (hforward.reaches_of_le hb hr hbr) hlast
  have hfree' : ∀ a ∈ excludeList, ¬(b ≤ a ∧ a < ip) := by
    intro a hmem ha
    have hge := UInt64.le_iff_toNat_le.mpr (hforward.le hb)
    exact hfree a hmem ⟨UInt64.le_trans hge ha.1, ha.2⟩
  exact (getPreviousInstruction_returns hcode region.window b ip excludeList).unique
    (.swept ⟨UInt64.le_of_lt hlt, hend⟩ hfree' hsweep)

end Boundaries

theorem Xed.decodes (xed : Xed) (mem : Addr → UInt8) : Decodes (xed.code mem) :=
  ⟨fun _ _ => xed.length_pos _ _, fun _ _ => xed.length_le _ _⟩

/-- Over instructions every start finds the boundary before `ip`, and over any bytes the sweep
ends, with nothing or with a sane address. -/
theorem getPatchedIP_finds (xed : Xed) (mem : Addr → UInt8) (region : CodeRegion)
    (watchPointArray : List WPRegisterInfo) :
    (∀ ip, Boundary (xed.code mem) region ip → region.startAddr < ip → ip ≤ region.endAddr →
      (∀ a ∈ watchPointArray.flatMap wpGetActiveAddresses, ¬(region.startAddr ≤ a ∧ a < ip)) →
      ∃ r, BoundaryBefore (xed.code mem) region r ip ∧ isPCSane ip r = true ∧
        ∀ b, Boundary (xed.code mem) region b → b < ip →
          getPatchedIP (xed.code mem) watchPointArray b region.endAddr ip = r) ∧
    ∀ b ip, (∃ r, SweepReturns (xed.code mem) region.endAddr ip b r) ∧
      PreviousReturns (xed.code mem) b region.endAddr ip
        (watchPointArray.flatMap wpGetActiveAddresses)
        (getPatchedIP (xed.code mem) watchPointArray b region.endAddr ip) ∧
      ∀ r, getPatchedIP (xed.code mem) watchPointArray b region.endAddr ip = r → r ≠ 0 →
        b ≤ r ∧ r < ip ∧ ip.toNat ≤ r.toNat + 15 := by
  have hcode := xed.decodes mem
  constructor
  · intro ip hip hstart hend hfree
    exact getPreviousInstruction_boundary hcode hip hstart hend hfree
  · intro b ip
    have hreturns := getPreviousInstruction_returns hcode region.window b ip
      (watchPointArray.flatMap wpGetActiveAddresses)
    have hends : SweepReturns (xed.code mem) region.endAddr ip b
        (sweep (xed.code mem) region.endAddr ip (region.endAddr.toNat + 1) b) :=
      sweep_returns hcode region.window (by omega)
    refine ⟨⟨_, hends⟩, hreturns, ?_⟩
    intro r hr hne
    rw [← hr] at hne ⊢
    obtain ⟨hge, hnext⟩ := hreturns.bounds hcode region.window hne
    obtain ⟨hlt, hle⟩ := hnext.bounds hcode region.window
    exact ⟨hge, UInt64.lt_iff_toNat_lt.mpr hlt, hle⟩

/-- `push rbp`, `mov rbp, rsp`, `nop` and `ret`. -/
def prologueXed : Xed where
  decode
    | 0x55 :: _ => some ⟨.other, 1, .other⟩
    | 0x48 :: 0x89 :: 0xe5 :: _ => some ⟨.other, 3, .other⟩
    | 0x90 :: _ => some ⟨.other, 1, .other⟩
    | 0xc3 :: _ => some ⟨.retNear, 1, .other⟩
    | _ => none
  length_pos bytes xedd h := by
    split at h <;> cases h <;> decide
  length_le bytes xedd h := by
    split at h <;> cases h <;> decide

def prologueMem (a : Addr) : UInt8 :=
  ([0x55, 0x48, 0x89, 0xe5, 0x90, 0xc3] : List UInt8).getD (a - 4096).toNat 0

def prologue : CodeRegion := ⟨4096, 4101, by decide, by decide⟩

def farWatchpoint : WPRegisterInfo :=
  ⟨{ va := 8192, watchType := .write, calleeCtxtFrame := runtimeFrame }, true⟩

theorem getPatchedIP_finds_prologue :
    getPatchedIP (prologueXed.code prologueMem) [farWatchpoint] 4097 4101 4101 = 4100 ∧
    BoundaryBefore (prologueXed.code prologueMem) prologue 4100 4101 ∧
      isPCSane 4101 4100 = true := by
  have hpush : NextBoundary (prologueXed.code prologueMem) 4101 4096 4097 :=
    ⟨by decide, ⟨.other, 1, .other⟩, rfl, by decide⟩
  have hmov : NextBoundary (prologueXed.code prologueMem) 4101 4097 4100 :=
    ⟨by decide, ⟨.other, 3, .other⟩, rfl, by decide⟩
  have hnop : NextBoundary (prologueXed.code prologueMem) 4101 4100 4101 :=
    ⟨by decide, ⟨.other, 1, .other⟩, rfl, by decide⟩
  have hb : Boundary (prologueXed.code prologueMem) prologue 4097 := .single hpush
  have hfree : ∀ a ∈ [farWatchpoint].flatMap wpGetActiveAddresses, ¬(4096 ≤ a ∧ a < 4101) := by
    intro a hmem
    obtain rfl : a = 8192 := List.mem_singleton.mp hmem
    decide
  obtain ⟨r, hbefore, hsane, hall⟩ :=
    (getPatchedIP_finds prologueXed prologueMem prologue [farWatchpoint]).1 4101
      ((hb.tail hmov).tail hnop) (by decide) (by decide) hfree
  have hrun : getPatchedIP (prologueXed.code prologueMem) [farWatchpoint] 4097 4101 4101 =
      4100 := by
    decide +kernel
  have hr : (4100 : Addr) = r := hrun.symm.trans (hall 4097 hb (by decide))
  rw [← hr] at hbefore hsane
  exact ⟨hrun, hbefore, hsane⟩

end Trace4J.Profiler
