import Trace4J.Library.Bytes

/-!
# The ring buffer of a perf event

The page that the kernel shares with the profiler, the functions of `perf_mmap.cpp`
that read it, and the record loop of `perf_event_handler`. The counters are 64-bit
words and the page mask is one of 32 bits; a byte of the data area is found by its offset.
The layout of a record is that of `perf_event_open(2)`.
-/

namespace Trace4J.Perf
open Library

/-! ## The attributes of an event -/

def perfSampleIp : ℕ := 2 ^ 0
def perfSampleTid : ℕ := 2 ^ 1
def perfSampleTime : ℕ := 2 ^ 2
def perfSampleAddr : ℕ := 2 ^ 3
def perfSampleCallchain : ℕ := 2 ^ 5
def perfSampleCpu : ℕ := 2 ^ 7
def perfSamplePeriod : ℕ := 2 ^ 8

structure PerfEventAttr where
  sampleType : ℕ
  samplePeriod : ℕ
  freq : Bool
  disabled : Bool
  wakeupEvents : ℕ
  excludeCallchainUser : Bool
  excludeCallchainKernel : Bool
  excludeKernel : Bool
  excludeHv : Bool
  excludeIdle : Bool

def perfAttrInit (threshold moreSampleType : ℕ) : PerfEventAttr where
  sampleType := moreSampleType ||| perfSampleIp ||| perfSampleCallchain ||| perfSampleAddr |||
    perfSampleCpu ||| perfSamplePeriod ||| perfSampleTime
  samplePeriod := threshold
  freq := threshold = 0
  disabled := true
  wakeupEvents := 1
  excludeCallchainUser := true
  excludeCallchainKernel := true
  excludeKernel := true
  excludeHv := true
  excludeIdle := true

/-! ## Records -/

def perfRecordSample : ℕ := 9
def perfRecordMiscExactIp : ℕ := 2 ^ 14

structure PerfEventHeader where
  type : ℕ
  misc : ℕ
  size : ℕ

def sizeofHeader : ℕ := 8

def headerBytes (type : UInt32) (misc : UInt16) (size : ℕ) : List UInt8 :=
  leBytes 4 type.toNat ++ leBytes 2 misc.toNat ++ leBytes 2 size

structure SampleRecord where
  misc : UInt16
  ip : UInt64
  pid : UInt32
  tid : UInt32
  time : UInt64
  addr : UInt64
  cpu : UInt32
  res : UInt32
  period : UInt64
  ips : List UInt64
  fits : 64 + 8 * ips.length < 2 ^ 16

structure OtherRecord where
  type : UInt32
  misc : UInt16
  payload : List UInt8
  notSample : type.toNat ≠ perfRecordSample
  fits : 8 + payload.length < 2 ^ 16

inductive Record
  | sample (r : SampleRecord)
  | other (r : OtherRecord)

def fieldIf (sampleType flag : ℕ) (bytes : List UInt8) : List UInt8 :=
  if sampleType &&& flag ≠ 0 then bytes else []

def SampleRecord.body (sampleType : ℕ) (r : SampleRecord) : List UInt8 :=
  fieldIf sampleType perfSampleIp (leBytes 8 r.ip.toNat) ++
  fieldIf sampleType perfSampleTid (leBytes 4 r.pid.toNat ++ leBytes 4 r.tid.toNat) ++
  fieldIf sampleType perfSampleTime (leBytes 8 r.time.toNat) ++
  fieldIf sampleType perfSampleAddr (leBytes 8 r.addr.toNat) ++
  fieldIf sampleType perfSampleCpu (leBytes 4 r.cpu.toNat ++ leBytes 4 r.res.toNat) ++
  fieldIf sampleType perfSamplePeriod (leBytes 8 r.period.toNat) ++
  fieldIf sampleType perfSampleCallchain
    (leBytes 8 r.ips.length ++ r.ips.flatMap fun ip => leBytes 8 ip.toNat)

def Record.body (sampleType : ℕ) : Record → List UInt8
  | .sample r => r.body sampleType
  | .other r => r.payload

def Record.size (sampleType : ℕ) (r : Record) : ℕ := sizeofHeader + (r.body sampleType).length

def Record.bytes (sampleType : ℕ) : Record → List UInt8
  | .sample r => headerBytes (.ofNat perfRecordSample) r.misc
      (Record.size sampleType (.sample r)) ++ r.body sampleType
  | .other r => headerBytes r.type r.misc (Record.size sampleType (.other r)) ++ r.payload

/-! ## The shared page -/

def u64 (x : ℤ) : ℕ := (x % 2 ^ 64).toNat

def u32 (x : ℤ) : ℕ := (x % 2 ^ 32).toNat

def toInt (x : ℕ) : ℤ := if x % 2 ^ 32 < 2 ^ 31 then (x % 2 ^ 32 : ℕ) else (x % 2 ^ 32 : ℕ) - 2 ^ 32

structure PerfPage where
  data : ℕ → UInt8
  dataHead : ℕ
  dataTail : ℕ

/-- What every reader of a page does once it knows the offset of the tail and how many bytes
stand at its right. `none` when there are fewer than `n` bytes. -/
def PerfPage.copyNbytes (m : PerfPage) (tail bytesAtRight n : ℕ) :
    Option (List UInt8 × PerfPage) :=
  if u64 (m.dataHead - m.dataTail) < n then none
  else
    let right := if bytesAtRight < n then bytesAtRight else n
    some ((List.range right).map (fun j => m.data (tail + j)) ++
        (if right < n then (List.range (n - right)).map m.data else []),
      { m with dataTail := u64 (m.dataTail + n) })

def perfBufferPages : ℕ := 1

structure PerfPageSize where
  pageSize : ℕ
  pageMask : ℕ

def perfMmapInit (sysconf : ℕ) : PerfPageSize :=
  let pageSize := u32 sysconf
  ⟨pageSize, u32 (perfBufferPages * pageSize - 1)⟩

/-- The return value, what is in the buffer of the caller, and the page afterwards. -/
structure ReadResult where
  ret : ℕ
  buf : List UInt8
  page : PerfPage

def PerfPage.readBufferNbytes (size : PerfPageSize) (m : PerfPage) (n : ℕ) : ReadResult :=
  let tail := m.dataTail &&& size.pageMask
  match m.copyNbytes tail (u64 (u32 (size.pageMask + 1) - tail)) n with
  | none => ⟨1, [], m⟩
  | some (buf, m) => ⟨0, buf, m⟩

/-- A page together with the size that `perf_mmap_init` has found. -/
structure PerfMmap extends PerfPage where
  pageBits : ℕ
  small : pageBits < 31

def PerfMmap.pageSize (m : PerfMmap) : ℕ := 2 ^ m.pageBits

def perfSkipBufferNbytes (m : PerfMmap) (n : ℕ) : PerfMmap :=
  let n := if m.dataHead < u64 (m.dataTail + n) then u64 (m.dataHead - m.dataTail) else n
  { m with dataTail := u64 (m.dataTail + n) }

def perfReadBufferNbytes (m : PerfMmap) (n : ℕ) : Option (List UInt8 × PerfMmap) :=
  let r := m.toPerfPage.readBufferNbytes (perfMmapInit m.pageSize) n
  if r.ret = 0 then some (r.buf, { m with toPerfPage := r.page }) else none

def perfReadHeader (m : PerfMmap) : Option (PerfEventHeader × PerfMmap) :=
  (perfReadBufferNbytes m sizeofHeader).map fun (bytes, m) =>
    ({ type := leNat (bytes.take 4)
       misc := leNat ((bytes.drop 4).take 2)
       size := leNat (bytes.drop 6) }, m)

structure PerfSampleData where
  ip : ℕ := 0
  pid : ℕ := 0
  tid : ℕ := 0
  addr : ℕ := 0
  cpu : ℕ := 0
  isPrecise : Bool := false
deriving DecidableEq

/-- `if (sample_type & flag) COPY_SAMPLE_DATA(field, size)`, with `none` for the failed
assertion in it. -/
def copySampleData (sampleType flag : ℕ) (m : PerfMmap) (size field : ℕ) :
    Option (ℕ × PerfMmap) :=
  if sampleType &&& flag ≠ 0 then
    (perfReadBufferNbytes m size).map fun (bytes, m) => (leNat bytes, m)
  else some (field, m)

def perfReadRecordSample (m : PerfMmap) (sampleType : ℕ) (d : PerfSampleData) :
    Option (PerfSampleData × PerfMmap) := do
  let (ip, m) ← copySampleData sampleType perfSampleIp m 8 d.ip
  let (pid, m) ← copySampleData sampleType perfSampleTid m 4 d.pid
  let (tid, m) ← copySampleData sampleType perfSampleTid m 4 d.tid
  let (addr, m) ← copySampleData sampleType perfSampleAddr m 8 d.addr
  let (cpu, m) ← copySampleData sampleType perfSampleCpu m 4 d.cpu
  some ({ d with ip := ip, pid := pid, tid := tid, addr := addr, cpu := cpu }, m)

def perfNumOfRemainingData (m : PerfMmap) : ℤ := toInt (u64 (m.dataHead - m.dataTail))

def perfSkipRecord (m : PerfMmap) (ehdr : PerfEventHeader) : PerfMmap :=
  perfSkipBufferNbytes m (u64 (ehdr.size - sizeofHeader))

def perfSkipAll (m : PerfMmap) : PerfMmap :=
  let remains := perfNumOfRemainingData m
  if 0 < remains then perfSkipBufferNbytes m (u64 remains) else m

/-! ## The record loop -/

/-- One turn of the loop: where it read a header, where it left off, and the sample
that it handed to the callback. -/
structure Turn where
  header : ℕ
  upTo : ℕ
  callback : Option PerfSampleData
deriving DecidableEq

inductive Next
  | done (m : PerfMmap)
  | turned (t : Turn) (m : PerfMmap)
  | failed

def takeRecord (sampleType start : ℕ) (ehdr : PerfEventHeader) (m : PerfMmap) : Next :=
  if ehdr.type = perfRecordSample then
    match perfReadRecordSample m sampleType
        { isPrecise := ehdr.misc &&& perfRecordMiscExactIp ≠ 0 } with
    | none => .failed
    | some (d, m') => .turned ⟨start, m'.dataTail, some d⟩ m'
  else
    let m' := if ehdr.size = 0 then perfSkipAll m else perfSkipRecord m ehdr
    .turned ⟨start, m'.dataTail, none⟩ m'

def turn (sampleType : ℕ) (m : PerfMmap) : Next :=
  let remainingDataSize := perfNumOfRemainingData m
  if remainingDataSize ≤ 0 then .done m
  else if remainingDataSize < sizeofHeader then .done (perfSkipAll m)
  else
    match perfReadHeader m with
    | none => .failed
    | some (ehdr, m') => takeRecord sampleType m.dataTail ehdr m'

/-- The turns of the loop, or `none` if it fails or needs more than `fuel` of them. -/
def recordLoop (sampleType : ℕ) : ℕ → PerfMmap → Option (List Turn × PerfMmap)
  | 0, _ => none
  | fuel + 1, m =>
    match turn sampleType m with
    | .done m => some ([], m)
    | .failed => none
    | .turned t m => (recordLoop sampleType fuel m).map fun (ts, m) => (t :: ts, m)

/-! ## What the loop should have done -/

def SampleRecord.HandedOver (r : SampleRecord) (d : PerfSampleData) : Prop :=
  d.ip = r.ip.toNat ∧ d.pid = r.pid.toNat ∧ d.tid = r.tid.toNat ∧
    d.addr = r.addr.toNat ∧ d.cpu = r.cpu.toNat

structure Turn.Takes (sampleType start : ℕ) (r : Record) (t : Turn) : Prop where
  header : t.header = start
  upTo : t.upTo = start + r.size sampleType
  callback : match r with
    | .sample s => ∃ d, t.callback = some d ∧ s.HandedOver d
    | .other _ => t.callback = none

def TakesAll (sampleType : ℕ) : ℕ → List Record → List Turn → Prop
  | _, [], [] => True
  | start, r :: rs, t :: ts =>
    t.Takes sampleType start r ∧ TakesAll sampleType (start + r.size sampleType) rs ts
  | _, _, _ => False

def content (sampleType : ℕ) (records : List Record) : List UInt8 :=
  records.flatMap fun r => r.bytes sampleType

structure Pending (m : PerfMmap) (xs : List UInt8) : Prop where
  head : m.dataHead = m.dataTail + xs.length
  word : m.dataHead < 2 ^ 64
  room : xs.length ≤ m.pageSize
  window : Window m.data m.pageSize m.dataTail xs

def Record.IsSample : Record → Bool
  | .sample _ => true
  | .other _ => false

/-! ## Every reader copies a stretch -/

theorem left_part (data : ℕ → UInt8) (right n : ℕ) :
    (if right < n then (List.range (n - right)).map data else []) =
      (List.range (n - right)).map data := by
  split_ifs with hlt
  · rfl
  · rw [Nat.sub_eq_zero_of_le (not_lt.mp hlt), List.range_zero, List.map_nil]

theorem PerfPage.copyNbytes_eq (m : PerfPage) (size n : ℕ) :
    m.copyNbytes (m.dataTail % size) (size - m.dataTail % size) n =
      if u64 (m.dataHead - m.dataTail) < n then none
      else some (copyOut m.data size m.dataTail n,
        { m with dataTail := u64 (m.dataTail + n) }) := by
  unfold PerfPage.copyNbytes
  simp only [left_part]
  rfl

theorem two_pow_lt {bits : ℕ} (hbits : bits < 32) : 2 ^ bits < 2 ^ 32 :=
  Nat.pow_lt_pow_right (by decide) hbits

theorem perfMmapInit_pageMask {bits : ℕ} (hbits : bits < 32) :
    (perfMmapInit (2 ^ bits)).pageMask = 2 ^ bits - 1 := by
  have hlt := two_pow_lt hbits
  have hpos : 0 < 2 ^ bits := Nat.two_pow_pos bits
  have hcast : ((2 ^ bits : ℕ) : ℤ) % 2 ^ 32 = ((2 ^ bits : ℕ) : ℤ) := by omega
  unfold perfMmapInit perfBufferPages u32
  simp only [hcast]
  omega

theorem edge_eq {bits : ℕ} (hbits : bits < 32) (tail : ℕ) :
    tail &&& (perfMmapInit (2 ^ bits)).pageMask = tail % 2 ^ bits ∧
      u64 (u32 ((perfMmapInit (2 ^ bits)).pageMask + 1) - (tail % 2 ^ bits : ℕ)) =
        2 ^ bits - tail % 2 ^ bits := by
  have hlt := two_pow_lt hbits
  have hoffset : tail % 2 ^ bits < 2 ^ bits := Nat.mod_lt _ (Nat.two_pow_pos bits)
  rw [perfMmapInit_pageMask hbits]
  refine ⟨Nat.and_two_pow_sub_one_eq_mod _ _, ?_⟩
  unfold u64 u32
  omega

theorem PerfPage.readBufferNbytes_eq {bits : ℕ} (hbits : bits < 32) (m : PerfPage) (n : ℕ) :
    m.readBufferNbytes (perfMmapInit (2 ^ bits)) n =
      if u64 (m.dataHead - m.dataTail) < n then ⟨1, [], m⟩
      else ⟨0, copyOut m.data (2 ^ bits) m.dataTail n,
        { m with dataTail := u64 (m.dataTail + n) }⟩ := by
  obtain ⟨hmask, hright⟩ := edge_eq hbits m.dataTail
  unfold PerfPage.readBufferNbytes
  simp only [hmask, hright, m.copyNbytes_eq]
  split_ifs <;> rfl

theorem perfReadBufferNbytes_eq_copyOut (m : PerfMmap) (n : ℕ) :
    perfReadBufferNbytes m n =
      if u64 (m.dataHead - m.dataTail) < n then none
      else some (copyOut m.data m.pageSize m.dataTail n,
        { m with dataTail := u64 (m.dataTail + n) }) := by
  unfold perfReadBufferNbytes PerfMmap.pageSize
  simp only [PerfPage.readBufferNbytes_eq (m.small.trans (by decide))]
  by_cases havail : u64 (m.dataHead - m.dataTail) < n
  · simp only [if_pos havail]
    rfl
  · simp only [if_neg havail]
    rfl

end Trace4J.Perf
