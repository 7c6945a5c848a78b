import Trace4J.Perf.StreamRead

/-!
# The buffer of a watchpoint

Each slot maps one page of records of its event. `WP_CollectTriggerInfo` takes the address of a
trap from it, and throws away what else is there. The kernel writes a record as a whole, or not at
all when the page has no room. Its counters are 64-bit words.
-/

namespace Trace4J.Profiler.WatchpointBuffer
open Library Perf

def readMmapBuffer (pgsz : ℕ) (m : PerfPage) (sz : ℕ) : Option (List UInt8 × PerfPage) :=
  let pgmsk := pgsz - 1
  let tail := m.dataTail &&& pgmsk
  m.copyNbytes tail (pgmsk + 1 - tail) sz

def consumeAllRingBufferData (m : PerfPage) : PerfPage := { m with dataTail := m.dataHead }

/-- What the callback is told: `pc` and `pcPrecise`. -/
structure Trigger where
  pc : ℕ
  pcPrecise : Bool
deriving DecidableEq, Repr

/-- `WP_CollectTriggerInfo`; `none` drops the sample. -/
def collectTriggerInfo (pgsz : ℕ) (m : PerfPage) : Option Trigger × PerfPage :=
  match readMmapBuffer pgsz m sizeofHeader with
  | none => (none, m)
  | some (hdr, m) =>
    if leNat (hdr.take 4) = perfRecordSample then
      match readMmapBuffer pgsz m 8 with
      | none => (none, m)
      | some (preciseIP, m) =>
        (some ⟨leNat preciseIP, leNat ((hdr.drop 4).take 2) &&& perfRecordMiscExactIp ≠ 0⟩,
          consumeAllRingBufferData m)
    else (none, consumeAllRingBufferData m)

/-- The kernel writes a record behind the head, and keeps one byte of the page free. -/
def perfOutput (pgsz : ℕ) (bytes : List UInt8) (m : PerfPage) : PerfPage :=
  if u64 (m.dataHead - m.dataTail) + bytes.length < pgsz then
    { m with
      data := storeAt m.data pgsz m.dataHead bytes
      dataHead := u64 (m.dataHead + bytes.length) }
  else m

inductive Event
  | record (r : Record)
  | trap

/-- What the callbacks of the traps are told, one after another. -/
def collected (pgsz : ℕ) : List Event → PerfPage → List (Option Trigger)
  | [], _ => []
  | .record r :: events, m => collected pgsz events (perfOutput pgsz (r.bytes perfSampleIp) m)
  | .trap :: events, m =>
    (collectTriggerInfo pgsz m).1 :: collected pgsz events (collectTriggerInfo pgsz m).2

/-! ## The mailbox -/

def trigger : Record → Option Trigger
  | .sample r => some ⟨r.ip.toNat, r.misc.toNat &&& perfRecordMiscExactIp ≠ 0⟩
  | .other _ => none

/-- A trap is told what the first record says that has come since the last trap. -/
def mailbox (pgsz : ℕ) : List Event → List Record → List (Option Trigger)
  | [], _ => []
  | .record r :: events, box =>
    mailbox pgsz events (if (content perfSampleIp box).length + r.size perfSampleIp < pgsz
      then box ++ [r] else box)
  | .trap :: events, box => box.head?.bind trigger :: mailbox pgsz events []

/-! ## The unread bytes -/

structure Unread (pgsz : ℕ) (m : PerfPage) (xs : List UInt8) : Prop where
  tail : m.dataTail < 2 ^ 64
  head : m.dataHead = (m.dataTail + xs.length) % 2 ^ 64
  room : xs.length ≤ pgsz
  window : Window m.data pgsz m.dataTail xs

section Unread
variable {bits : ℕ} {m : PerfPage} {xs ys : List UInt8} {r : Record} {n : ℕ}

theorem Unread.available (h : Unread (2 ^ bits) m xs) (hbits : bits < 64) :
    u64 (m.dataHead - m.dataTail) = xs.length := by
  have hlt : 2 ^ bits < 2 ^ 64 := Nat.pow_lt_pow_right (by decide) hbits
  have hroom := h.room
  have htail := h.tail
  rw [h.head]
  unfold u64
  omega

theorem mod_word_mod (hbits : bits < 64) (a : ℕ) : a % 2 ^ 64 % 2 ^ bits = a % 2 ^ bits :=
  Nat.mod_mod_of_dvd a (two_pow_dvd_word hbits)

theorem readMmapBuffer_eq (m : PerfPage) (n : ℕ) :
    readMmapBuffer (2 ^ bits) m n =
      if u64 (m.dataHead - m.dataTail) < n then none
      else some (copyOut m.data (2 ^ bits) m.dataTail n,
        { m with dataTail := u64 (m.dataTail + n) }) := by
  have hmask : m.dataTail &&& (2 ^ bits - 1) = m.dataTail % 2 ^ bits :=
    Nat.and_two_pow_sub_one_eq_mod _ _
  have hsize : 2 ^ bits - 1 + 1 = 2 ^ bits := Nat.sub_add_cancel Nat.one_le_two_pow
  rw [← m.copyNbytes_eq, readMmapBuffer, hmask, hsize]

theorem Unread.read (h : Unread (2 ^ bits) m (xs ++ ys)) (hbits : bits < 64)
    (hn : xs.length = n) : ∃ m', readMmapBuffer (2 ^ bits) m n = some (xs, m') ∧
      Unread (2 ^ bits) m' ys := by
  have havail := h.available hbits
  have hhead := h.head
  have hroom := h.room
  rw [List.length_append, hn] at havail hhead hroom
  have hword : u64 (m.dataTail + n) = (m.dataTail + n) % 2 ^ 64 := by
    unfold u64
    omega
  have hcopy : copyOut m.data (2 ^ bits) m.dataTail n = xs := by
    rw [h.window.copyOut_eq (by rw [List.length_append]; omega) h.room, ← hn, List.take_left]
  refine ⟨{ m with dataTail := u64 (m.dataTail + n) }, ?_, ?_, ?_, by omega, ?_⟩
  · rw [readMmapBuffer_eq, havail, if_neg (Nat.not_lt.mpr (Nat.le_add_right n ys.length)), hcopy]
  · rw [hword]
    exact Nat.mod_lt _ (by decide)
  · simp only [hword, hhead, Nat.mod_add_mod, Nat.add_assoc]
  · have hdrop := h.window.drop n
    rw [← hn, List.drop_left, hn] at hdrop
    exact hdrop.congr (by rw [hword, mod_word_mod hbits])

theorem Unread.refuse (h : Unread (2 ^ bits) m xs) (hbits : bits < 64) (hn : xs.length < n) :
    readMmapBuffer (2 ^ bits) m n = none := by
  rw [readMmapBuffer_eq, h.available hbits, if_pos hn]

theorem Unread.consume (h : Unread (2 ^ bits) m xs) :
    Unread (2 ^ bits) (consumeAllRingBufferData m) [] := by
  have hlt : m.dataHead < 2 ^ 64 := by
    rw [h.head]
    exact Nat.mod_lt _ (by decide)
  exact ⟨hlt, (Nat.mod_eq_of_lt hlt).symm, Nat.zero_le _, fun j x hx => by simp at hx⟩

theorem Unread.output (h : Unread (2 ^ bits) m xs) (hbits : bits < 64) (ys : List UInt8) :
    Unread (2 ^ bits) (perfOutput (2 ^ bits) ys m)
      (if xs.length + ys.length < 2 ^ bits then xs ++ ys else xs) := by
  unfold perfOutput
  rw [h.available hbits]
  split_ifs with hroom
  · have hhead := h.head
    have hword : u64 (m.dataHead + ys.length) = (m.dataHead + ys.length) % 2 ^ 64 := by
      unfold u64
      omega
    refine ⟨h.tail, ?_, ?_, ?_⟩
    · change u64 (m.dataHead + ys.length) = (m.dataTail + (xs ++ ys).length) % 2 ^ 64
      rw [hword, hhead, Nat.mod_add_mod, Nat.add_assoc, List.length_append]
    · rw [List.length_append]
      exact hroom.le
    · have hstore := h.window.store hroom.le
      have hplace : storeAt m.data (2 ^ bits) (m.dataTail + xs.length) ys =
          storeAt m.data (2 ^ bits) m.dataHead ys := by
        funext k
        unfold storeAt
        rw [hhead, mod_word_mod hbits]
      rw [hplace] at hstore
      exact hstore
  · exact h

theorem collect_empty (h : Unread (2 ^ bits) m []) (hbits : bits < 64) :
    collectTriggerInfo (2 ^ bits) m = (none, m) := by
  rw [collectTriggerInfo, h.refuse hbits (by decide)]

theorem take_headerBytes (type : UInt32) (misc : UInt16) (size : ℕ) :
    leNat ((headerBytes type misc size).take 4) = type.toNat ∧
      leNat (((headerBytes type misc size).drop 4).take 2) = misc.toNat := by
  rw [headerBytes, List.append_assoc, List.take_left' (length_leBytes _ _),
    List.drop_left' (length_leBytes _ _), List.take_left' (length_leBytes _ _)]
  exact ⟨leNat_leBytes_of_lt type.toNat_lt, leNat_leBytes_of_lt misc.toNat_lt⟩

/-- The first record is told, and nothing is left. -/
theorem collect_first (h : Unread (2 ^ bits) m (r.bytes perfSampleIp ++ ys)) (hbits : bits < 64) :
    (collectTriggerInfo (2 ^ bits) m).1 = trigger r ∧
      Unread (2 ^ bits) (collectTriggerInfo (2 ^ bits) m).2 [] := by
  have hlen : ∀ (type : UInt32) (misc : UInt16) (size : ℕ),
      (headerBytes type misc size).length = sizeofHeader := by
    intro type misc size
    simp [headerBytes, sizeofHeader]
  unfold collectTriggerInfo
  cases r with
  | sample r =>
    have hbody : r.body perfSampleIp = leBytes 8 r.ip.toNat := by
      simp [SampleRecord.body, fieldIf, perfSampleIp, perfSampleTid, perfSampleTime,
        perfSampleAddr, perfSampleCpu, perfSamplePeriod, perfSampleCallchain]
    rw [Record.bytes, hbody, List.append_assoc] at h
    obtain ⟨m₁, hread₁, h₁⟩ := h.read hbits (hlen _ _ _)
    obtain ⟨m₂, hread₂, h₂⟩ := h₁.read hbits (length_leBytes 8 r.ip.toNat)
    obtain ⟨htype, hmisc⟩ := take_headerBytes (.ofNat perfRecordSample) r.misc
      (Record.size perfSampleIp (.sample r))
    have hsample : (UInt32.ofNat perfRecordSample).toNat = perfRecordSample := rfl
    have hip : leNat (leBytes 8 r.ip.toNat) = r.ip.toNat :=
      leNat_leBytes_of_lt (r.ip.toNat_lt.trans_eq (by decide))
    rw [hread₁]
    simp only [htype, hsample, if_true, hread₂, hmisc, hip, trigger]
    exact ⟨trivial, h₂.consume⟩
  | other r =>
    rw [Record.bytes, List.append_assoc] at h
    obtain ⟨m₁, hread₁, h₁⟩ := h.read hbits (hlen _ _ _)
    obtain ⟨htype, -⟩ := take_headerBytes r.type r.misc (Record.size perfSampleIp (.other r))
    rw [hread₁]
    simp only [htype, if_neg r.notSample]
    exact ⟨rfl, h₁.consume⟩

theorem length_bytes (r : Record) : (r.bytes perfSampleIp).length = r.size perfSampleIp := by
  cases r with
  | sample r =>
    simp only [Record.bytes, Record.size, Record.body, headerBytes, sizeofHeader,
      List.length_append, length_leBytes]
  | other r =>
    simp only [Record.bytes, Record.size, Record.body, headerBytes, sizeofHeader,
      List.length_append, length_leBytes]

theorem collected_eq_mailbox (hbits : bits < 64) (events : List Event) {box : List Record}
    (h : Unread (2 ^ bits) m (content perfSampleIp box)) :
    collected (2 ^ bits) events m = mailbox (2 ^ bits) events box := by
  induction events generalizing m box with
  | nil => rfl
  | cons e events ih =>
    cases e with
    | record r =>
      refine ih ?_
      have hout := h.output hbits (r.bytes perfSampleIp)
      rw [length_bytes] at hout
      split_ifs at hout ⊢
      · rwa [content, List.flatMap_append, List.flatMap_singleton]
      · exact hout
    | trap =>
      rw [collected, mailbox]
      cases box with
      | nil =>
        rw [collect_empty h hbits]
        exact congrArg _ (ih h)
      | cons r box =>
        rw [content, List.flatMap_cons] at h
        obtain ⟨htrigger, hempty⟩ := collect_first h hbits
        exact congrArg₂ _ htrigger (ih hempty)

end Unread

/-- Whatever records come between the traps, and however the page and the counters wrap: a callback
is told of the first record since the last trap, and never of an older one. -/
theorem traps_told_first (bits : ℕ) (hbits : bits < 64) (data : ℕ → UInt8) (pos : ℕ)
    (hpos : pos < 2 ^ 64) (events : List Event) :
    collected (2 ^ bits) events ⟨data, pos, pos⟩ = mailbox (2 ^ bits) events [] :=
  collected_eq_mailbox hbits events
    ⟨hpos, (Nat.mod_eq_of_lt hpos).symm, Nat.zero_le _, fun j x hx => by simp [content] at hx⟩

def sampleAt (ip : UInt64) (misc : UInt16) : Record :=
  .sample ⟨misc, ip, 0, 0, 0, 0, 0, 0, 0, [], Nat.le_of_ble_eq_true rfl⟩

/-- The records run over the end of the page and of the counters; the third finds no room. -/
theorem traps_told_first_wrapped :
    collected (2 ^ 5) [.record (sampleAt 0x401000 0x4002), .record (sampleAt 0x402000 2),
        .record (sampleAt 0x403000 2), .trap, .trap, .record (sampleAt 0x404000 2), .trap]
      ⟨fun _ => 0, 2 ^ 64 - 12, 2 ^ 64 - 12⟩ =
    [some ⟨0x401000, true⟩, none, some ⟨0x404000, false⟩] :=
  (traps_told_first 5 (by decide) _ _ (by decide) _).trans (by decide)

end Trace4J.Profiler.WatchpointBuffer
