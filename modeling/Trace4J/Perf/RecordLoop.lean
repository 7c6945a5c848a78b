import Trace4J.Perf.RingBuffer

/-!
# Which buffers the record loop reads right

Every read takes the next bytes of the unread part, wherever the ring wraps. A record of
another type is skipped as a whole. Of a sample record the reader takes 28 bytes after the
header: it does not step over the time stamp, so it hands the time over as the address and
the low half of the address as the processor, and the next header is read from the middle
of the record.
-/

namespace Trace4J.Perf
open Library

variable {m : PerfMmap} {n : ℕ} {xs ys : List UInt8}

/-! ## Reading the unread part -/

theorem Pending.advance (h : Pending m (xs ++ ys)) (hn : xs.length = n) :
    Pending { m with dataTail := m.dataTail + n } ys := by
  have hhead := h.head
  have hroom := h.room
  rw [List.length_append, hn] at hhead hroom
  refine ⟨?_, h.word, ?_, ?_⟩
  · simp only
    omega
  · exact le_trans (Nat.le_add_left _ _) hroom
  · have hwindow := h.window.drop n
    rwa [← hn, List.drop_left, hn] at hwindow

theorem Pending.u64_tail (h : Pending m (xs ++ ys)) (hn : xs.length = n) :
    u64 (m.dataTail + n) = m.dataTail + n := by
  have hhead := h.head
  have hword := h.word
  rw [List.length_append, hn] at hhead
  unfold u64
  omega

theorem perfReadBufferNbytes_eq (h : Pending m (xs ++ ys)) (hn : xs.length = n) :
    perfReadBufferNbytes m n = some (xs, { m with dataTail := m.dataTail + n }) := by
  have hhead := h.head
  have hword := h.word
  rw [List.length_append, hn] at hhead
  have havail : ¬u64 (m.dataHead - m.dataTail) < n := by
    unfold u64
    omega
  have hcopy : copyOut m.data m.pageSize m.dataTail n = xs := by
    rw [h.window.copyOut_eq (by rw [List.length_append]; omega) h.room, ← hn, List.take_left]
  rw [perfReadBufferNbytes_eq_copyOut, if_neg havail, h.u64_tail hn, hcopy]

theorem copySampleData_eq {sampleType flag k x : ℕ} (hflag : sampleType &&& flag ≠ 0) (old : ℕ)
    (h : Pending m (leBytes k x ++ ys)) :
    copySampleData sampleType flag m k old =
      some (x % 256 ^ k, { m with dataTail := m.dataTail + k }) := by
  rw [copySampleData, if_pos hflag, perfReadBufferNbytes_eq h (length_leBytes k x)]
  simp only [Option.map_some, leNat_leBytes]

theorem length_headerBytes (type : UInt32) (misc : UInt16) (size : ℕ) :
    (headerBytes type misc size).length = sizeofHeader := by
  simp [headerBytes, sizeofHeader]

theorem perfReadHeader_eq {type : UInt32} {misc : UInt16} {size : ℕ} (hsize : size < 2 ^ 16)
    (h : Pending m (headerBytes type misc size ++ ys)) :
    perfReadHeader m = some (⟨type.toNat, misc.toNat, size⟩,
      { m with dataTail := m.dataTail + sizeofHeader }) := by
  have htype : leNat ((headerBytes type misc size).take 4) = type.toNat := by
    rw [headerBytes, List.append_assoc, List.take_left' (length_leBytes _ _)]
    exact leNat_leBytes_of_lt type.toNat_lt
  have hmisc : leNat (((headerBytes type misc size).drop 4).take 2) = misc.toNat := by
    rw [headerBytes, List.append_assoc, List.drop_left' (length_leBytes _ _),
      List.take_left' (length_leBytes _ _)]
    exact leNat_leBytes_of_lt misc.toNat_lt
  have hsize' : leNat ((headerBytes type misc size).drop 6) = size := by
    rw [headerBytes, List.drop_left' (by simp)]
    exact leNat_leBytes_of_lt hsize
  rw [perfReadHeader, perfReadBufferNbytes_eq h (length_headerBytes _ _ _)]
  simp only [Option.map_some, htype, hmisc, hsize']

theorem perfNumOfRemainingData_eq (h : Pending m xs) : perfNumOfRemainingData m = xs.length := by
  have hhead := h.head
  have hword := h.word
  have hroom := h.room
  have hpage : m.pageSize ≤ 2 ^ 30 :=
    Nat.pow_le_pow_right (by decide) (Nat.le_of_lt_succ m.small)
  unfold perfNumOfRemainingData toInt u64
  split_ifs <;> omega

theorem perfSkipBufferNbytes_eq (h : Pending m (xs ++ ys)) (hn : xs.length = n) :
    perfSkipBufferNbytes m n = { m with dataTail := m.dataTail + n } := by
  have hhead := h.head
  rw [List.length_append, hn] at hhead
  unfold perfSkipBufferNbytes
  rw [h.u64_tail hn, if_neg (by omega)]
  simp only [h.u64_tail hn]

/-! ## One turn -/

theorem turn_of_header {sampleType : ℕ} {type : UInt32} {misc : UInt16} {size : ℕ}
    (hsize : size < 2 ^ 16) (h : Pending m (headerBytes type misc size ++ ys)) :
    turn sampleType m = takeRecord sampleType m.dataTail ⟨type.toNat, misc.toNat, size⟩
      { m with dataTail := m.dataTail + sizeofHeader } := by
  have hremaining := perfNumOfRemainingData_eq h
  rw [List.length_append, length_headerBytes] at hremaining
  have hpos : ¬perfNumOfRemainingData m ≤ 0 := by
    rw [hremaining]
    unfold sizeofHeader
    omega
  have hheader : ¬perfNumOfRemainingData m < sizeofHeader := by
    rw [hremaining]
    omega
  simp only [turn, if_neg hpos, if_neg hheader, perfReadHeader_eq hsize h]

theorem turn_other {sampleType : ℕ} {r : OtherRecord}
    (h : Pending m (Record.bytes sampleType (.other r) ++ ys)) : ∃ t m',
    turn sampleType m = .turned t m' ∧ t.Takes sampleType m.dataTail (.other r) ∧
      Pending m' ys ∧ m'.dataTail = m.dataTail + (Record.other r).size sampleType := by
  have hsize : (Record.other r).size sampleType < 2 ^ 16 := r.fits
  rw [Record.bytes, List.append_assoc] at h
  have hafter := h.advance (length_headerBytes _ _ _)
  have hskip : perfSkipRecord { m with dataTail := m.dataTail + sizeofHeader }
      ⟨r.type.toNat, r.misc.toNat, (Record.other r).size sampleType⟩ =
      { m with dataTail := m.dataTail + (Record.other r).size sampleType } := by
    have hn : u64 (((Record.other r).size sampleType : ℕ) - (sizeofHeader : ℕ)) =
        r.payload.length := by
      unfold u64
      simp only [Record.size, Record.body, sizeofHeader] at hsize ⊢
      omega
    rw [perfSkipRecord, hn, perfSkipBufferNbytes_eq hafter rfl]
    simp only [Record.size, Record.body, Nat.add_assoc]
  have hne : (Record.other r).size sampleType ≠ 0 := by
    simp only [Record.size, sizeofHeader]
    omega
  rw [turn_of_header hsize h]
  simp only [takeRecord, if_neg r.notSample, if_neg hne, hskip]
  refine ⟨_, _, rfl, ⟨rfl, rfl, rfl⟩, ?_, rfl⟩
  have hdone := hafter.advance rfl
  simpa only [Record.size, Record.body, Nat.add_assoc] using hdone

/-! ## A sample record -/

section Sample
variable (threshold : ℕ)

theorem sampleType_eq : (perfAttrInit threshold perfSampleTid).sampleType = 431 := rfl

theorem sample_body (r : SampleRecord) :
    r.body (perfAttrInit threshold perfSampleTid).sampleType =
      leBytes 8 r.ip.toNat ++ (leBytes 4 r.pid.toNat ++ (leBytes 4 r.tid.toNat ++
        (leBytes 8 r.time.toNat ++ (leBytes 8 r.addr.toNat ++
          (leBytes 4 r.cpu.toNat ++ (leBytes 4 r.res.toNat ++ (leBytes 8 r.period.toNat ++
            (leBytes 8 r.ips.length ++ r.ips.flatMap fun ip => leBytes 8 ip.toNat)))))))) := by
  rw [sampleType_eq]
  simp [SampleRecord.body, fieldIf, perfSampleIp, perfSampleTid, perfSampleTime, perfSampleAddr,
    perfSampleCpu, perfSamplePeriod, perfSampleCallchain]

theorem sample_size (r : SampleRecord) :
    (Record.sample r).size (perfAttrInit threshold perfSampleTid).sampleType =
      64 + 8 * r.ips.length := by
  have hips : (r.ips.flatMap fun ip => leBytes 8 ip.toNat).length = 8 * r.ips.length := by
    simp [List.length_flatMap, mul_comm]
  simp only [Record.size, Record.body, sample_body, sizeofHeader, List.length_append,
    length_leBytes, hips]
  omega

/-- The reader takes 28 bytes: the time stands where it looks for the address. -/
theorem perfReadRecordSample_eq {r : SampleRecord} (d : PerfSampleData)
    (h : Pending m (r.body (perfAttrInit threshold perfSampleTid).sampleType ++ ys)) :
    perfReadRecordSample m (perfAttrInit threshold perfSampleTid).sampleType d =
      some ({ ip := r.ip.toNat, pid := r.pid.toNat, tid := r.tid.toNat, addr := r.time.toNat,
              cpu := r.addr.toNat % 2 ^ 32, isPrecise := d.isPrecise },
        { m with dataTail := m.dataTail + 28 }) := by
  have haddr : leBytes 8 r.addr.toNat =
      leBytes 4 r.addr.toNat ++ leBytes 4 (r.addr.toNat / 256 ^ 4) := leBytes_add 4 4 _
  rw [sample_body, haddr] at h
  simp only [List.append_assoc] at h
  have h₁ := h.advance (length_leBytes _ _)
  have h₂ := h₁.advance (length_leBytes _ _)
  have h₃ := h₂.advance (length_leBytes _ _)
  have h₄ := h₃.advance (length_leBytes _ _)
  have hip : r.ip.toNat % 256 ^ 8 = r.ip.toNat := Nat.mod_eq_of_lt r.ip.toNat_lt
  have hpid : r.pid.toNat % 256 ^ 4 = r.pid.toNat := Nat.mod_eq_of_lt r.pid.toNat_lt
  have htid : r.tid.toNat % 256 ^ 4 = r.tid.toNat := Nat.mod_eq_of_lt r.tid.toNat_lt
  have htime : r.time.toNat % 256 ^ 8 = r.time.toNat := Nat.mod_eq_of_lt r.time.toNat_lt
  have hTid : 431 &&& perfSampleTid ≠ 0 := by decide
  have hAddr : 431 &&& perfSampleAddr ≠ 0 := by decide
  have hCpu : 431 &&& perfSampleCpu ≠ 0 := by decide
  rw [sampleType_eq, perfReadRecordSample, copySampleData_eq (by decide) d.ip h]
  simp only [Option.bind_eq_bind, Option.bind_some, copySampleData_eq hTid d.pid h₁,
    copySampleData_eq hTid d.tid h₂, copySampleData_eq hAddr d.addr h₃,
    copySampleData_eq hCpu d.cpu h₄, hip, hpid, htid, htime]
  rfl

theorem turn_sample {r : SampleRecord}
    (h : Pending m (Record.bytes (perfAttrInit threshold perfSampleTid).sampleType (.sample r) ++
      ys)) :
    ∃ d m', turn (perfAttrInit threshold perfSampleTid).sampleType m =
      .turned ⟨m.dataTail, m.dataTail + 36, some d⟩ m' := by
  have hsize : (Record.sample r).size (perfAttrInit threshold perfSampleTid).sampleType < 2 ^ 16 := by
    rw [sample_size]
    exact r.fits
  rw [Record.bytes, List.append_assoc] at h
  have hread := perfReadRecordSample_eq threshold
    { isPrecise := r.misc.toNat &&& perfRecordMiscExactIp ≠ 0 }
    (h.advance (length_headerBytes _ _ _))
  have htype : (UInt32.ofNat perfRecordSample).toNat = perfRecordSample := rfl
  rw [turn_of_header hsize h]
  simp only [takeRecord, htype, if_pos, hread]
  exact ⟨_, _, rfl⟩

end Sample

/-! ## The loop -/

theorem recordLoop_nil {sampleType : ℕ} (h : Pending m []) (fuel : ℕ) :
    recordLoop sampleType (fuel + 1) m = some ([], m) := by
  have hremaining : perfNumOfRemainingData m ≤ 0 := (perfNumOfRemainingData_eq h).le
  simp only [recordLoop, turn, if_pos hremaining]

theorem recordLoop_turned {sampleType fuel : ℕ} {t : Turn} {m' : PerfMmap}
    (h : turn sampleType m = .turned t m') :
    recordLoop sampleType (fuel + 1) m =
      (recordLoop sampleType fuel m').map fun out => (t :: out.1, out.2) := by
  rw [recordLoop, h]

theorem recordLoop_others {sampleType : ℕ} (records : List Record)
    (hrecords : ∀ r ∈ records, ¬r.IsSample) (m : PerfMmap)
    (h : Pending m (content sampleType records)) :
    ∃ log m', recordLoop sampleType (records.length + 1) m = some (log, m') ∧
      TakesAll sampleType m.dataTail records log := by
  induction records generalizing m with
  | nil => exact ⟨[], m, recordLoop_nil h 0, trivial⟩
  | cons r rs ih =>
    cases r with
    | sample r => exact absurd rfl (hrecords _ List.mem_cons_self)
    | other r =>
      obtain ⟨t, m', hturn, htakes, hpending, htail⟩ := turn_other h
      obtain ⟨log, m'', hloop, hall⟩ :=
        ih (fun r hr => hrecords r (List.mem_cons_of_mem _ hr)) m' hpending
      refine ⟨t :: log, m'', ?_, htakes, ?_⟩
      · rw [List.length_cons, recordLoop_turned hturn, hloop, Option.map_some]
      · rwa [htail] at hall

theorem not_takesAll_of_sample (threshold : ℕ) (records : List Record)
    (hrecords : ∃ r ∈ records, r.IsSample) (m : PerfMmap)
    (h : Pending m (content (perfAttrInit threshold perfSampleTid).sampleType records))
    {fuel : ℕ} {log : List Turn} {m' : PerfMmap}
    (hloop : recordLoop (perfAttrInit threshold perfSampleTid).sampleType fuel m =
      some (log, m')) :
    ¬TakesAll (perfAttrInit threshold perfSampleTid).sampleType m.dataTail records log := by
  induction records generalizing m fuel log with
  | nil => simp at hrecords
  | cons r rs ih =>
    cases fuel with
    | zero => cases hloop
    | succ fuel =>
      cases r with
      | sample r =>
        obtain ⟨d, m₁, hturn⟩ := turn_sample threshold h
        rw [recordLoop_turned hturn, Option.map_eq_some_iff] at hloop
        obtain ⟨out, -, hout⟩ := hloop
        obtain ⟨rfl, -⟩ := Prod.mk.inj hout
        rintro ⟨htakes, -⟩
        have hupTo := htakes.upTo
        rw [sample_size] at hupTo
        simp only at hupTo
        omega
      | other r =>
        obtain ⟨t, m₁, hturn, -, hpending, htail⟩ := turn_other h
        rw [recordLoop_turned hturn, Option.map_eq_some_iff] at hloop
        obtain ⟨⟨log', m₂⟩, hloop', hout⟩ := hloop
        obtain ⟨rfl, rfl⟩ := Prod.mk.inj hout
        rintro ⟨-, hall⟩
        rw [← htail] at hall
        refine ih ?_ m₁ hpending hloop' hall
        obtain ⟨r', hr', hsample⟩ := hrecords
        obtain rfl | hr' := List.mem_cons.mp hr'
        · cases hsample
        · exact ⟨r', hr', hsample⟩

theorem recordLoop_takesAll_iff (threshold : ℕ) (records : List Record) (m : PerfMmap)
    (h : Pending m (content (perfAttrInit threshold perfSampleTid).sampleType records)) :
    (∃ fuel log m', recordLoop (perfAttrInit threshold perfSampleTid).sampleType fuel m =
        some (log, m') ∧
      TakesAll (perfAttrInit threshold perfSampleTid).sampleType m.dataTail records log) ↔
      ∀ r ∈ records, ¬r.IsSample := by
  constructor
  · rintro ⟨fuel, log, m', hloop, hall⟩ r hr hsample
    exact not_takesAll_of_sample threshold records ⟨r, hr, hsample⟩ m h hloop hall
  · intro hrecords
    obtain ⟨log, m', hloop, hall⟩ := recordLoop_others records hrecords m h
    exact ⟨_, log, m', hloop, hall⟩

/-! ## A page of records -/

def pageOf (tail : ℕ) (xs : List UInt8) : PerfMmap where
  pageBits := 12
  data offset := xs.getD ((offset + 4096 - tail % 4096) % 4096) 0
  dataHead := tail + xs.length
  dataTail := tail
  small := by decide

theorem pageOf_pending {tail : ℕ} {xs : List UInt8} (hroom : xs.length ≤ 4096)
    (hword : tail + xs.length < 2 ^ 64) : Pending (pageOf tail xs) xs := by
  refine ⟨rfl, hword, hroom, ?_⟩
  intro j x hx
  obtain ⟨hj, -⟩ := List.getElem?_eq_some_iff.mp hx
  have hoffset : ((tail + j) % 4096 + 4096 - tail % 4096) % 4096 = j := by omega
  change xs.getD (((tail + j) % 4096 + 4096 - tail % 4096) % 4096) 0 = x
  rw [hoffset, List.getD_eq_getElem?_getD, hx, Option.getD_some]

def otherRecords : List Record :=
  [.other ⟨4, 0, List.replicate 24 1, by decide, by decide⟩,
    .other ⟨2, 0, List.replicate 16 2, by decide, by decide⟩]

theorem recordLoop_otherRecords :
    ∃ fuel log m', recordLoop (perfAttrInit 1000 perfSampleTid).sampleType fuel
        (pageOf 4060 (content (perfAttrInit 1000 perfSampleTid).sampleType otherRecords)) =
        some (log, m') ∧
      TakesAll (perfAttrInit 1000 perfSampleTid).sampleType 4060 otherRecords log :=
  (recordLoop_takesAll_iff 1000 otherRecords _
    (pageOf_pending (by decide) (by decide))).mpr (by decide)

def sampleRecord : SampleRecord where
  misc := 2
  ip := 0x7f00001000
  pid := 41
  tid := 42
  time := 5000
  addr := 0x8000
  cpu := 3
  res := 0
  period := 1000
  ips := []
  fits := by decide

/-- One sample record gives two turns, the second on bytes inside it, and the callback gets
the time as the address and the address as the processor. -/
theorem recordLoop_sampleRecord :
    let sampleType := (perfAttrInit 1000 perfSampleTid).sampleType
    let m := pageOf 0 (content sampleType [.sample sampleRecord])
    Pending m (content sampleType [.sample sampleRecord]) ∧
      (recordLoop sampleType 3 m).map Prod.fst = some
        [⟨0, 36, some ⟨0x7f00001000, 41, 42, 5000, 0x8000, false⟩⟩, ⟨36, 64, none⟩] ∧
      ¬∃ fuel log m', recordLoop sampleType fuel m = some (log, m') ∧
        TakesAll sampleType m.dataTail [.sample sampleRecord] log := by
  intro sampleType m
  have hpending : Pending m (content sampleType [.sample sampleRecord]) :=
    pageOf_pending (by decide) (by decide)
  refine ⟨hpending, by decide +kernel, ?_⟩
  rintro ⟨fuel, log, m', hloop, hall⟩
  exact not_takesAll_of_sample 1000 _ ⟨_, List.mem_cons_self, rfl⟩ m hpending hloop hall

end Trace4J.Perf
