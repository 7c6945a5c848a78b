import Mathlib.Logic.Relation
import Trace4J.Perf.RingBuffer

/-!
# Progress of the record loop

What the loop does on a page with any content whatsoever. Every operation of a turn takes
`data_tail` forward, up to `data_head` at most, unless the end of a record of another type
lies behind the end of the 64-bit counters: then the sum in `perf_skip_buffer_nbytes` is
small, the bytes are not cut down to what is left, and `data_tail` passes `data_head`.
-/

namespace Trace4J.Perf
open Library Relation

/-! ## What the loop should keep -/

def unread (m : PerfMmap) : ℕ := u64 (m.dataHead - m.dataTail)

def sampleFields : List (ℕ × ℕ) :=
  [(perfSampleIp, 8), (perfSampleTid, 4), (perfSampleTid, 4), (perfSampleAddr, 8),
    (perfSampleCpu, 4)]

/-- The page after each read of a field, up to the first one that fails. -/
def fieldStates (sampleType : ℕ) : List (ℕ × ℕ) → PerfMmap → List PerfMmap
  | [], _ => []
  | (flag, size) :: fields, m =>
    if sampleType &&& flag ≠ 0 then
      match perfReadBufferNbytes m size with
      | none => []
      | some (_, m') => m' :: fieldStates sampleType fields m'
    else fieldStates sampleType fields m

def turnStates (sampleType : ℕ) (m : PerfMmap) : List PerfMmap :=
  match perfReadHeader m with
  | none => []
  | some (ehdr, m') =>
    m' :: if ehdr.type = perfRecordSample then fieldStates sampleType sampleFields m'
      else [if ehdr.size = 0 then perfSkipAll m' else perfSkipRecord m' ehdr]

/-- From the start of a record at `a`, `data_tail` has moved on and not past `data_head`. -/
def Advances (a b : PerfMmap) : Prop :=
  b.dataHead = a.dataHead ∧ 0 < u64 (b.dataTail - a.dataTail) ∧
    u64 (b.dataTail - a.dataTail) ≤ unread a

def Reaches (sampleType : ℕ) : PerfMmap → PerfMmap → Prop :=
  ReflTransGen fun a b => ∃ t, turn sampleType a = .turned t b

structure LoopKeeps (sampleType : ℕ) (m : PerfMmap) : Prop where
  ends : (∃ a, Reaches sampleType m a ∧ turn sampleType a = .failed) ∨
    ∃ fuel log b, recordLoop sampleType fuel m = some (log, b) ∧ b.dataTail = b.dataHead
  moves : ∀ a, Reaches sampleType m a → ∀ b ∈ turnStates sampleType a, Advances a b

/-- The record at `m` is to be skipped, and its end is behind the end of the counters
although `data_head` is not. -/
def ClampWraps (m : PerfMmap) : Prop :=
  ∃ ehdr m', perfReadHeader m = some (ehdr, m') ∧ ehdr.type ≠ perfRecordSample ∧
    sizeofHeader ≤ ehdr.size ∧ m'.dataTail ≤ m'.dataHead ∧
    2 ^ 64 ≤ m'.dataTail + (ehdr.size - sizeofHeader)

variable {sampleType n k l : ℕ} {m m' a b : PerfMmap} {bytes : List UInt8}

/-! ## The turn and its operations -/

theorem fieldStates_copy {flag size old x : ℕ} {fields : List (ℕ × ℕ)}
    (h : copySampleData sampleType flag m size old = some (x, m')) :
    (fieldStates sampleType ((flag, size) :: fields) m).getLastD m =
      (fieldStates sampleType fields m').getLastD m' := by
  unfold copySampleData at h
  rw [fieldStates]
  split_ifs at h ⊢ with hflag
  · cases hread : perfReadBufferNbytes m size with
    | none => simp [hread] at h
    | some read =>
      rw [hread, Option.map_some, Option.some.injEq, Prod.mk.injEq] at h
      rw [← h.2, List.getLastD_cons]
  · rw [Option.some.injEq, Prod.mk.injEq] at h
    rw [h.2]

theorem perfReadRecordSample_states {d d' : PerfSampleData}
    (h : perfReadRecordSample m sampleType d = some (d', m')) :
    (fieldStates sampleType sampleFields m).getLastD m = m' := by
  simp only [perfReadRecordSample, Option.bind_eq_bind, Option.bind_eq_some_iff,
    Option.some.injEq] at h
  obtain ⟨⟨ip, m₁⟩, h₁, ⟨pid, m₂⟩, h₂, ⟨tid, m₃⟩, h₃, ⟨addr, m₄⟩, h₄, ⟨cpu, m₅⟩, h₅, h⟩ := h
  rw [sampleFields, fieldStates_copy h₁, fieldStates_copy h₂, fieldStates_copy h₃,
    fieldStates_copy h₄, fieldStates_copy h₅]
  exact (Prod.mk.inj h).2

theorem turnStates_getLast {t : Turn} (h : turn sampleType m = .turned t m') :
    (turnStates sampleType m).getLast? = some m' := by
  unfold turn at h
  dsimp only at h
  split_ifs at h
  unfold turnStates
  cases hheader : perfReadHeader m with
  | none => simp [hheader] at h
  | some read =>
    rw [hheader] at h
    dsimp only [takeRecord] at h ⊢
    split_ifs at h ⊢ with hsample hsize
    · split at h
      · cases h
      · next d m₁ hread =>
        obtain ⟨-, rfl⟩ := Next.turned.inj h
        rw [List.getLast?_cons, ← List.getLastD_eq_getLast?, perfReadRecordSample_states hread]
    · obtain ⟨-, rfl⟩ := Next.turned.inj h
      rfl
    · obtain ⟨-, rfl⟩ := Next.turned.inj h
      rfl

/-! ## Moving forward -/

/-- The counters are 64-bit words, and no more is unread than fits the page. -/
structure Words (m : PerfMmap) : Prop where
  tail : m.dataTail < 2 ^ 64
  head : m.dataHead < 2 ^ 64
  room : unread m ≤ m.pageSize

def Forward (k : ℕ) (a b : PerfMmap) : Prop :=
  k ≤ unread a ∧ b = { a with dataTail := u64 (a.dataTail + k) }

theorem Words.unread_lt (h : Words m) : unread m < 2 ^ 31 := by
  have hpage : m.pageSize ≤ 2 ^ 30 :=
    Nat.pow_le_pow_right (by decide) (Nat.le_of_lt_succ m.small)
  have hroom := h.room
  omega

theorem Forward.unread_eq (h : Forward k a b) (ha : Words a) : unread b = unread a - k := by
  obtain ⟨hk, rfl⟩ := h
  have htail := ha.tail
  have hhead := ha.head
  unfold unread u64 at *
  dsimp only
  omega

theorem Forward.words (h : Forward k a b) (ha : Words a) : Words b := by
  have hunread := h.unread_eq ha
  obtain ⟨hk, rfl⟩ := h
  refine ⟨?_, ha.head, ?_⟩
  · unfold u64
    dsimp only
    omega
  · rw [hunread]
    exact (Nat.sub_le _ _).trans ha.room

theorem Forward.advances (h : Forward k a b) (ha : Words a) (hk : 0 < k) : Advances a b := by
  have hlt := ha.unread_lt
  have htail := ha.tail
  obtain ⟨hle, rfl⟩ := h
  have hmove : u64 ((u64 (a.dataTail + k) : ℕ) - a.dataTail) = k := by
    unfold u64
    omega
  refine ⟨rfl, ?_⟩
  dsimp only
  rw [hmove]
  exact ⟨hk, hle⟩

theorem Forward.trans {c : PerfMmap} (h : Forward k a b) (hb : Forward l b c) (ha : Words a) :
    Forward (k + l) a c := by
  have hunread := h.unread_eq ha
  obtain ⟨hk, rfl⟩ := h
  obtain ⟨hl, rfl⟩ := hb
  refine ⟨by omega, ?_⟩
  have hsum : u64 ((u64 (a.dataTail + k) : ℕ) + l) = u64 (a.dataTail + (k + l : ℕ)) := by
    unfold u64
    omega
  dsimp only
  rw [hsum]

theorem forward_of_read (h : perfReadBufferNbytes m n = some (bytes, m')) :
    Forward n m m' ∧ bytes.length = n := by
  rw [perfReadBufferNbytes_eq_copyOut] at h
  split_ifs at h with havail
  obtain ⟨rfl, rfl⟩ := Prod.mk.inj (Option.some.inj h)
  exact ⟨⟨not_lt.mp havail, rfl⟩, length_copyOut⟩

theorem perfNumOfRemainingData_of_words (h : Words m) : perfNumOfRemainingData m = unread m := by
  have hlt := h.unread_lt
  change toInt (unread m) = unread m
  unfold toInt
  rw [Nat.mod_eq_of_lt (by omega), if_pos hlt]

/-! ## Skipping -/

theorem forward_of_skipAll (h : Words m) : Forward (unread m) m (perfSkipAll m) := by
  have hlt := h.unread_lt
  have htail := h.tail
  have hhead := h.head
  have hend : u64 (m.dataTail + unread m) = m.dataHead := by
    unfold unread u64
    omega
  have hkeep : u64 (unread m) = unread m := by
    unfold u64
    omega
  refine ⟨le_rfl, ?_⟩
  unfold perfSkipAll
  dsimp only
  rw [perfNumOfRemainingData_of_words h]
  split_ifs with hpos
  · unfold perfSkipBufferNbytes
    simp only [hkeep, hend, lt_irrefl, if_false]
  · have hnone : unread m = 0 := by omega
    have hsame : m.dataTail = m.dataHead := by
      unfold unread u64 at hnone
      omega
    cases m
    rw [hend]
    exact congrArg (fun tail => PerfMmap.mk ⟨_, _, tail⟩ _ _) hsame

theorem forward_of_tail {tail : ℕ} (hm : Words m) (htail : tail < 2 ^ 64)
    (hle : u64 (tail - m.dataTail) ≤ unread m) :
    Forward (u64 (tail - m.dataTail)) m { m with dataTail := tail } := by
  have hword := hm.tail
  refine ⟨hle, ?_⟩
  have hback : u64 (m.dataTail + u64 (tail - m.dataTail)) = tail := by
    unfold u64
    omega
  rw [hback]

def skippedTail (head tail size : ℕ) : ℕ :=
  let n := u64 (size - sizeofHeader)
  u64 (tail + if head < u64 (tail + n) then u64 (head - tail) else n)

theorem perfSkipRecord_eq (ehdr : PerfEventHeader) : perfSkipRecord m ehdr =
    { m with dataTail := skippedTail m.dataHead m.dataTail ehdr.size } := by
  unfold perfSkipRecord perfSkipBufferNbytes skippedTail
  rfl

theorem u64_lt (x : ℤ) : u64 x < 2 ^ 64 := by
  unfold u64
  omega

/-- A skip that is right, cut down, or back into the header that was read. -/
theorem skippedTail_forward {head tail size : ℕ} (hhead : head < 2 ^ 64) (htail : tail < 2 ^ 64)
    (hroom : u64 (head - tail) < 2 ^ 31) (hheader : sizeofHeader ≤ u64 (head - tail))
    (hpos : 0 < size) (hlt : size < 2 ^ 16)
    (hclamp : sizeofHeader ≤ size → u64 (tail + sizeofHeader) ≤ head →
      u64 (tail + sizeofHeader) + (size - sizeofHeader) < 2 ^ 64) :
    0 < u64 (skippedTail head (u64 (tail + sizeofHeader)) size - tail) ∧
      u64 (skippedTail head (u64 (tail + sizeofHeader)) size - tail) ≤ u64 (head - tail) := by
  unfold skippedTail u64 sizeofHeader at *
  dsimp only
  split_ifs <;> omega

theorem skippedTail_wrap {head tail size : ℕ} (hhead : head < 2 ^ 64) (htail : tail < 2 ^ 64)
    (hroom : u64 (head - tail) < 2 ^ 31) (hheader : sizeofHeader ≤ u64 (head - tail))
    (hlt : size < 2 ^ 16) (hsize : sizeofHeader ≤ size) (hahead : u64 (tail + sizeofHeader) ≤ head)
    (hwrap : 2 ^ 64 ≤ u64 (tail + sizeofHeader) + (size - sizeofHeader)) :
    u64 (head - tail) < u64 (skippedTail head (u64 (tail + sizeofHeader)) size - tail) := by
  unfold skippedTail u64 sizeofHeader at *
  dsimp only
  split_ifs <;> omega

/-! ## One turn -/

theorem perfReadHeader_spec {ehdr : PerfEventHeader} (h : perfReadHeader m = some (ehdr, m')) :
    Forward sizeofHeader m m' ∧ ehdr.size < 2 ^ 16 := by
  unfold perfReadHeader at h
  rw [Option.map_eq_some_iff] at h
  obtain ⟨⟨bytes, m₁⟩, hread, hout⟩ := h
  obtain ⟨hehdr, rfl⟩ := Prod.mk.inj hout
  obtain ⟨hforward, hlength⟩ := forward_of_read hread
  refine ⟨hforward, ?_⟩
  have hsize := leNat_lt (bytes.drop 6)
  rw [List.length_drop, hlength] at hsize
  rw [← hehdr]
  exact hsize

theorem forward_of_skipped {ehdr : PerfEventHeader} (hm : Words m)
    (h : Forward sizeofHeader m m') (hpos : 0 < ehdr.size) (hlt : ehdr.size < 2 ^ 16)
    (hclamp : sizeofHeader ≤ ehdr.size → m'.dataTail ≤ m'.dataHead →
      m'.dataTail + (ehdr.size - sizeofHeader) < 2 ^ 64) :
    ∃ k, 0 < k ∧ Forward k m (perfSkipRecord m' ehdr) := by
  obtain ⟨hle, rfl⟩ := h
  obtain ⟨hmove, hroom⟩ :=
    skippedTail_forward hm.head hm.tail hm.unread_lt hle hpos hlt hclamp
  rw [perfSkipRecord_eq]
  exact ⟨_, hmove, forward_of_tail hm (u64_lt _) hroom⟩

theorem not_advances_of_wrap {ehdr : PerfEventHeader} (hm : Words m)
    (h : Forward sizeofHeader m m') (hlt : ehdr.size < 2 ^ 16) (hsize : sizeofHeader ≤ ehdr.size)
    (hahead : m'.dataTail ≤ m'.dataHead)
    (hwrap : 2 ^ 64 ≤ m'.dataTail + (ehdr.size - sizeofHeader)) :
    ¬Advances m (perfSkipRecord m' ehdr) := by
  obtain ⟨hle, rfl⟩ := h
  intro hadvances
  have hpast := skippedTail_wrap hm.head hm.tail hm.unread_lt hle hlt hsize hahead hwrap
  rw [perfSkipRecord_eq] at hadvances
  exact hpast.not_ge hadvances.2.2

theorem fieldStates_forward (fields : List (ℕ × ℕ)) (hm : Words m) (h : Forward k m m') :
    ∀ b ∈ fieldStates sampleType fields m', ∃ l, k ≤ l ∧ Forward l m b := by
  induction fields generalizing k m' with
  | nil => exact fun b hb => absurd hb List.not_mem_nil
  | cons field fields ih =>
    rw [fieldStates]
    split_ifs
    · cases hread : perfReadBufferNbytes m' field.2 with
      | none => exact fun b hb => absurd hb List.not_mem_nil
      | some read =>
        have hforward := h.trans (forward_of_read hread).1 hm
        intro b hb
        obtain rfl | hb := List.mem_cons.mp hb
        · exact ⟨_, Nat.le_add_right _ _, hforward⟩
        · obtain ⟨l, hl, hb⟩ := ih hforward b hb
          exact ⟨l, (Nat.le_add_right _ _).trans hl, hb⟩
    · exact ih h

theorem turnStates_forward (hm : Words m) (hclamp : ¬ClampWraps m) :
    ∀ b ∈ turnStates sampleType m, ∃ k, 0 < k ∧ Forward k m b := by
  unfold turnStates
  cases hheader : perfReadHeader m with
  | none => exact fun b hb => absurd hb List.not_mem_nil
  | some read =>
    obtain ⟨ehdr, m'⟩ := read
    obtain ⟨hforward, hlt⟩ := perfReadHeader_spec hheader
    have hheaderPos : 0 < sizeofHeader := by decide
    intro b hb
    obtain rfl | hb := List.mem_cons.mp hb
    · exact ⟨_, hheaderPos, hforward⟩
    split_ifs at hb with hsample hsize
    · obtain ⟨l, hl, hb⟩ := fieldStates_forward sampleFields hm hforward b hb
      exact ⟨l, hheaderPos.trans_le hl, hb⟩
    · rw [List.mem_singleton.mp hb]
      have hall := hforward.trans (forward_of_skipAll (hforward.words hm)) hm
      exact ⟨_, Nat.add_pos_left hheaderPos _, hall⟩
    · rw [List.mem_singleton.mp hb]
      apply forward_of_skipped hm hforward (Nat.pos_of_ne_zero hsize) hlt
      intro hge hahead
      by_contra hwrap
      exact hclamp ⟨ehdr, m', hheader, hsample, hge, hahead, not_lt.mp hwrap⟩

theorem turned_forward {t : Turn} (hm : Words m) (hclamp : ¬ClampWraps m)
    (h : turn sampleType m = .turned t b) : ∃ k, 0 < k ∧ Forward k m b := by
  have hb := List.mem_of_getLast? (turnStates_getLast h)
  exact turnStates_forward hm hclamp b hb

theorem tail_eq_of_unread (hm : Words m) (h : unread m = 0) : m.dataTail = m.dataHead := by
  have htail := hm.tail
  have hhead := hm.head
  unfold unread u64 at h
  omega

theorem tail_eq_of_done (hm : Words m) (h : turn sampleType m = .done b) :
    b.dataTail = b.dataHead := by
  unfold turn at h
  dsimp only at h
  rw [perfNumOfRemainingData_of_words hm] at h
  split_ifs at h with hnone hfew
  · obtain rfl := Next.done.inj h
    exact tail_eq_of_unread hm (by omega)
  · obtain rfl := Next.done.inj h
    have hforward := forward_of_skipAll hm
    exact tail_eq_of_unread (hforward.words hm) (by rw [hforward.unread_eq hm, Nat.sub_self])
  · cases hheader : perfReadHeader m with
    | none => simp [hheader] at h
    | some read =>
      rw [hheader] at h
      dsimp only [takeRecord] at h
      split_ifs at h
      split at h <;> cases h

variable (sampleType) in
/-- A turn fails, ends the loop at `data_head`, or leaves less unread. -/
theorem turn_cases (hm : Words m) (hclamp : ¬ClampWraps m) :
    turn sampleType m = .failed ∨
    (∃ b, turn sampleType m = .done b ∧ b.dataTail = b.dataHead) ∨
    ∃ t b, turn sampleType m = .turned t b ∧ Words b ∧ unread b < unread m := by
  cases hturn : turn sampleType m with
  | failed => exact .inl rfl
  | done b =>
    exact .inr (.inl ⟨b, rfl, tail_eq_of_done hm hturn⟩)
  | turned t b =>
    refine .inr (.inr ⟨t, b, rfl, ?_⟩)
    obtain ⟨k, hk, hforward⟩ := turned_forward hm hclamp hturn
    refine ⟨hforward.words hm, ?_⟩
    have hle := hforward.1
    rw [hforward.unread_eq hm]
    omega

/-! ## The loop -/

theorem loop_ends (hm : Words m) (hclamp : ∀ a, Reaches sampleType m a → ¬ClampWraps a) :
    (∃ a, Reaches sampleType m a ∧ turn sampleType a = .failed) ∨
      ∃ fuel log b, recordLoop sampleType fuel m = some (log, b) ∧ b.dataTail = b.dataHead := by
  induction hn : unread m using Nat.strong_induction_on generalizing m with
  | _ n ih =>
    obtain hfailed | ⟨b, hdone, hend⟩ | ⟨t, b, hturned, hb, hless⟩ :=
      turn_cases sampleType hm (hclamp m .refl)
    · exact .inl ⟨m, .refl, hfailed⟩
    · exact .inr ⟨1, [], b, by rw [recordLoop, hdone], hend⟩
    · obtain ⟨a, hreach, hfailed⟩ | ⟨fuel, log, c, hloop, hend⟩ :=
        ih _ (hn ▸ hless) hb (fun a ha => hclamp a (.head ⟨t, hturned⟩ ha)) rfl
      · exact .inl ⟨a, .head ⟨t, hturned⟩ hreach, hfailed⟩
      · refine .inr ⟨fuel + 1, t :: log, c, ?_, hend⟩
        simp only [recordLoop, hturned, hloop, Option.map_some]

theorem words_of_reaches (hm : Words m) (h : Reaches sampleType m a)
    (hclamp : ∀ b, Reaches sampleType m b → ¬ClampWraps b) : Words a := by
  induction h with
  | refl => exact hm
  | tail hreach hturn ih =>
    obtain ⟨t, hturn⟩ := hturn
    obtain ⟨k, -, hforward⟩ := turned_forward ih (hclamp _ hreach) hturn
    exact hforward.words ih

theorem not_clampWraps_of_advances (ha : Words a)
    (hmoves : ∀ b ∈ turnStates sampleType a, Advances a b) : ¬ClampWraps a := by
  intro h
  obtain ⟨ehdr, m', hheader, hsample, hsize, hahead, hwrap⟩ := h
  obtain ⟨hforward, hlt⟩ := perfReadHeader_spec hheader
  have hpos : ehdr.size ≠ 0 := by
    unfold sizeofHeader at hsize
    omega
  have hin : perfSkipRecord m' ehdr ∈ turnStates sampleType a := by
    unfold turnStates
    rw [hheader]
    simp [hsample, hpos]
  exact not_advances_of_wrap ha hforward hlt hsize hahead hwrap (hmoves _ hin)

theorem no_wrap_of_moves (hm : Words m)
    (hmoves : ∀ a, Reaches sampleType m a → ∀ b ∈ turnStates sampleType a, Advances a b)
    (h : Reaches sampleType m a) : Words a ∧ ¬ClampWraps a := by
  induction h with
  | refl => exact ⟨hm, not_clampWraps_of_advances hm (hmoves m .refl)⟩
  | tail hreach hturn ih =>
    obtain ⟨t, hturn'⟩ := hturn
    obtain ⟨k, -, hforward⟩ := turned_forward ih.1 ih.2 hturn'
    have hwords := hforward.words ih.1
    exact ⟨hwords, not_clampWraps_of_advances hwords (hmoves _ (.tail hreach ⟨t, hturn'⟩))⟩

theorem loopKeeps_of_no_wrap (hm : Words m)
    (hclamp : ∀ a, Reaches sampleType m a → ¬ClampWraps a) : LoopKeeps sampleType m := by
  refine ⟨loop_ends hm hclamp, ?_⟩
  intro a ha b hb
  have hwords := words_of_reaches hm ha hclamp
  obtain ⟨k, hk, hforward⟩ := turnStates_forward hwords (hclamp a ha) b hb
  exact hforward.advances hwords hk

theorem loopKeeps_iff (sampleType : ℕ) (m : PerfMmap) (htail : m.dataTail < 2 ^ 64)
    (hhead : m.dataHead < 2 ^ 64) (hroom : unread m ≤ m.pageSize) :
    LoopKeeps sampleType m ↔ ∀ a, Reaches sampleType m a → ¬ClampWraps a := by
  have hm : Words m := ⟨htail, hhead, hroom⟩
  constructor
  · intro h a ha
    exact (no_wrap_of_moves hm h.moves ha).2
  · exact loopKeeps_of_no_wrap hm

/-! ## Counters away from their end, and at it -/

theorem not_clampWraps_of_head (hhead : m.dataHead + 2 ^ 16 ≤ 2 ^ 64) : ¬ClampWraps m := by
  intro h
  obtain ⟨ehdr, m', hheader, -, -, hahead, hwrap⟩ := h
  obtain ⟨hforward, hlt⟩ := perfReadHeader_spec hheader
  have hsame : m'.dataHead = m.dataHead := by rw [hforward.2]
  omega

theorem no_wrap_of_head (hm : Words m) (hhead : m.dataHead + 2 ^ 16 ≤ 2 ^ 64)
    (h : Reaches sampleType m a) : ¬ClampWraps a := by
  have hkept : Words a ∧ a.dataHead = m.dataHead := by
    induction h with
    | refl => exact ⟨hm, rfl⟩
    | tail _ hturn ih =>
      obtain ⟨t, hturn⟩ := hturn
      have hclamp := not_clampWraps_of_head (ih.2 ▸ hhead)
      obtain ⟨k, -, hforward⟩ := turned_forward ih.1 hclamp hturn
      exact ⟨hforward.words ih.1, by rw [hforward.2, ih.2]⟩
  exact not_clampWraps_of_head (hkept.2 ▸ hhead)

theorem onePage_small : 12 < 31 := by decide

/-- The last eight bytes before the end of the counters, as the header of a record of 16. -/
def lastHeader : PerfMmap where
  pageBits := 12
  data offset := if offset = 4093 then 16 else if offset = 4087 then 1 else 0
  dataHead := 2 ^ 64 - 1
  dataTail := 2 ^ 64 - 9
  small := onePage_small

/-- The loop ends with `data_tail` behind the end of the counters, at 7. -/
theorem not_loopKeeps_lastHeader :
    lastHeader.dataTail ≤ lastHeader.dataHead ∧ unread lastHeader ≤ lastHeader.pageSize ∧
    (recordLoop 0 2 lastHeader).map (fun out => (out.2.dataTail, out.2.dataHead)) =
      some (7, 2 ^ 64 - 1) ∧ ¬LoopKeeps 0 lastHeader := by
  have hroom : unread lastHeader ≤ lastHeader.pageSize := by decide
  refine ⟨by decide, hroom, by decide +kernel, ?_⟩
  intro h
  have hwords : Words lastHeader := ⟨by decide, by decide, hroom⟩
  have hheader : perfReadHeader lastHeader =
      some (⟨1, 0, 16⟩, { lastHeader with dataTail := 2 ^ 64 - 1 }) := rfl
  exact not_clampWraps_of_advances hwords (h.moves lastHeader .refl)
    ⟨_, _, hheader, by decide, by decide, by decide, by decide⟩

def shortRecord : PerfMmap where
  pageBits := 12
  data offset := if offset = 6 then 3 else 1
  dataHead := 40
  dataTail := 0
  small := onePage_small

theorem loopKeeps_shortRecord : LoopKeeps 0 shortRecord :=
  (loopKeeps_iff 0 shortRecord (by decide) (by decide) (by decide)).mpr fun _ ha =>
    no_wrap_of_head ⟨by decide, by decide, by decide⟩ (by decide) ha

end Trace4J.Perf
