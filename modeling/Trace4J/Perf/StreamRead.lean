import Trace4J.Perf.RingBuffer

/-!
# Reading the stream of a ring buffer

`perf_read_buffer_nbytes` with its 32-bit page mask and its 64-bit counters. The kernel's
stream is a function of the position; the counters are positions modulo `2 ^ 64`, and the
byte of a position is kept at the position modulo the capacity.
-/

namespace Trace4J.Perf
open Library

def PerfPage.reads (size : PerfPageSize) : PerfPage → List ℕ → List ReadResult
  | _, [] => []
  | m, n :: ns =>
    let r := m.readBufferNbytes size n
    r :: r.page.reads size ns

/-! ## The stream -/

def streamBytes (stream : ℕ → UInt8) (pos n : ℕ) : List UInt8 :=
  (List.range n).map fun j => stream (pos + j)

structure PerfPage.Holds (capacity : ℕ) (m : PerfPage) (stream : ℕ → UInt8)
    (pos avail : ℕ) : Prop where
  tail : m.dataTail = pos % 2 ^ 64
  head : m.dataHead = (pos + avail) % 2 ^ 64
  room : avail ≤ capacity
  stored : ∀ j < avail, m.data ((pos + j) % capacity) = stream (pos + j)

/-- A request that can be met takes the next bytes; a larger one changes nothing. -/
def Delivers (stream : ℕ → UInt8) : PerfPage → ℕ → ℕ → List ℕ → List ReadResult → Prop
  | _, _, _, [], [] => True
  | m, pos, avail, n :: ns, r :: rs =>
    if n ≤ avail then
      r.ret = 0 ∧ r.buf = streamBytes stream pos n ∧
        r.page = { m with dataTail := (m.dataTail + n) % 2 ^ 64 } ∧
        Delivers stream r.page (pos + n) (avail - n) ns rs
    else r = ⟨1, [], m⟩ ∧ Delivers stream m pos avail ns rs
  | _, _, _, _, _ => False

variable {bits n pos avail : ℕ} {m : PerfPage} {stream : ℕ → UInt8}

theorem two_pow_dvd_word (hbits : bits < 64) : 2 ^ bits ∣ 2 ^ 64 :=
  pow_dvd_pow 2 hbits.le

theorem PerfPage.Holds.unread (h : m.Holds (2 ^ bits) stream pos avail) (hbits : bits < 32) :
    u64 (m.dataHead - m.dataTail) = avail := by
  have hlt := two_pow_lt hbits
  have hroom := h.room
  rw [h.head, h.tail]
  unfold u64
  omega

theorem PerfPage.Holds.window (h : m.Holds (2 ^ bits) stream pos avail) (hbits : bits < 32) :
    Window m.data (2 ^ bits) m.dataTail (streamBytes stream pos avail) := by
  intro j x hx
  obtain ⟨hj, hx⟩ := List.getElem?_eq_some_iff.mp hx
  rw [streamBytes, List.length_map, List.length_range] at hj
  have hmod : (m.dataTail + j) % 2 ^ bits = (pos + j) % 2 ^ bits := by
    rw [h.tail, Nat.add_mod, Nat.mod_mod_of_dvd _ (two_pow_dvd_word (hbits.trans (by decide))), ← Nat.add_mod]
  rw [hmod, h.stored j hj, ← hx]
  simp [streamBytes]

theorem take_streamBytes (hn : n ≤ avail) :
    (streamBytes stream pos avail).take n = streamBytes stream pos n := by
  rw [streamBytes, ← List.map_take, List.take_range, min_eq_left hn]
  rfl

theorem PerfPage.Holds.copied (h : m.Holds (2 ^ bits) stream pos avail) (hbits : bits < 32)
    (hn : n ≤ avail) :
    copyOut m.data (2 ^ bits) m.dataTail n = streamBytes stream pos n := by
  have hlen : (streamBytes stream pos avail).length = avail := by simp [streamBytes]
  rw [(h.window hbits).copyOut_eq (by rw [hlen]; exact hn) (by rw [hlen]; exact h.room),
    take_streamBytes hn]

theorem PerfPage.Holds.read (h : m.Holds (2 ^ bits) stream pos avail) (hbits : bits < 32)
    (hn : n ≤ avail) :
    m.readBufferNbytes (perfMmapInit (2 ^ bits)) n =
      ⟨0, streamBytes stream pos n, { m with dataTail := (m.dataTail + n) % 2 ^ 64 }⟩ := by
  have htail : u64 (m.dataTail + n) = (m.dataTail + n) % 2 ^ 64 := by
    unfold u64
    omega
  rw [PerfPage.readBufferNbytes_eq hbits, h.unread hbits, if_neg (not_lt.mpr hn), htail,
    h.copied hbits hn]

theorem PerfPage.Holds.refuse (h : m.Holds (2 ^ bits) stream pos avail) (hbits : bits < 32)
    (hn : avail < n) : m.readBufferNbytes (perfMmapInit (2 ^ bits)) n = ⟨1, [], m⟩ := by
  rw [PerfPage.readBufferNbytes_eq hbits, h.unread hbits, if_pos hn]

theorem PerfPage.Holds.advance (h : m.Holds (2 ^ bits) stream pos avail) (hn : n ≤ avail) :
    { m with dataTail := (m.dataTail + n) % 2 ^ 64 : PerfPage }.Holds (2 ^ bits) stream
      (pos + n) (avail - n) := by
  constructor
  · simp only [h.tail, Nat.mod_add_mod]
  · rw [Nat.add_assoc, Nat.add_sub_cancel' hn]
    exact h.head
  · exact (Nat.sub_le avail n).trans h.room
  · intro j hj
    rw [Nat.add_assoc]
    exact h.stored (n + j) (by omega)

theorem PerfPage.Holds.reads (hbits : bits < 32) (sizes : List ℕ)
    (h : m.Holds (2 ^ bits) stream pos avail) :
    Delivers stream m pos avail sizes (m.reads (perfMmapInit (2 ^ bits)) sizes) := by
  induction sizes generalizing m pos avail with
  | nil => trivial
  | cons n ns ih =>
    rw [PerfPage.reads, Delivers]
    split_ifs with hn
    · rw [h.read hbits hn]
      exact ⟨rfl, rfl, rfl, ih (h.advance hn)⟩
    · rw [h.refuse hbits (not_le.mp hn)]
      exact ⟨rfl, ih h⟩

/-- The bytes between the two counters are the stream of a kernel that stored them. -/
theorem PerfPage.holds_of_counters (htail : m.dataTail < 2 ^ 64) (hhead : m.dataHead < 2 ^ 64)
    (hroom : u64 (m.dataHead - m.dataTail) ≤ 2 ^ bits)
    (hstored : ∀ j < u64 (m.dataHead - m.dataTail),
      m.data ((m.dataTail + j) % 2 ^ bits) = stream (m.dataTail + j)) :
    m.Holds (2 ^ bits) stream m.dataTail (u64 (m.dataHead - m.dataTail)) := by
  refine ⟨(Nat.mod_eq_of_lt htail).symm, ?_, hroom, hstored⟩
  unfold u64
  omega

theorem reads_take_stream (bits : ℕ) (hbits : bits < 32) (m : PerfPage)
    (htail : m.dataTail < 2 ^ 64) (hhead : m.dataHead < 2 ^ 64)
    (hroom : u64 (m.dataHead - m.dataTail) ≤ 2 ^ bits) (stream : ℕ → UInt8)
    (hstored : ∀ j < u64 (m.dataHead - m.dataTail),
      m.data ((m.dataTail + j) % 2 ^ bits) = stream (m.dataTail + j)) (sizes : List ℕ) :
    Delivers stream m m.dataTail (u64 (m.dataHead - m.dataTail)) sizes
      (m.reads (perfMmapInit (2 ^ bits)) sizes) :=
  (PerfPage.holds_of_counters htail hhead hroom hstored).reads hbits sizes

/-- Seven unread bytes across the right edge of eight and across the end of the counters. -/
def wrappedPage : PerfPage where
  data offset := .ofNat (10 * offset)
  dataHead := 3
  dataTail := 2 ^ 64 - 4

theorem reads_wrappedPage :
    Delivers (fun p => .ofNat (10 * (p % 8))) wrappedPage (2 ^ 64 - 4) 7 [3, 2, 9, 2]
      (wrappedPage.reads (perfMmapInit (2 ^ 3)) [3, 2, 9, 2]) :=
  reads_take_stream 3 (by decide) wrappedPage (by decide) (by decide) (by decide) _
    (fun _ _ => rfl) _

end Trace4J.Perf
