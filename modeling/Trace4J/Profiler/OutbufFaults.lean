import Mathlib.Data.List.Induction
import Trace4J.Profiler.BufferedOutput

/-!
# Failing writes

The buffer of `hpcio_outbuf` over a kernel whose `write` may be short, interrupted or fail. The
memory of the buffer is kept whole, because a flush that fails moves part of it. The history of a
buffer says what was copied into it and which flushes stopped half-way; the file and the buffer
together hold what replaying the history gives.
-/

namespace Trace4J.Profiler.OutbufFaults
open Library BufferedOutput

/-- What `write` returns, and whether `errno` is then `EINTR`. -/
structure WriteRet where
  ret : ℤ
  eintr : Bool := false
deriving DecidableEq

def WriteRet.amount (r : WriteRet) (count : ℕ) : ℤ := min r.ret count

def WriteRet.Progress (r : WriteRet) (count : ℕ) : Prop :=
  0 < r.amount count ∨ r.amount count = 0 ∧ r.eintr = true

instance (r : WriteRet) (count : ℕ) : Decidable (r.Progress count) :=
  inferInstanceAs (Decidable (_ ∨ _))

def WriteRet.takes (r : WriteRet) : Bool := decide (0 < r.ret)

inductive Entry
  | copied (data : List UInt8)
  | torn (held written : ℕ)

/-- `answers` are what the next calls of `write` return. -/
structure Outbuf where
  bufStart : ℕ → UInt8
  inUse : ℕ := 0
  file : List UInt8 := []
  answers : List WriteRet
  history : List Entry := []

namespace Outbuf

def front (b : Outbuf) (n : ℕ) : List UInt8 := (List.range n).map b.bufStart

def stream (b : Outbuf) : List UInt8 := b.file ++ b.front b.inUse

end Outbuf

inductive Fault
  | blocked
  | outOfFuel
deriving DecidableEq

/-- The loop of `outbuf_flush_buffer`: whether it writes everything, how much is written and which
answers are left. There is `none` while it waits for an answer. -/
def writeOut (inUse : ℕ) : ℕ → List WriteRet → Option (Bool × ℕ × List WriteRet)
  | amtDone, [] => if amtDone < inUse then none else some (true, amtDone, [])
  | amtDone, r :: answers =>
    if amtDone < inUse then
      if r.Progress (inUse - amtDone) then
        writeOut inUse (amtDone + (r.amount (inUse - amtDone)).toNat) answers
      else some (false, amtDone, answers)
    else some (true, amtDone, r :: answers)

def memmove (mem : ℕ → UInt8) (amtDone n : ℕ) : ℕ → UInt8 :=
  fun i => if i < n then mem (i + amtDone) else mem i

/-- After a hard failure `in_use` is set to what was written, not to what is left. -/
def hardFailure (b : Outbuf) (amtDone : ℕ) (answers : List WriteRet) : Outbuf :=
  if 0 < amtDone then
    { bufStart := memmove b.bufStart amtDone (b.inUse - amtDone)
      inUse := amtDone
      file := b.file ++ b.front amtDone
      answers := answers
      history := b.history ++ [.torn b.inUse amtDone] }
  else { b with answers := answers }

def flushBuffer (b : Outbuf) : Except Fault (Bool × Outbuf) :=
  match writeOut b.inUse 0 b.answers with
  | none => .error .blocked
  | some (true, amtDone, answers) =>
    .ok (true, { b with inUse := 0, file := b.file ++ b.front amtDone, answers := answers })
  | some (false, amtDone, answers) => .ok (false, hardFailure b amtDone answers)

def memcpy (mem : ℕ → UInt8) (dst : ℕ) (data : List UInt8) : ℕ → UInt8 :=
  fun i => if dst ≤ i then data.getD (i - dst) (mem i) else mem i

def Outbuf.copy (b : Outbuf) (data : List UInt8) : Outbuf :=
  { b with
    bufStart := memcpy b.bufStart b.inUse data
    inUse := b.inUse + data.length
    history := b.history ++ [.copied data] }

section Write
variable (bufSize : ℕ)

def makeRoom (size : ℕ) (b : Outbuf) : Except Fault Outbuf :=
  if bufSize - b.inUse < size then (flushBuffer b).map Prod.snd else .ok b

/-- The loop of `hpcio_outbuf_write`; the result of the flush is not looked at. -/
def outbufWriteLoop (size : ℕ) : ℕ → List UInt8 → Outbuf → Except Fault (ℕ × Outbuf)
  | 0, _, b => .ok (0, b)
  | fuel + 1, data, b =>
    if data = [] then .ok (0, b)
    else do
      let b ← makeRoom bufSize size b
      if b.inUse = bufSize then .ok (0, b)
      else
        let amt := min data.length (bufSize - b.inUse)
        let r ← outbufWriteLoop size fuel (data.drop amt) (b.copy (data.take amt))
        .ok (amt + r.1, r.2)

def outbufWrite (data : List UInt8) (b : Outbuf) : Except Fault (ℕ × Outbuf) :=
  outbufWriteLoop bufSize data.length data.length data b

def sendLoop : ℕ → List UInt8 → Outbuf → Except Fault Outbuf
  | 0, _, _ => .error .outOfFuel
  | fuel + 1, data, b =>
    if data = [] then .ok b
    else do
      let r ← outbufWrite bufSize data b
      sendLoop fuel (data.drop r.1) r.2

def sent (mem : List UInt8) : List UInt8 := mem.take (int32 (cString mem).length).toNat

/-- Each pass takes a byte of the string or an answer. -/
def writeb (mem : List UInt8) (b : Outbuf) : Except Fault Outbuf :=
  sendLoop bufSize ((sent mem).length + b.answers.length + 1) (sent mem) b

end Write

/-! ## The history -/

/-- What an entry does to the stream of bytes: a torn flush either drops the end of what the
buffer held or repeats some of what it had written. -/
def Entry.apply (stream : List UInt8) : Entry → List UInt8
  | .copied data => stream ++ data
  | .torn held written =>
    if 2 * written ≤ held then stream.take (stream.length - (held - 2 * written))
    else stream ++ ((stream.drop (stream.length - held)).take written).drop (held - written)

def replay (history : List Entry) : List UInt8 := history.foldl Entry.apply []

def Entry.data : Entry → List UInt8
  | .copied data => data
  | .torn _ _ => []

def Entry.drift : Entry → ℤ
  | .copied _ => 0
  | .torn held written => 2 * written - held

def accepted (history : List Entry) : List UInt8 := history.flatMap Entry.data

def drift (history : List Entry) : ℤ := (history.map Entry.drift).sum

theorem replay_concat (history : List Entry) (e : Entry) :
    replay (history ++ [e]) = e.apply (replay history) := by
  rw [replay, List.foldl_append]
  rfl

theorem accepted_concat (history : List Entry) (e : Entry) :
    accepted (history ++ [e]) = accepted history ++ e.data := by
  simp [accepted]

theorem drift_concat (history : List Entry) (e : Entry) :
    drift (history ++ [e]) = drift history + e.drift := by
  simp [drift]

theorem apply_torn_half {held written : ℕ} (h : 2 * written = held) (stream : List UInt8) :
    Entry.apply stream (.torn held written) = stream := by
  rw [Entry.apply, if_pos h.le, h, Nat.sub_self, Nat.sub_zero, List.take_length]

theorem replay_of_half (history : List Entry)
    (h : ∀ held written, Entry.torn held written ∈ history → 2 * written = held) :
    replay history = accepted history := by
  induction history using List.reverseRecOn with
  | nil => rfl
  | append_singleton history e ih =>
    have hrest := ih fun held written hmem => h held written (List.mem_append_left _ hmem)
    rw [replay_concat, accepted_concat, hrest]
    cases e with
    | copied data => rfl
    | torn held written =>
      rw [apply_torn_half (h held written (by simp)), Entry.data, List.append_nil]

/-! ## One flush -/

section Flush
variable {b b' : Outbuf} {data : List UInt8} {answers rest : List WriteRet}
  {inUse amtDone written : ℕ} {ok : Bool}

@[simp]
theorem front_length (b : Outbuf) (n : ℕ) : (b.front n).length = n := by simp [Outbuf.front]

theorem front_add (b : Outbuf) (m n : ℕ) :
    b.front (m + n) = b.front m ++ (List.range n).map fun i => b.bufStart (m + i) := by
  simp [Outbuf.front, List.range_add]

theorem front_memmove {held : ℕ} (b : Outbuf) (h : 2 * written ≤ held) :
    (List.range written).map (memmove b.bufStart written (held - written)) =
      (List.range written).map fun i => b.bufStart (written + i) := by
  refine List.map_congr_left fun i hi => ?_
  have hlt := List.mem_range.mp hi
  rw [memmove, if_pos (by omega), Nat.add_comm]

theorem front_memmove_over {held : ℕ} (b : Outbuf) (h : held ≤ 2 * written) (hle : written ≤ held) :
    (List.range written).map (memmove b.bufStart written (held - written)) =
      ((List.range (held - written)).map fun i => b.bufStart (written + i)) ++
        (b.front written).drop (held - written) := by
  obtain ⟨k, hk⟩ : ∃ k, written = (held - written) + k := ⟨2 * written - held, by omega⟩
  have hsplit := List.range_add (n := held - written) (m := k)
  rw [Outbuf.front]
  generalize hmove : memmove b.bufStart written (held - written) = moved
  have hrange : List.range written = List.range (held - written) ++
      (List.range k).map (held - written + ·) := by rw [← hsplit, ← hk]
  have hlow : ∀ i ∈ List.range (held - written), moved i = b.bufStart (written + i) := by
    intro i hi
    rw [← hmove, memmove, if_pos (List.mem_range.mp hi), Nat.add_comm]
  have hhigh : ∀ i ∈ (List.range k).map (held - written + ·), moved i = b.bufStart i := by
    intro i hi
    obtain ⟨j, -, rfl⟩ := List.mem_map.mp hi
    rw [← hmove, memmove, if_neg (by omega)]
  rw [hrange, List.map_append, List.map_append, List.map_congr_left hlow,
    List.map_congr_left hhigh, List.drop_append_of_le_length (by simp),
    List.drop_eq_nil_of_le (by simp), List.nil_append]

theorem apply_torn (b : Outbuf) {held : ℕ} (hle : written ≤ held) :
    Entry.apply (b.file ++ b.front held) (.torn held written) =
      b.file ++ b.front written ++
        (List.range written).map (memmove b.bufStart written (held - written)) := by
  obtain ⟨k, rfl⟩ := Nat.exists_eq_add_of_le hle
  rw [Entry.apply]
  split_ifs with hhalf
  · obtain ⟨j, rfl⟩ : ∃ j, k = written + j := ⟨k - written, by omega⟩
    have hlen : (b.file ++ b.front (written + (written + j))).length -
        (written + (written + j) - 2 * written) = b.file.length + (written + written) := by
      simp only [List.length_append, front_length]
      omega
    have hsum : written + (written + j) = written + written + j := by omega
    rw [hlen, front_memmove b hhalf, List.append_assoc, ← front_add, hsum,
      front_add b (written + written) j, List.take_length_add_append,
      List.take_append_of_le_length (by simp), List.take_of_length_le (by simp)]
  · have hlen : (b.file ++ b.front (written + k)).length - (written + k) = b.file.length := by simp
    rw [front_memmove_over b (by omega) hle, hlen, List.drop_left, Nat.add_sub_cancel_left,
      front_add, List.take_left' (by simp)]
    simp only [List.append_assoc]

/-- What the loop of a flush may write, and how many answers that wrote something it takes. -/
theorem writeOut_spec (h : writeOut inUse amtDone answers = some (ok, written, rest))
    (hle : amtDone ≤ inUse) :
    written ≤ inUse ∧ (ok = true → written = inUse) ∧
      answers.countP WriteRet.takes + amtDone ≤ written + rest.countP WriteRet.takes ∧
      (ok = false → written < inUse ∧ rest.length < answers.length) ∧
      rest.length ≤ answers.length := by
  induction answers generalizing amtDone with
  | nil =>
    rw [writeOut] at h
    split_ifs at h with hlt
    cases h
    exact ⟨hle, fun _ => by omega, by simp, nofun, le_rfl⟩
  | cons r answers ih =>
    rw [writeOut] at h
    split_ifs at h with hlt hprogress
    · have hamount : (r.amount (inUse - amtDone)).toNat ≤ inUse - amtDone := by
        simp only [WriteRet.amount]
        omega
      obtain ⟨hwritten, hok, hcount, hfail, hlen⟩ := ih h (by omega)
      have htakes : (r :: answers).countP WriteRet.takes ≤
          answers.countP WriteRet.takes + (r.amount (inUse - amtDone)).toNat := by
        rw [List.countP_cons]
        split_ifs with htake
        · simp only [WriteRet.takes, decide_eq_true_eq] at htake
          simp only [WriteRet.amount]
          omega
        · omega
      refine ⟨hwritten, hok, by omega, fun hf => ?_, by rw [List.length_cons]; omega⟩
      obtain ⟨hlt', hlen'⟩ := hfail hf
      exact ⟨hlt', by rw [List.length_cons]; omega⟩
    · cases h
      have htakes : r.takes = false := by
        simp only [WriteRet.Progress, WriteRet.amount, not_or] at hprogress
        simp only [WriteRet.takes, decide_eq_false_iff_not]
        omega
      refine ⟨hle, nofun, ?_, fun _ => ⟨hlt, by simp⟩, by simp⟩
      rw [List.countP_cons_of_neg (by simp [htakes])]
      omega
    · cases h
      exact ⟨hle, fun _ => by omega, by omega, nofun, le_rfl⟩

theorem writeOut_blocked (h : writeOut inUse amtDone answers = none) (hle : amtDone ≤ inUse) :
    answers.countP WriteRet.takes + amtDone < inUse := by
  induction answers generalizing amtDone with
  | nil =>
    rw [writeOut] at h
    split_ifs at h with hlt
    simpa using hlt
  | cons r answers ih =>
    rw [writeOut] at h
    split_ifs at h with hlt hprogress
    have hamount : (r.amount (inUse - amtDone)).toNat ≤ inUse - amtDone := by
      simp only [WriteRet.amount]
      omega
    have hrest := ih h (by omega)
    rw [List.countP_cons]
    split_ifs with htake
    · simp only [WriteRet.takes, decide_eq_true_eq] at htake
      simp only [WriteRet.amount] at hrest
      omega
    · omega

/-- The buffer holds, behind the file, what replaying its history gives. -/
structure Outbuf.Sound (b : Outbuf) : Prop where
  stream : b.stream = replay b.history
  ledger : (b.file.length : ℤ) + b.inUse = (accepted b.history).length + drift b.history

structure Flushed (b b' : Outbuf) (ok : Bool) : Prop where
  accepted : accepted b'.history = accepted b.history
  room : b'.inUse = b.inUse ∧
      b.answers.countP WriteRet.takes ≤ b'.answers.countP WriteRet.takes ∨
    b'.inUse < b.inUse ∧
      b.answers.countP WriteRet.takes ≤ b.inUse + b'.answers.countP WriteRet.takes
  answers : b'.answers.length ≤ b.answers.length
  done : ok = true → b'.inUse = 0
  failed : ok = false → b'.answers.length < b.answers.length

theorem flushed_hardFailure (hlt : written < b.inUse)
    (hcount : b.answers.countP WriteRet.takes ≤ written + answers.countP WriteRet.takes)
    (hlen : answers.length < b.answers.length) :
    Flushed b (hardFailure b written answers) false := by
  rw [hardFailure]
  split_ifs with hpos
  · refine ⟨?_, .inr ⟨hlt, ?_⟩, hlen.le, nofun, fun _ => hlen⟩
    · rw [accepted_concat, Entry.data, List.append_nil]
    · dsimp only
      omega
  · exact ⟨rfl, .inl ⟨rfl, by dsimp only; omega⟩, hlen.le, nofun, fun _ => hlen⟩

theorem flushBuffer_cases (hf : flushBuffer b = .ok (ok, b')) :
    (ok = true ∧ ∃ rest, writeOut b.inUse 0 b.answers = some (true, b.inUse, rest) ∧
      b' = { b with inUse := 0, file := b.stream, answers := rest }) ∨
    (ok = false ∧ ∃ written rest, writeOut b.inUse 0 b.answers = some (false, written, rest) ∧
      written < b.inUse ∧ b' = hardFailure b written rest) := by
  rw [flushBuffer] at hf
  cases hout : writeOut b.inUse 0 b.answers with
  | none =>
    rw [hout] at hf
    cases hf
  | some out =>
    obtain ⟨ok', written, rest⟩ := out
    obtain ⟨-, hok, -, hfail, -⟩ := writeOut_spec hout (Nat.zero_le _)
    rw [hout] at hf
    cases ok' with
    | true =>
      cases hf
      obtain rfl := hok rfl
      exact .inl ⟨rfl, rest, rfl, rfl⟩
    | false =>
      cases hf
      exact .inr ⟨rfl, written, rest, rfl, (hfail rfl).1, rfl⟩

theorem flushBuffer_spec (hf : flushBuffer b = .ok (ok, b')) : Flushed b b' ok := by
  obtain ⟨rfl, rest, hout, rfl⟩ | ⟨rfl, written, rest, hout, hlt, rfl⟩ := flushBuffer_cases hf
  · obtain ⟨-, -, hcount, -, hlen⟩ := writeOut_spec hout (Nat.zero_le _)
    refine ⟨rfl, ?_, hlen, fun _ => rfl, nofun⟩
    dsimp only
    omega
  · obtain ⟨-, -, hcount, hfail, -⟩ := writeOut_spec hout (Nat.zero_le _)
    exact flushed_hardFailure hlt hcount (hfail rfl).2

theorem flushBuffer_blocked {e : Fault} (hf : flushBuffer b = .error e) :
    e = .blocked ∧ b.answers.countP WriteRet.takes < b.inUse := by
  rw [flushBuffer] at hf
  cases hout : writeOut b.inUse 0 b.answers with
  | none =>
    rw [hout] at hf
    cases hf
    exact ⟨rfl, writeOut_blocked hout (Nat.zero_le _)⟩
  | some out =>
    obtain ⟨ok', written, rest⟩ := out
    rw [hout] at hf
    cases ok' <;> cases hf

theorem Outbuf.Sound.hardFailure (h : b.Sound) (hlt : written < b.inUse) :
    (hardFailure b written answers).Sound := by
  rw [OutbufFaults.hardFailure]
  split_ifs with hpos
  · refine ⟨?_, ?_⟩
    · rw [replay_concat, ← h.stream]
      exact (apply_torn b hlt.le).symm
    · have hledger := h.ledger
      rw [accepted_concat, drift_concat, Entry.data, List.append_nil, Entry.drift]
      simp only [List.length_append, front_length]
      omega
  · exact ⟨h.stream, h.ledger⟩

theorem Outbuf.Sound.flush (h : b.Sound) (hf : flushBuffer b = .ok (ok, b')) :
    b'.Sound := by
  obtain ⟨-, rest, -, rfl⟩ | ⟨-, written, rest, -, hlt, rfl⟩ := flushBuffer_cases hf
  · have hledger := h.ledger
    refine ⟨?_, ?_⟩
    · rw [← h.stream]
      exact List.append_nil _
    · simp only [Outbuf.stream, List.length_append, front_length]
      omega
  · exact h.hardFailure hlt

end Flush

/-! ## One call -/

section Call
variable {bufSize size fuel n : ℕ} {b b' : Outbuf} {data : List UInt8} {e : Fault}

theorem front_copy (b : Outbuf) (data : List UInt8) :
    (b.copy data).front (b.inUse + data.length) = b.front b.inUse ++ data := by
  have hlow : ∀ i ∈ List.range b.inUse, (b.copy data).bufStart i = b.bufStart i := by
    intro i hi
    have hlt : i < b.inUse := List.mem_range.mp hi
    exact if_neg (by omega)
  have hhigh : ((List.range data.length).map fun i => (b.copy data).bufStart (b.inUse + i)) =
      data := by
    refine List.ext_getElem (by simp) fun i hi hi' => ?_
    simp [Outbuf.copy, memcpy, hi']
  rw [front_add, hhigh, Outbuf.front, List.map_congr_left hlow]
  rfl

theorem stream_copy (b : Outbuf) (data : List UInt8) : (b.copy data).stream = b.stream ++ data := by
  rw [Outbuf.stream, Outbuf.stream, List.append_assoc, ← front_copy]
  rfl

theorem Outbuf.Sound.copy (h : b.Sound) (data : List UInt8) : (b.copy data).Sound := by
  have hledger := h.ledger
  refine ⟨?_, ?_⟩
  · rw [stream_copy, h.stream]
    exact (replay_concat b.history (.copied data)).symm
  · rw [Outbuf.copy, accepted_concat, drift_concat, Entry.data, Entry.drift]
    simp only [List.length_append]
    omega

structure Took (bufSize : ℕ) (data : List UInt8) (b : Outbuf) (n : ℕ) (b' : Outbuf) : Prop where
  le : n ≤ data.length
  accepted : accepted b'.history = accepted b.history ++ data.take n
  count : b.answers.countP WriteRet.takes ≤ bufSize * n + b'.answers.countP WriteRet.takes
  answers : b'.answers.length ≤ b.answers.length
  progress : data ≠ [] → n = 0 → b'.answers.length < b.answers.length

theorem Took.pos_or_lt (h : Took bufSize data b n b') (hne : data ≠ []) :
    0 < n ∨ b'.answers.length < b.answers.length := by
  obtain hzero | hpos := Nat.eq_zero_or_pos n
  · exact .inr (h.progress hne hzero)
  · exact .inl hpos

theorem makeRoom_spec (hbuf : 0 < bufSize) (hsize : 0 < size) (hfits : b.inUse ≤ bufSize)
    (h : makeRoom bufSize size b = .ok b') :
    accepted b'.history = accepted b.history ∧ b'.inUse ≤ bufSize ∧
      b'.answers.length ≤ b.answers.length ∧
      b.answers.countP WriteRet.takes ≤ bufSize + b'.answers.countP WriteRet.takes ∧
      (b'.inUse = bufSize → b'.answers.length < b.answers.length ∧
        b.answers.countP WriteRet.takes ≤ b'.answers.countP WriteRet.takes) := by
  rw [makeRoom] at h
  split_ifs at h with hfull
  · obtain ⟨⟨ok, b''⟩, hf, hout⟩ := map_eq_ok.mp h
    dsimp only at hout
    subst hout
    obtain ⟨hacc, hroom, hlen, hdone, hfailed⟩ := flushBuffer_spec hf
    refine ⟨hacc, by omega, hlen, by omega, fun heq => ?_⟩
    cases ok with
    | true =>
      have hzero := hdone rfl
      omega
    | false => exact ⟨hfailed rfl, by omega⟩
  · cases h
    exact ⟨rfl, hfits, le_rfl, by omega, fun heq => by omega⟩

theorem outbufWriteLoop_took (hbuf : 0 < bufSize) (hsize : 0 < size)
    (hfuel : data.length ≤ fuel) (hfits : b.inUse ≤ bufSize)
    (h : outbufWriteLoop bufSize size fuel data b = .ok (n, b')) :
    Took bufSize data b n b' ∧ b'.inUse ≤ bufSize := by
  induction fuel generalizing data b n with
  | zero =>
    obtain rfl := List.eq_nil_of_length_eq_zero (Nat.le_zero.mp hfuel)
    cases h
    exact ⟨⟨le_rfl, by simp, by omega, le_rfl, fun hne => absurd rfl hne⟩, hfits⟩
  | succ fuel ih =>
    rw [outbufWriteLoop] at h
    split_ifs at h with hnil
    · cases h
      exact ⟨⟨Nat.zero_le _, by simp, by omega, le_rfl, fun hne => absurd hnil hne⟩, hfits⟩
    obtain ⟨room, hmake, h⟩ := bind_eq_ok.mp h
    obtain ⟨hacc, hfits', hlen, hcount, hfull⟩ := makeRoom_spec hbuf hsize hfits hmake
    split_ifs at h with hbreak
    · cases h
      obtain ⟨hlt, hcount'⟩ := hfull hbreak
      exact ⟨⟨Nat.zero_le _, by simp [hacc], by omega, hlen, fun _ _ => hlt⟩, hfits'⟩
    obtain ⟨⟨m, b''⟩, hloop, hout⟩ := bind_eq_ok.mp h
    dsimp only at hout
    cases hout
    have hpos := List.length_pos_of_ne_nil hnil
    set amt := min data.length (bufSize - room.inUse) with hamt
    have hamtpos : 0 < amt := by omega
    obtain ⟨htook, hfits''⟩ := ih (by rw [List.length_drop]; omega)
      (by simp only [Outbuf.copy, List.length_take]; omega) hloop
    have hle := htook.le
    have hrest := htook.count
    have hshort := htook.answers
    rw [List.length_drop] at hle
    simp only [Outbuf.copy] at hrest hshort
    have hbound : bufSize ≤ bufSize * amt := Nat.le_mul_of_pos_right _ hamtpos
    refine ⟨⟨by omega, ?_, by rw [Nat.mul_add]; omega, by omega, fun _ hzero => by omega⟩, hfits''⟩
    rw [htook.accepted, Outbuf.copy, accepted_concat, hacc, Entry.data, List.append_assoc,
      ← List.take_add]

theorem outbufWriteLoop_blocked (hbuf : 0 < bufSize) (hsize : 0 < size)
    (hfuel : data.length ≤ fuel) (hfits : b.inUse ≤ bufSize)
    (h : outbufWriteLoop bufSize size fuel data b = .error e) :
    e = .blocked ∧ b.answers.countP WriteRet.takes < bufSize * (data.length + 1) := by
  induction fuel generalizing data b with
  | zero => cases h
  | succ fuel ih =>
    rw [outbufWriteLoop] at h
    split_ifs at h with hnil
    rw [Nat.mul_add, Nat.mul_one]
    obtain hmake | ⟨room, hmake, h⟩ := bind_eq_error.mp h
    · rw [makeRoom] at hmake
      split_ifs at hmake with hfull
      obtain hf | ⟨out, -, hout⟩ := bind_eq_error.mp hmake
      · obtain ⟨he, hlt⟩ := flushBuffer_blocked hf
        exact ⟨he, by omega⟩
      · cases hout
    obtain ⟨-, hfits', -, hcount, -⟩ := makeRoom_spec hbuf hsize hfits hmake
    split_ifs at h with hbreak
    obtain hloop | ⟨r, -, hout⟩ := bind_eq_error.mp h
    · have hpos := List.length_pos_of_ne_nil hnil
      set amt := min data.length (bufSize - room.inUse) with hamt
      have hamtpos : 0 < amt := by omega
      obtain ⟨he, hlt⟩ := ih (by rw [List.length_drop]; omega)
        (by simp only [Outbuf.copy, List.length_take]; omega) hloop
      rw [List.length_drop, Nat.mul_add, Nat.mul_one] at hlt
      simp only [Outbuf.copy] at hlt
      have hbound : bufSize ≤ bufSize * amt := Nat.le_mul_of_pos_right _ hamtpos
      have hsplit : bufSize * (data.length - amt) + bufSize * amt = bufSize * data.length := by
        rw [← Nat.mul_add, Nat.sub_add_cancel (by omega)]
      exact ⟨he, by omega⟩
    · cases hout

theorem outbufWriteLoop_keeps {P : Outbuf → Prop}
    (hflush : ∀ b ok b', P b → flushBuffer b = .ok (ok, b') → P b')
    (hcopy : ∀ b data, P b → P (b.copy data)) (hP : P b)
    (h : outbufWriteLoop bufSize size fuel data b = .ok (n, b')) : P b' := by
  induction fuel generalizing data b n with
  | zero =>
    cases h
    exact hP
  | succ fuel ih =>
    rw [outbufWriteLoop] at h
    split_ifs at h with hnil
    · cases h
      exact hP
    obtain ⟨room, hmake, h⟩ := bind_eq_ok.mp h
    have hroom : P room := by
      rw [makeRoom] at hmake
      split_ifs at hmake
      · obtain ⟨⟨ok, b''⟩, hf, rfl⟩ := map_eq_ok.mp hmake
        exact hflush b ok b'' hP hf
      · cases hmake
        exact hP
    split_ifs at h with hbreak
    · cases h
      exact hroom
    obtain ⟨⟨m, b''⟩, hloop, hout⟩ := bind_eq_ok.mp h
    cases hout
    exact ih (hcopy _ _ hroom) hloop

theorem outbufWrite_took (hbuf : 0 < bufSize) (hne : data ≠ []) (hfits : b.inUse ≤ bufSize)
    (h : outbufWrite bufSize data b = .ok (n, b')) :
    Took bufSize data b n b' ∧ b'.inUse ≤ bufSize :=
  outbufWriteLoop_took hbuf (List.length_pos_of_ne_nil hne) le_rfl hfits h

/-- Each pass of the loop of `writeb` copies a byte or uses up an answer. -/
theorem sendLoop_took (hbuf : 0 < bufSize) (hfuel : data.length + b.answers.length < fuel)
    (hfits : b.inUse ≤ bufSize) (h : sendLoop bufSize fuel data b = .ok b') :
    Took bufSize data b data.length b' ∧ b'.inUse ≤ bufSize := by
  induction fuel generalizing data b with
  | zero => cases h
  | succ fuel ih =>
    rw [sendLoop] at h
    split_ifs at h with hnil
    · cases h
      exact ⟨⟨le_rfl, by simp [hnil], by omega, le_rfl, fun hne => absurd hnil hne⟩, hfits⟩
    obtain ⟨⟨n, room⟩, hwrite, h⟩ := bind_eq_ok.mp h
    dsimp only at h
    obtain ⟨htook, hfits'⟩ := outbufWrite_took hbuf hnil hfits hwrite
    have hle := htook.le
    have hlen := htook.answers
    have hcount := htook.count
    have hprogress := htook.pos_or_lt hnil
    obtain ⟨hrest, hfits''⟩ := ih (by rw [List.length_drop]; omega) hfits' h
    have hlen' := hrest.answers
    have hcount' := hrest.count
    have hacc' := hrest.accepted
    rw [List.length_drop] at hcount'
    rw [List.take_length, htook.accepted, List.append_assoc, List.take_append_drop] at hacc'
    have hsplit : bufSize * n + bufSize * (data.length - n) = bufSize * data.length := by
      rw [← Nat.mul_add, Nat.add_sub_cancel' hle]
    refine ⟨⟨le_rfl, by rw [List.take_length, hacc'], by omega, by omega, fun _ hzero => ?_⟩,
      hfits''⟩
    exact absurd (List.eq_nil_of_length_eq_zero hzero) hnil

theorem sendLoop_blocked (hbuf : 0 < bufSize) (hfuel : data.length + b.answers.length < fuel)
    (hfits : b.inUse ≤ bufSize) (h : sendLoop bufSize fuel data b = .error e) :
    e = .blocked ∧ b.answers.countP WriteRet.takes < bufSize * (data.length + 1) := by
  induction fuel generalizing data b with
  | zero => omega
  | succ fuel ih =>
    rw [sendLoop] at h
    split_ifs at h with hnil
    obtain hwrite | ⟨⟨n, room⟩, hwrite, h⟩ := bind_eq_error.mp h
    · exact outbufWriteLoop_blocked hbuf (List.length_pos_of_ne_nil hnil) le_rfl hfits hwrite
    obtain ⟨htook, hfits'⟩ := outbufWrite_took hbuf hnil hfits hwrite
    have hle := htook.le
    have hlen := htook.answers
    have hcount := htook.count
    have hprogress := htook.pos_or_lt hnil
    dsimp only at h
    obtain ⟨he, hlt⟩ := ih (by rw [List.length_drop]; omega) hfits' h
    rw [List.length_drop] at hlt
    have hsplit : bufSize * n + bufSize * (data.length - n + 1) = bufSize * (data.length + 1) := by
      rw [← Nat.mul_add, ← Nat.add_assoc, Nat.add_sub_cancel' hle]
    exact ⟨he, by omega⟩

theorem sendLoop_keeps {P : Outbuf → Prop}
    (hflush : ∀ b ok b', P b → flushBuffer b = .ok (ok, b') → P b')
    (hcopy : ∀ b data, P b → P (b.copy data)) (hP : P b)
    (h : sendLoop bufSize fuel data b = .ok b') : P b' := by
  induction fuel generalizing data b with
  | zero => cases h
  | succ fuel ih =>
    rw [sendLoop] at h
    split_ifs at h with hnil
    · cases h
      exact hP
    obtain ⟨⟨n, room⟩, hwrite, h⟩ := bind_eq_ok.mp h
    exact ih (outbufWriteLoop_keeps hflush hcopy hP hwrite) h

end Call

/-! ## Any strings -/

section Strings
variable {bufSize : ℕ} {b b' : Outbuf} {mem : ℕ → UInt8} {answers : List WriteRet}
  {data : List UInt8} {strings : List (List UInt8)}

/-- The buffer after `hpcio_outbuf_attach`, over memory that nobody has set. -/
def attach (mem : ℕ → UInt8) (answers : List WriteRet) : Outbuf where
  bufStart := mem
  answers := answers

theorem writeb_took (hbuf : 0 < bufSize) (hfits : b.inUse ≤ bufSize)
    (h : writeb bufSize data b = .ok b') :
    accepted b'.history = accepted b.history ++ sent data ∧ b'.inUse ≤ bufSize := by
  obtain ⟨htook, hfits'⟩ := sendLoop_took hbuf (Nat.lt_succ_self _) hfits h
  exact ⟨by rw [htook.accepted, List.take_length], hfits'⟩

theorem writeb_sound (h : b.Sound) (hs : writeb bufSize data b = .ok b') : b'.Sound :=
  sendLoop_keeps (fun _ _ _ h hf => h.flush hf) (fun _ data h => h.copy data) h hs

theorem run_accepted (hbuf : 0 < bufSize) (hfits : b.inUse ≤ bufSize)
    (hrun : run (writeb bufSize) strings b = .ok b') :
    accepted b'.history = accepted b.history ++ (strings.map sent).flatten ∧
      b'.inUse ≤ bufSize := by
  induction strings generalizing b with
  | nil =>
    cases hrun
    exact ⟨by simp, hfits⟩
  | cons data strings ih =>
    obtain ⟨b₁, hs, hrun⟩ := run_cons.mp hrun
    obtain ⟨hacc, hfits'⟩ := writeb_took hbuf hfits hs
    obtain ⟨hrest, hfits''⟩ := ih hfits' hrun
    exact ⟨by rw [hrest, hacc, List.map_cons, List.flatten_cons, List.append_assoc], hfits''⟩

theorem run_sound (hrun : run (writeb bufSize) strings (attach mem answers) = .ok b) : b.Sound :=
  run_keeps (fun _ _ _ h hs => writeb_sound h hs) ⟨rfl, rfl⟩ hrun

theorem file_of_flushed (h : flushBuffer b = .ok (true, b')) : b'.file = b.stream := by
  obtain ⟨-, rest, -, rfl⟩ | ⟨hok, -⟩ := flushBuffer_cases h
  · rfl
  · cases hok

/-- Over any kernel, `writeb` takes the bytes that reach the file when no write fails, and the file
holds what replaying the history of the buffer gives. A flush that fails when it has written some
of the buffer, but not just half of it, loses the end of the buffer or writes a part of it twice. -/
theorem run_stream (calls : List OutputCall)
    (hrun : run (writeb printBufferSize) (calls.map OutputCall.mem) (attach mem answers) = .ok b)
    (host : Host) (name : FileName) (hname : name ≠ [])
    (hopen : (openFile host nameBufferSize name).2 = true) :
    ∃ rets o, execCalls host calls { fileName := name } = .ok (rets, o) ∧
      accepted b.history = delivered host o ∧ b.stream = replay b.history ∧
      (∀ b', flushBuffer b = .ok (true, b') → b'.file = replay b.history ∧
        (b'.file.length : ℤ) = (delivered host o).length + drift b.history) ∧
      ((∀ held written, Entry.torn held written ∈ b.history → 2 * written = held) →
        replay b.history = delivered host o) := by
  have hready : Output.Ready host { fileName := name } := ⟨hname, hopen⟩
  obtain ⟨o, hexec, hbytes⟩ := execCalls_spec calls hready
  have hsound := run_sound hrun
  have hsent : sent ∘ OutputCall.mem = fun c => c.mem.take c.ret.toNat := by
    funext c
    rw [Function.comp_apply, sent, OutputCall.ret]
  have hacc : accepted b.history = delivered host o := by
    obtain ⟨htaken, -⟩ := run_accepted (Nat.zero_lt_succ _) (Nat.zero_le _) hrun
    rw [List.map_map, hsent] at htaken
    rw [delivered_eq, hbytes, htaken]
    rfl
  refine ⟨_, o, hexec, hacc, hsound.stream, fun b' hflush => ?_, fun hhalf => ?_⟩
  · rw [file_of_flushed hflush, ← hacc, ← hsound.ledger, ← hsound.stream, Outbuf.stream,
      List.length_append, front_length, Nat.cast_add]
    exact ⟨rfl, rfl⟩
  · rw [replay_of_half _ hhalf, hacc]

def halfLine : OutputCall := .writef ⟨List.replicate 600 97, by rw [List.length_replicate]; omega⟩

def tornAnswers : List WriteRet := [⟨200, false⟩, ⟨-1, false⟩]

/-- The flush before the second line writes 200 of the first 600 bytes and then fails: the file
will lack 200 bytes. -/
theorem run_stream_torn : ∃ b rets o,
    run (writeb printBufferSize) ([halfLine, halfLine].map OutputCall.mem)
      (attach (fun _ => 0) tornAnswers) = .ok b ∧
    execCalls slowHost [halfLine, halfLine] { fileName := ['o'] } = .ok (rets, o) ∧
    accepted b.history = delivered slowHost o ∧ drift b.history = -200 := by
  have htorn : (run (writeb printBufferSize) ([halfLine, halfLine].map OutputCall.mem)
      (attach (fun _ => 0) tornAnswers)).map (fun b => drift b.history) = .ok (-200) := by
    decide +kernel
  obtain ⟨b, hrun, hdrift⟩ := map_eq_ok.mp htorn
  obtain ⟨rets, o, hexec, hacc, -⟩ := run_stream _ hrun slowHost ['o'] (by decide) rfl
  exact ⟨b, rets, o, hrun, hexec, hacc, hdrift⟩

end Strings

/-! ## Writes that never come back -/

section Waiting
variable {bufSize : ℕ} {b b' : Outbuf} {data : List UInt8}

/-- A hard failure; so is an interrupted call that returns -1. -/
def WriteRet.Fails (r : WriteRet) : Prop := r.ret < 0 ∨ r.ret = 0 ∧ r.eintr = false

instance (r : WriteRet) : Decidable r.Fails := inferInstanceAs (Decidable (_ ∨ _))

theorem WriteRet.Fails.not_progress {r : WriteRet} (h : r.Fails) (count : ℕ) :
    ¬r.Progress count := by
  simp only [WriteRet.Progress, WriteRet.amount, not_or, not_and, Bool.not_eq_true]
  obtain h | ⟨h, heintr⟩ := h
  · exact ⟨by omega, fun _ => by omega⟩
  · exact ⟨by omega, fun _ => heintr⟩

/-- The buffer only fills up: `held` more bytes than were ever copied. -/
structure Stuck (held : ℤ) (b : Outbuf) : Prop where
  fails : ∀ r ∈ b.answers, r.Fails
  inUse : (b.inUse : ℤ) = held + (accepted b.history).length

theorem Stuck.flush {held : ℤ} {ok : Bool} (h : Stuck held b)
    (hf : flushBuffer b = .ok (ok, b')) : Stuck held b' := by
  rw [flushBuffer] at hf
  obtain hzero | hpos := Nat.eq_zero_or_pos b.inUse
  · have hout : writeOut b.inUse 0 b.answers = some (true, 0, b.answers) := by
      cases hanswers : b.answers <;> simp [writeOut, hzero]
    rw [hout] at hf
    cases hf
    exact ⟨h.fails, by rw [← h.inUse, hzero]⟩
  · cases hanswers : b.answers with
    | nil =>
      rw [hanswers, writeOut, if_pos hpos] at hf
      cases hf
    | cons r answers =>
      have hfails := h.fails
      rw [hanswers] at hfails
      obtain ⟨hr, hrest⟩ := List.forall_mem_cons.mp hfails
      rw [hanswers, writeOut, if_pos hpos, if_neg (hr.not_progress _)] at hf
      cases hf
      rw [hardFailure, if_neg (lt_irrefl 0)]
      exact ⟨hrest, h.inUse⟩

theorem Stuck.copy {held : ℤ} (h : Stuck held b) (data : List UInt8) :
    Stuck held (b.copy data) := by
  refine ⟨h.fails, ?_⟩
  have hinUse := h.inUse
  simp only [Outbuf.copy, accepted_concat, Entry.data, List.length_append]
  omega

theorem outbufWrite_fits (hne : data ≠ []) (hfits : b.inUse + data.length ≤ bufSize) :
    outbufWrite bufSize data b = .ok (data.length, b.copy data) := by
  have hpos := List.length_pos_of_ne_nil hne
  obtain ⟨k, hk⟩ := Nat.exists_eq_succ_of_ne_zero hpos.ne'
  have hroom : makeRoom bufSize data.length b = .ok b := by rw [makeRoom, if_neg (by omega)]
  have hamt : min data.length (bufSize - b.inUse) = data.length := by omega
  have hrest : ∀ b₁ : Outbuf, outbufWriteLoop bufSize data.length k [] b₁ = .ok (0, b₁) := by
    intro b₁
    cases k <;> rfl
  rw [outbufWrite]
  nth_rewrite 2 [hk]
  rw [outbufWriteLoop, if_neg hne, hroom]
  refine bind_eq_ok.mpr ⟨b, rfl, ?_⟩
  rw [if_neg (by omega), hamt]
  dsimp only
  rw [List.drop_length, List.take_length, hrest]
  rfl

theorem sendLoop_fits {fuel : ℕ} (hfuel : data.length < fuel)
    (hfits : b.inUse + data.length ≤ bufSize) : ∃ b', sendLoop bufSize fuel data b = .ok b' := by
  obtain ⟨fuel, rfl⟩ := Nat.exists_eq_succ_of_ne_zero (by omega : fuel ≠ 0)
  by_cases hnil : data = []
  · exact ⟨b, by rw [sendLoop, if_pos hnil]⟩
  have hpos := List.length_pos_of_ne_nil hnil
  obtain ⟨fuel, rfl⟩ := Nat.exists_eq_succ_of_ne_zero (by omega : fuel ≠ 0)
  refine ⟨b.copy data, ?_⟩
  rw [sendLoop, if_neg hnil, outbufWrite_fits hnil hfits]
  refine bind_eq_ok.mpr ⟨_, rfl, ?_⟩
  rw [List.drop_length, sendLoop, if_pos rfl]

theorem writeb_of_takes (hbuf : 0 < bufSize) (hfits : b.inUse ≤ bufSize)
    (hcount : bufSize * ((sent data).length + 1) ≤ b.answers.countP WriteRet.takes) :
    ∃ b', writeb bufSize data b = .ok b' := by
  cases hwrite : writeb bufSize data b with
  | ok b' => exact ⟨b', rfl⟩
  | error e =>
    obtain ⟨-, hlt⟩ := sendLoop_blocked hbuf (Nat.lt_succ_self _) hfits hwrite
    omega

theorem writeb_blocked (hbuf : 0 < bufSize) (hfits : b.inUse ≤ bufSize)
    (hfails : ∀ r ∈ b.answers, r.Fails) (hover : bufSize < b.inUse + (sent data).length) :
    writeb bufSize data b = .error .blocked := by
  cases hwrite : writeb bufSize data b with
  | ok b' =>
    obtain ⟨hacc, hfits'⟩ := writeb_took hbuf hfits hwrite
    have hstuck : Stuck (b.inUse - (accepted b.history).length) b' :=
      sendLoop_keeps (fun _ _ _ h hf => h.flush hf) (fun _ data h => h.copy data)
        ⟨hfails, by omega⟩ hwrite
    have hinUse := hstuck.inUse
    rw [hacc, List.length_append] at hinUse
    omega
  | error e =>
    obtain ⟨rfl, -⟩ := sendLoop_blocked hbuf (Nat.lt_succ_self _) hfits hwrite
    rfl

theorem writeb_ok_iff (hbuf : 0 < bufSize) (hfits : b.inUse ≤ bufSize)
    (hfails : ∀ r ∈ b.answers, r.Fails) :
    (∃ b', writeb bufSize data b = .ok b') ↔ b.inUse + (sent data).length ≤ bufSize := by
  constructor
  · rintro ⟨b', hok⟩
    by_contra hover
    rw [writeb_blocked hbuf hfits hfails (not_le.mp hover)] at hok
    cases hok
  · exact fun hle => sendLoop_fits (by omega) hle

/-- After any strings, the next call returns once the kernel has taken something often enough.
While every write fails it returns just for a string that fits into what is left of the buffer;
for any other it is still trying when the last of the writes has failed. -/
theorem run_writeb_returns {mem : ℕ → UInt8} {answers : List WriteRet}
    {strings : List (List UInt8)} (hbuf : 0 < bufSize)
    (hrun : run (writeb bufSize) strings (attach mem answers) = .ok b) (data : List UInt8) :
    (bufSize * ((sent data).length + 1) ≤ b.answers.countP WriteRet.takes →
      ∃ b', writeb bufSize data b = .ok b') ∧
    ((∀ r ∈ b.answers, r.Fails) →
      ((∃ b', writeb bufSize data b = .ok b') ↔ b.inUse + (sent data).length ≤ bufSize) ∧
      (writeb bufSize data b = .error .blocked ↔ bufSize < b.inUse + (sent data).length)) := by
  obtain ⟨-, hfits⟩ := run_accepted hbuf (Nat.zero_le _) hrun
  refine ⟨writeb_of_takes hbuf hfits, fun hfails => ?_⟩
  have hok : (∃ b', writeb bufSize data b = .ok b') ↔ b.inUse + (sent data).length ≤ bufSize :=
    writeb_ok_iff hbuf hfits hfails
  refine ⟨hok, fun hblocked => ?_, writeb_blocked hbuf hfits hfails⟩
  by_contra hle
  obtain ⟨b', hwrite⟩ := hok.mpr (not_lt.mp hle)
  rw [hwrite] at hblocked
  cases hblocked

def fullDisk : List WriteRet := [⟨-1, false⟩, ⟨-1, true⟩, ⟨0, false⟩]

/-- The second line does not fit behind the first, a shorter one does. -/
theorem run_writeb_returns_halfLine : ∃ b,
    run (writeb printBufferSize) [halfLine.mem] (attach (fun _ => 0) fullDisk) = .ok b ∧
    writeb printBufferSize halfLine.mem b = .error .blocked ∧
    ∃ b', writeb printBufferSize [98] b = .ok b' := by
  have hfirst : (run (writeb printBufferSize) [halfLine.mem]
      (attach (fun _ => 0) fullDisk)).map (fun b => (b.inUse, b.answers)) =
        .ok (600, fullDisk) := by decide +kernel
  have hlength : (sent halfLine.mem).length = 600 := by decide +kernel
  obtain ⟨b, hrun, hout⟩ := map_eq_ok.mp hfirst
  obtain ⟨hinUse, hanswers⟩ := Prod.mk.inj hout
  have hfails : ∀ r ∈ b.answers, r.Fails := by
    rw [hanswers]
    decide
  obtain ⟨-, hhalf⟩ := run_writeb_returns (Nat.zero_lt_succ _) hrun halfLine.mem
  obtain ⟨-, hshort⟩ := run_writeb_returns (Nat.zero_lt_succ _) hrun [98]
  refine ⟨b, hrun, (hhalf hfails).2.mpr ?_, (hshort hfails).1.mpr ?_⟩
  · rw [hinUse, hlength]
    decide
  · rw [hinUse]
    decide

end Waiting

end Trace4J.Profiler.OutbufFaults
