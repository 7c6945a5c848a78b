import Mathlib.Algebra.Order.Ring.Int
import Mathlib.Data.List.Basic
import Mathlib.Tactic.Common
import Trace4J.Library.Run

/-!
# Formatted output

`OUTPUT::writef` and `writeb` over the buffer of `hpcio_outbuf`. A string shorter than the
buffer on the stack is formatted once; a longer one is formatted again into a heap buffer
of just its length, which leaves no room for the last character.
-/

namespace Trace4J.Profiler.BufferedOutput
open Library

abbrev FileName := List Char

inductive OpenRet
  | created
  | exists
  | failed

/-- The system calls: what `open` says of a name, and how many of the `n` bytes offered
the k-th `write` takes. -/
structure Host where
  openRet : FileName → OpenRet
  accept : ℕ → ℕ → ℕ
  takes : ∀ k n, 0 < n → 0 < accept k n ∧ accept k n ≤ n

/-! ## The buffer of hpcio -/

/-- `inUse` is what stands in the used part of the buffer, `file` what was written. -/
structure OutBuf where
  inUse : List UInt8 := []
  file : List UInt8 := []
  writes : ℕ := 0

def printBufferSize : ℕ := 1024

/-- The loop of `outbuf_flush_buffer` over what is not written yet. -/
def flushLoop (host : Host) : ℕ → List UInt8 → OutBuf → OutBuf
  | 0, _, b => b
  | fuel + 1, pending, b =>
    if pending = [] then b
    else
      let ret := host.accept b.writes pending.length
      flushLoop host fuel (pending.drop ret)
        { b with file := b.file ++ pending.take ret, writes := b.writes + 1 }

def flushBuffer (host : Host) (b : OutBuf) : OutBuf :=
  { flushLoop host b.inUse.length b.inUse b with inUse := [] }

def makeRoom (host : Host) (size : ℕ) (b : OutBuf) : OutBuf :=
  if printBufferSize - b.inUse.length < size then flushBuffer host b else b

/-- The loop of `hpcio_outbuf_write` over the bytes still to be copied, with the number
of those it has copied. -/
def outbufWriteLoop (host : Host) (size : ℕ) : ℕ → List UInt8 → OutBuf → ℕ × OutBuf
  | 0, _, b => (0, b)
  | fuel + 1, data, b =>
    if data = [] then (0, b)
    else
      let b := makeRoom host size b
      -- the buffer is still full when the flush has failed
      if b.inUse.length = printBufferSize then (0, b)
      else
        let amt := min data.length (printBufferSize - b.inUse.length)
        let r := outbufWriteLoop host size fuel (data.drop amt)
          { b with inUse := b.inUse ++ data.take amt }
        (amt + r.1, r.2)

def outbufWrite (host : Host) (data : List UInt8) (b : OutBuf) : ℕ × OutBuf :=
  outbufWriteLoop host data.length data.length data b

/-! ## The output stream -/

/-- A size as the `int` it is stored in. -/
def int32 (n : ℕ) : ℤ := Int.bmod n (2 ^ 32)

def nameBufferSize : ℕ := 256
def localBufferSize : ℕ := 2048

def cString (mem : List UInt8) : List UInt8 := mem.takeWhile (· ≠ 0)

def vsnprintf (n : ℕ) (text : List UInt8) : List UInt8 := text.take (n - 1) ++ [0]

/-- `buf` is `none` until the file is open. -/
structure Output where
  fileName : FileName
  buf : Option OutBuf := none

inductive OutputFault
  | outOfFuel

/-- The loop of `_openFile`: a name that is taken gets an `f`. -/
def openFile (host : Host) : ℕ → FileName → FileName × Bool
  | 0, name => (name, false)
  | fuel + 1, name =>
    match host.openRet name with
    | .created => (name, true)
    | .exists =>
      if nameBufferSize - 1 ≤ name.length then (name, false)
      else openFile host fuel (name ++ ['f'])
    | .failed => (name, false)

def sendLoop (host : Host) : ℕ → ℤ → List UInt8 → OutBuf → Except OutputFault OutBuf
  | 0, _, _, _ => .error .outOfFuel
  | fuel + 1, remaining, data, b =>
    if 0 < remaining then
      let r := outbufWrite host (data.take remaining.toNat) b
      sendLoop host fuel (remaining - r.1) (data.drop r.1) r.2
    else .ok b

def sendString (host : Host) (mem : List UInt8) (o : Output) (b : OutBuf) :
    Except OutputFault (ℤ × Output) := do
  let dataSize := int32 (cString mem).length
  let b ← sendLoop host (dataSize.toNat + 1) dataSize mem b
  .ok (dataSize, { o with buf := some b })

def writeb (host : Host) (mem : List UInt8) (o : Output) : Except OutputFault (ℤ × Output) :=
  match o.buf with
  | some b => sendString host mem o b
  | none =>
    if o.fileName = [] then .ok (0, o)
    else
      let r := openFile host nameBufferSize o.fileName
      if r.2 then sendString host mem { o with fileName := r.1 } {}
      else .ok (0, { o with fileName := r.1 })

/-- `text` is the formatted output; the first call of `vsnprintf` returns its length. -/
def writef (host : Host) (text : List UInt8) (o : Output) : Except OutputFault (ℤ × Output) :=
  let dataSize := text.length
  if localBufferSize ≤ dataSize then writeb host (vsnprintf dataSize text) o
  else writeb host (vsnprintf localBufferSize text) o

/-- `vsnprintf` only makes outputs whose length is an `int`. -/
structure Formatted where
  text : List UInt8
  fits : text.length < 2 ^ 31

structure CText where
  text : List UInt8
  noNul : 0 ∉ text

inductive OutputCall
  | writef (output : Formatted)
  | writeb (buf : CText)

namespace OutputCall

def text : OutputCall → List UInt8
  | .writef output => output.text
  | .writeb buf => buf.text

def exec (host : Host) (o : Output) : OutputCall → Except OutputFault (ℤ × Output)
  | .writef output => BufferedOutput.writef host output.text o
  | .writeb buf => BufferedOutput.writeb host (buf.text ++ [0]) o

/-- Short enough for the buffer on the stack, and text throughout; a string that is handed
over as it is only has to be no longer than an `int` can say. -/
def Fits : OutputCall → Prop
  | .writef output => output.text.length < localBufferSize ∧ 0 ∉ output.text
  | .writeb buf => buf.text.length < 2 ^ 31

def mem : OutputCall → List UInt8
  | .writef output =>
    vsnprintf (if localBufferSize ≤ output.text.length then output.text.length
      else localBufferSize) output.text
  | .writeb buf => buf.text ++ [0]

end OutputCall

def execCalls (host : Host) : List OutputCall → Output → Except OutputFault (List ℤ × Output)
  | [], o => .ok ([], o)
  | c :: cs, o => do
    let (ret, o) ← c.exec host o
    let (rets, o) ← execCalls host cs o
    .ok (ret :: rets, o)

def delivered (host : Host) (o : Output) : List UInt8 :=
  match o.buf with
  | none => []
  | some b => (flushBuffer host b).file

/-- Every call returns the length of its string, and the file holds them all. -/
def DeliversAll (host : Host) (name : FileName) (calls : List OutputCall) : Prop :=
  ∃ rets o, execCalls host calls { fileName := name } = .ok (rets, o) ∧
    rets = calls.map (fun c => (c.text.length : ℤ)) ∧
    delivered host o = (calls.map OutputCall.text).flatten

variable {host : Host} {b b' : OutBuf} {o : Output} {data mem text pending : List UInt8}
variable {size fuel : ℕ} {name : FileName} {c : OutputCall} {calls : List OutputCall}

/-! ## The buffer keeps every byte -/

theorem flushLoop_file (h : pending.length ≤ fuel) :
    (flushLoop host fuel pending b).file = b.file ++ pending := by
  induction fuel generalizing pending b with
  | zero =>
    obtain rfl := List.eq_nil_of_length_eq_zero (Nat.le_zero.mp h)
    simp [flushLoop]
  | succ fuel ih =>
    rw [flushLoop]
    split_ifs with hnil
    · simp [hnil]
    · have hpos := List.length_pos_of_ne_nil hnil
      obtain ⟨hret, -⟩ := host.takes b.writes pending.length hpos
      dsimp only
      rw [ih (by rw [List.length_drop]; omega), List.append_assoc, List.take_append_drop]

@[simp]
theorem flushBuffer_file : (flushBuffer host b).file = b.file ++ b.inUse := flushLoop_file le_rfl

def OutBuf.bytes (b : OutBuf) : List UInt8 := b.file ++ b.inUse

theorem makeRoom_bytes : (makeRoom host size b).bytes = b.bytes := by
  unfold makeRoom
  split_ifs
  · simp [OutBuf.bytes, flushBuffer]
    exact flushLoop_file le_rfl
  · rfl

theorem makeRoom_length (hb : b.inUse.length ≤ printBufferSize) (hsize : 0 < size) :
    (makeRoom host size b).inUse.length < printBufferSize := by
  unfold makeRoom
  split_ifs with hfull
  · exact Nat.zero_lt_succ _
  · omega

theorem outbufWriteLoop_spec (hb : b.inUse.length ≤ printBufferSize) (hsize : 0 < size)
    (hfuel : data.length ≤ fuel) :
    ∃ b', outbufWriteLoop host size fuel data b = (data.length, b') ∧
      b'.bytes = b.bytes ++ data ∧ b'.inUse.length ≤ printBufferSize := by
  induction fuel generalizing data b with
  | zero =>
    obtain rfl := List.eq_nil_of_length_eq_zero (Nat.le_zero.mp hfuel)
    exact ⟨b, rfl, by simp, hb⟩
  | succ fuel ih =>
    by_cases hnil : data = []
    · exact ⟨b, by simp [outbufWriteLoop, hnil], by simp [hnil], hb⟩
    have hroom : (makeRoom host size b).inUse.length < printBufferSize := makeRoom_length hb hsize
    have hbytes : (makeRoom host size b).bytes = b.bytes := makeRoom_bytes
    set room := makeRoom host size b with hmake
    have hpos := List.length_pos_of_ne_nil hnil
    set amt := min data.length (printBufferSize - room.inUse.length) with hamt
    have hamtpos : 0 < amt := by omega
    have hfits : (room.inUse ++ data.take amt).length ≤ printBufferSize := by
      simp only [List.length_append, List.length_take]
      omega
    have hshort : (data.drop amt).length ≤ fuel := by
      rw [List.length_drop]
      omega
    obtain ⟨b', hloop, hb', hlen⟩ :=
      @ih { room with inUse := room.inUse ++ data.take amt } (data.drop amt) hfits hshort
    refine ⟨b', ?_, ?_, hlen⟩
    · rw [outbufWriteLoop, if_neg hnil]
      simp only [← hmake, if_neg hroom.ne, ← hamt, hloop, List.length_drop, Prod.mk.injEq, and_true]
      omega
    · rw [hb', ← hbytes]
      simp only [OutBuf.bytes, List.append_assoc, List.take_append_drop]

theorem outbufWrite_spec (hb : b.inUse.length ≤ printBufferSize) (hdata : data ≠ []) :
    ∃ b', outbufWrite host data b = (data.length, b') ∧ b'.bytes = b.bytes ++ data ∧
      b'.inUse.length ≤ printBufferSize :=
  outbufWriteLoop_spec hb (List.length_pos_of_ne_nil hdata) le_rfl

/-! ## One string -/

theorem int32_eq (n : ℕ) : int32 n =
    if (n : ℤ) % 4294967296 < 2147483648 then (n : ℤ) % 4294967296
    else (n : ℤ) % 4294967296 - 4294967296 := rfl

theorem int32_le (n : ℕ) : int32 n ≤ n := by
  rw [int32_eq]
  split_ifs <;> omega

theorem int32_eq_iff (n : ℕ) : int32 n = n ↔ n < 2 ^ 31 := by
  rw [int32_eq]
  split_ifs <;> omega

theorem cString_length_le (text : List UInt8) : (cString (text ++ [0])).length ≤ text.length := by
  induction text with
  | nil => exact le_rfl
  | cons a text ih =>
    by_cases ha : a = 0
    · simp [cString, ha]
    · simpa [cString, ha] using ih

theorem cString_length_eq_iff (text : List UInt8) :
    (cString (text ++ [0])).length = text.length ↔ 0 ∉ text := by
  induction text with
  | nil => exact iff_of_true rfl List.not_mem_nil
  | cons a text ih =>
    by_cases ha : a = 0
    · simp [cString, ha]
    · simpa [cString, ha, Ne.symm ha] using ih

theorem sendLoop_spec (n : ℤ) (hn : n ≤ mem.length) (hb : b.inUse.length ≤ printBufferSize) :
    ∃ b', sendLoop host (n.toNat + 1) n mem b = .ok b' ∧ b'.bytes = b.bytes ++ mem.take n.toNat ∧
      b'.inUse.length ≤ printBufferSize := by
  by_cases hpos : 0 < n
  · have hdata : mem.take n.toNat ≠ [] := by
      rw [Ne, ← List.length_eq_zero_iff, List.length_take]
      omega
    have hamt : (mem.take n.toNat).length = n.toNat := by
      rw [List.length_take]
      omega
    obtain ⟨b', hwrite, hbytes, hlen⟩ := @outbufWrite_spec host _ _ hb hdata
    obtain ⟨k, hk⟩ := Nat.exists_eq_succ_of_ne_zero (show n.toNat ≠ 0 by omega)
    rw [hamt] at hwrite
    refine ⟨b', ?_, hbytes, hlen⟩
    -- the buffer takes the whole string in one pass
    have hdone : ¬0 < n - (n.toNat : ℤ) := by omega
    rw [sendLoop, if_pos hpos, hwrite]
    dsimp only
    generalize n - (n.toNat : ℤ) = rest at hdone
    rw [hk, sendLoop, if_neg hdone]
  · have hzero : n.toNat = 0 := by omega
    refine ⟨b, ?_, by simp [hzero], hb⟩
    rw [sendLoop, if_neg hpos]

theorem sendString_spec (hb : b.inUse.length ≤ printBufferSize) :
    ∃ b', sendString host mem o b = .ok (int32 (cString mem).length, { o with buf := some b' }) ∧
      b'.bytes = b.bytes ++ mem.take (int32 (cString mem).length).toNat ∧
      b'.inUse.length ≤ printBufferSize := by
  have hlen : (cString mem).length ≤ mem.length := (List.takeWhile_prefix _).length_le
  have hint := int32_le (cString mem).length
  obtain ⟨b', hsend, hbytes, hle⟩ :=
    @sendLoop_spec host _ mem (int32 (cString mem).length) (by omega) hb
  refine ⟨b', ?_, hbytes, hle⟩
  rw [sendString, hsend]
  rfl

/-! ## Calls -/

def Output.Ready (host : Host) (o : Output) : Prop :=
  match o.buf with
  | some b => b.inUse.length ≤ printBufferSize
  | none => o.fileName ≠ [] ∧ (openFile host nameBufferSize o.fileName).2 = true

def Output.bytes (o : Output) : List UInt8 :=
  match o.buf with
  | some b => b.bytes
  | none => []

theorem delivered_eq : delivered host o = o.bytes := by
  unfold delivered Output.bytes
  cases o.buf with
  | none => rfl
  | some b => exact flushBuffer_file

def OutputCall.ret (c : OutputCall) : ℤ := int32 (cString c.mem).length

theorem writeb_spec (hr : o.Ready host) :
    ∃ o', writeb host mem o = .ok (int32 (cString mem).length, o') ∧ o'.Ready host ∧
      o'.bytes = o.bytes ++ mem.take (int32 (cString mem).length).toNat := by
  unfold writeb Output.bytes
  unfold Output.Ready at hr
  cases hbuf : o.buf with
  | some b =>
    rw [hbuf] at hr
    obtain ⟨b', hsend, hbytes, hle⟩ := @sendString_spec host _ o mem hr
    exact ⟨_, hsend, hle, hbytes⟩
  | none =>
    rw [hbuf] at hr
    obtain ⟨hname, hopen⟩ := hr
    obtain ⟨b', hsend, hbytes, hle⟩ := @sendString_spec host {}
      { o with fileName := (openFile host nameBufferSize o.fileName).1 } mem (Nat.zero_le _)
    simp only [if_neg hname, hopen, ↓reduceIte]
    exact ⟨_, hsend, hle, hbytes⟩

theorem exec_eq_writeb (c : OutputCall) : c.exec host o = writeb host c.mem o := by
  cases c with
  | writeb buf => rfl
  | writef output =>
    simp only [OutputCall.exec, OutputCall.mem, writef]
    split_ifs <;> rfl

theorem execCalls_spec (calls : List OutputCall) (hr : o.Ready host) :
    ∃ o', execCalls host calls o = .ok (calls.map OutputCall.ret, o') ∧
      o'.bytes = o.bytes ++ (calls.map fun c => c.mem.take c.ret.toNat).flatten := by
  induction calls generalizing o with
  | nil => exact ⟨o, rfl, by simp⟩
  | cons c calls ih =>
    obtain ⟨o₁, hcall, hr₁, hbytes₁⟩ := @writeb_spec host _ c.mem hr
    obtain ⟨o', hrest, hbytes⟩ := ih hr₁
    refine ⟨o', ?_, ?_⟩
    · simp only [execCalls, exec_eq_writeb, hcall, hrest, bind, Except.bind]
      rfl
    · rw [hbytes, hbytes₁, List.append_assoc]
      rfl

/-! ## What fits -/

theorem vsnprintf_of_lt {n : ℕ} (h : text.length < n) : vsnprintf n text = text ++ [0] := by
  rw [vsnprintf, List.take_of_length_le (by omega)]

theorem int32_cString {n : ℕ} (hle : (cString mem).length ≤ n) (hn : n < 2 ^ 31) :
    int32 (cString mem).length = (cString mem).length := (int32_eq_iff _).mpr (hle.trans_lt hn)

theorem ret_eq_iff (c : OutputCall) : c.ret = c.text.length ↔ c.Fits := by
  cases c with
  | writeb buf =>
    have hlen := (cString_length_eq_iff buf.text).mpr buf.noNul
    simp only [OutputCall.ret, OutputCall.mem, OutputCall.text, OutputCall.Fits, hlen]
    exact int32_eq_iff _
  | writef output =>
    by_cases hlong : localBufferSize ≤ output.text.length
    · -- the heap buffer lacks the place for the terminator
      have hshort : (cString (vsnprintf output.text.length output.text)).length <
          output.text.length := by
        have hle := cString_length_le (output.text.take (output.text.length - 1))
        have hpos : 0 < output.text.length := lt_of_lt_of_le (Nat.zero_lt_succ _) hlong
        rw [List.length_take] at hle
        rw [vsnprintf]
        omega
      have hint := int32_cString hshort.le output.fits
      simp only [OutputCall.ret, OutputCall.mem, OutputCall.text, OutputCall.Fits, if_pos hlong, hint]
      exact iff_of_false (by omega) (fun h => absurd h.1 (not_lt.mpr hlong))
    · have hlt := not_le.mp hlong
      have hmem : vsnprintf localBufferSize output.text = output.text ++ [0] := vsnprintf_of_lt hlt
      have hint := int32_cString (cString_length_le output.text) output.fits
      simp only [OutputCall.ret, OutputCall.mem, OutputCall.text, OutputCall.Fits, if_neg hlong,
        hmem, hint, hlt, true_and, Nat.cast_inj]
      exact cString_length_eq_iff _

theorem sent_of_fits (h : c.Fits) : c.mem.take c.ret.toNat = c.text := by
  rw [(ret_eq_iff c).mpr h, Int.toNat_natCast]
  cases c with
  | writeb buf => exact List.take_left
  | writef output =>
    have hlt : ¬localBufferSize ≤ output.text.length := not_le.mpr h.1
    simp only [OutputCall.mem, OutputCall.text, if_neg hlt, vsnprintf_of_lt h.1]
    exact List.take_left

/-- The file gets every string whole and every call returns its length exactly when no
formatted string is as long as the buffer on the stack. -/
theorem output_delivers_iff (host : Host) (name : FileName) (hname : name ≠ [])
    (hopen : (openFile host nameBufferSize name).2 = true) (calls : List OutputCall) :
    DeliversAll host name calls ↔ ∀ c ∈ calls, c.Fits := by
  obtain ⟨o, hrun, hbytes⟩ :=
    execCalls_spec calls (show ({ fileName := name } : Output).Ready host from ⟨hname, hopen⟩)
  constructor
  · rintro ⟨rets, o', hrun', hrets, -⟩ c hc
    obtain ⟨rfl, -⟩ := Prod.mk.inj (Except.ok.inj (hrun.symm.trans hrun'))
    exact (ret_eq_iff c).mp (List.map_inj_left.mp hrets c hc)
  · intro hfit
    refine ⟨_, o, hrun, ?_, ?_⟩
    · exact List.map_inj_left.mpr fun c hc => (ret_eq_iff c).mpr (hfit c hc)
    · rw [delivered_eq, hbytes]
      exact congrArg List.flatten (List.map_inj_left.mpr fun c hc => sent_of_fits (hfit c hc))

def slowHost : Host where
  openRet _ := .created
  accept _ n := min n 7
  takes := by
    intro k n hn
    omega

def greeting : OutputCall := .writef ⟨[104, 101, 108, 108, 111, 44, 32, 98, 121, 101], by decide⟩

theorem output_delivers_greeting : DeliversAll slowHost ['o'] [greeting, greeting] ↔
    ∀ c ∈ [greeting, greeting], c.Fits :=
  output_delivers_iff slowHost ['o'] (by decide) rfl [greeting, greeting]

def longText : List UInt8 := List.replicate 2048 97

theorem length_longText : longText.length = 2048 := List.length_replicate

def longLine : OutputCall := .writef ⟨longText, by rw [length_longText]; omega⟩

/-- A formatted string of 2048 characters loses the last one. -/
theorem not_delivers_longLine : ¬DeliversAll slowHost ['o'] [longLine] := by
  rintro ⟨rets, o, hrun, hrets, -⟩
  have hready : ({ fileName := ['o'] } : Output).Ready slowHost := ⟨by decide, rfl⟩
  obtain ⟨o', hrun', -⟩ := execCalls_spec [longLine] hready
  obtain ⟨rfl, -⟩ := Prod.mk.inj (Except.ok.inj (hrun'.symm.trans hrun))
  have hfits := (ret_eq_iff longLine).mp (List.map_inj_left.mp hrets longLine List.mem_cons_self)
  exact absurd (length_longText ▸ hfits.1) (lt_irrefl _)

end Trace4J.Profiler.BufferedOutput
