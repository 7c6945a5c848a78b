import Trace4J.Profiler.StackSync

/-!
# The block cache of the decoder

`basic_block_map` remembers where the walk from a start address stops. An entry is made
on the first visit, completed on the second and used from the third on; no load or unload
of code ever removes it. From the third visit on the decoder therefore arms what the walk
found on the code of the second visit.
-/

namespace Trace4J.Profiler
open Library

/-- Where straight-line decoding goes on after an instruction; a direct relative jump is
followed, any other control transfer stops it. -/
def nextIp (xedd : Inst) (tempIp : Addr) : Option Addr :=
  match xedd.iclass.group, xedd.op0 with
  | .jump, .relbr disp => some (tempIp + UInt64.ofNat xedd.length + disp)
  | .default, _ => some (tempIp + UInt64.ofNat xedd.length)
  | _, _ => none

def walk (code : Addr → Option Inst) : ℕ → Addr → Except Fault (Inst × Addr)
  | 0, _ => .error .outOfFuel
  | fuel + 1, tempIp =>
    match code tempIp with
    | none => .error .assertion
    | some xedd =>
      match nextIp xedd tempIp with
      | some ip => walk code fuel ip
      | none => .ok (xedd, tempIp)

def walkDecoder (cfg : Config) (code : Addr → Option Inst) (sampleIP : Addr) (s : Thread) :
    Except Fault Thread := do
  let (xedd, tempIp) ← walk code cfg.fuel sampleIP
  armStop sampleIP xedd tempIp s

/-- One call of `decoder` in a history: the code at that time, the start address and what
the handlers left of the thread, whose block map is the one of the history. -/
structure DecodeCall where
  code : Addr → Option Inst
  sampleIP : Addr
  thread : Thread
  code_noIP : code noIP = none
  pushed : ∀ sd ∈ thread.wpStack, sd = returnWatch sd.va sd.calleeCtxtFrame

def DecodeCall.at (c : DecodeCall) (map : BasicBlockMap) : Thread :=
  { c.thread with basicBlockMap := map }

def decodeCall (cfg : Config) (c : DecodeCall) (map : BasicBlockMap) :
    Except Fault BasicBlockMap := do
  let s ← decoder cfg c.code c.sampleIP (c.at map)
  .ok s.basicBlockMap

def armed (s : Thread) : Addr × WPAccess := (s.watchPoint.sd.va, s.watchPoint.sd.watchType)

def ArmsAsWalk (cfg : Config) (map : BasicBlockMap) (c : DecodeCall) : Prop :=
  (decoder cfg c.code c.sampleIP (c.at map)).map armed =
    (walkDecoder cfg c.code c.sampleIP (c.at map)).map armed

def visits (cfg : Config) (calls : List DecodeCall) (ip : Addr) : List DecodeCall :=
  calls.filter fun c => c.sampleIP = ip ∧ c.thread.decodeInsCounter < cfg.decodeThreshold

def stopWatch (s : Thread) (stop : Inst × Addr) : Except Fault (Addr × WPAccess) :=
  match stop.1.iclass.group with
  | .ret =>
    if s.wpStack.length = 1 then do
      let (sd, _) ← popStack s.wpStack
      let _ ← popStack s.retCtxtStack
      .ok (sd.va, sd.watchType)
    else do
      let _ ← popStack s.wpStack
      .ok (stop.2, .exec)
  | _ => .ok (stop.2, .exec)

def watchOn (cfg : Config) (code : Addr → Option Inst) (ip : Addr) (s : Thread) :
    Except Fault (Addr × WPAccess) :=
  walk code cfg.fuel ip >>= stopWatch s

/-- The code of the second visit, if there were two, asks for the same watchpoint as the
current code. -/
def Unchanged (cfg : Config) (calls : List DecodeCall) (c : DecodeCall) : Prop :=
  ∀ c₂, (visits cfg calls c.sampleIP)[1]? = some c₂ →
    watchOn cfg c₂.code c.sampleIP c.thread = watchOn cfg c.code c.sampleIP c.thread

variable {cfg : Config} {code : Addr → Option Inst} {map map' : BasicBlockMap} {s s' : Thread}
variable {ip tempIp : Addr} {fuel counter : ℕ} {bbInfo : Option BasicBlock} {p : Inst × Addr}

theorem isStop_iff_nextIp {xedd : Inst} : IsStop xedd ↔ nextIp xedd tempIp = none := by
  unfold IsStop nextIp
  cases xedd.iclass.group <;> cases xedd.op0 <;> simp

theorem walk_stop (h : walk code fuel tempIp = .ok p) : code p.2 = some p.1 ∧ IsStop p.1 := by
  induction fuel generalizing tempIp with
  | zero => cases h
  | succ fuel ih =>
    rw [walk] at h
    split at h
    · cases h
    · next xedd hc =>
      split at h
      · exact ih h
      · next hn =>
        cases h
        exact ⟨hc, isStop_iff_nextIp.mpr hn⟩

theorem decoderLoop_succ {xedd : Inst} {a : Addr} (hthr : counter < cfg.decodeThreshold)
    (hf : fetchInst code ip bbInfo tempIp map = .ok (xedd, a, map')) :
    decoderLoop cfg code counter ip bbInfo (fuel + 1) tempIp map =
      match nextIp xedd a with
      | some next => decoderLoop cfg code counter ip bbInfo fuel next map'
      | none => .ok (.stop xedd a, map') := by
  rw [decoderLoop, if_neg (not_le.mpr hthr), hf]
  dsimp only [bind, Except.bind, nextIp]
  cases xedd.iclass.group <;> cases xedd.op0 <;> rfl

def enterBlock (code : Addr → Option Inst) (ip : Addr) (map : BasicBlockMap) : BasicBlockMap :=
  match code ip with
  | none => map
  | some xedd => insertBlock map ip ⟨xedd, noIP⟩

theorem insertBlock_present {bb bb' : BasicBlock} (h : map ip = some bb) :
    insertBlock map ip bb' = map := by
  rw [insertBlock, h]

theorem insertBlock_self {bb : BasicBlock} : (insertBlock map ip bb ip).isSome = true := by
  unfold insertBlock
  cases h : map ip with
  | none => simp
  | some bb' => simp [h]

theorem decoderLoop_present (hk : knownBlock bbInfo = none) (hthr : counter < cfg.decodeThreshold)
    (hp : (map ip).isSome = true) :
    decoderLoop cfg code counter ip bbInfo fuel tempIp map =
      (walk code fuel tempIp).map fun p => (.stop p.1 p.2, map) := by
  obtain ⟨bb, hbb⟩ := Option.isSome_iff_exists.mp hp
  induction fuel generalizing tempIp with
  | zero => rfl
  | succ fuel ih =>
    rw [walk]
    cases hc : code tempIp with
    | none =>
      rw [decoderLoop, if_neg (not_le.mpr hthr)]
      simp only [fetchInst, hk, hc]
      rfl
    | some xedd =>
      have hf : fetchInst code ip bbInfo tempIp map = .ok (xedd, tempIp, map) := by
        simp only [fetchInst, hk, hc, insertBlock_present hbb, ite_self]
      rw [decoderLoop_succ hthr hf]
      dsimp only
      cases nextIp xedd tempIp with
      | none => rfl
      | some next => exact ih

theorem decoderLoop_start_walk (hk : knownBlock bbInfo = none)
    (hthr : counter < cfg.decodeThreshold) :
    decoderLoop cfg code counter ip bbInfo fuel ip map =
      (walk code fuel ip).map fun p => (.stop p.1 p.2, enterBlock code ip map) := by
  cases fuel with
  | zero => rfl
  | succ fuel =>
    rw [walk]
    cases hc : code ip with
    | none =>
      rw [decoderLoop, if_neg (not_le.mpr hthr)]
      simp only [fetchInst, hk, hc]
      rfl
    | some xedd =>
      have hf : fetchInst code ip bbInfo ip map =
          .ok (xedd, ip, insertBlock map ip ⟨xedd, noIP⟩) := by
        simp only [fetchInst, hk, hc, ↓reduceIte]
      rw [decoderLoop_succ hthr hf]
      simp only [enterBlock, hc]
      cases nextIp xedd ip with
      | none => rfl
      | some next => exact decoderLoop_present hk hthr insertBlock_self

theorem decoder_of_unknown (hk : knownBlock (s.basicBlockMap ip) = none)
    (hthr : s.decodeInsCounter < cfg.decodeThreshold) :
    decoder cfg code ip s = walk code cfg.fuel ip >>= fun p =>
      armStop ip p.1 p.2 { s with
        basicBlockMap :=
          rememberStop (s.basicBlockMap ip) ip p.1 p.2 (enterBlock code ip s.basicBlockMap) } := by
  dsimp only [decoder]
  rw [decoderLoop_start_walk hk hthr]
  cases walk code cfg.fuel ip <;> rfl

theorem decoder_of_known {bb : BasicBlock} (hb : s.basicBlockMap ip = some bb)
    (hne : bb.wpIP ≠ noIP) (hs : IsStop bb.wpXedd) (hfuel : cfg.fuel ≠ 0)
    (hthr : s.decodeInsCounter < cfg.decodeThreshold) :
    decoder cfg code ip s = armStop ip bb.wpXedd bb.wpIP s := by
  obtain ⟨fuel, hf⟩ := Nat.exists_eq_succ_of_ne_zero hfuel
  have hloop : decoderLoop cfg code s.decodeInsCounter ip (s.basicBlockMap ip) cfg.fuel ip
      s.basicBlockMap = .ok (.stop bb.wpXedd bb.wpIP, s.basicBlockMap) := by
    have hfetch : fetchInst code ip (s.basicBlockMap ip) ip s.basicBlockMap =
        .ok (bb.wpXedd, bb.wpIP, s.basicBlockMap) := by
      simp only [fetchInst, knownBlock, hb, if_neg hne]
    rw [hf, decoderLoop_succ hthr hfetch, isStop_iff_nextIp.mp hs]
  dsimp only [decoder]
  rw [hloop]
  simp only [bind, Except.bind, rememberStop, hb, if_neg hne]

theorem armStop_basicBlockMap {xedd : Inst} (h : armStop ip xedd tempIp s = .ok s') :
    s'.basicBlockMap = s.basicBlockMap := by
  unfold armStop at h
  split at h
  · split_ifs at h
    · obtain ⟨⟨sd, rest⟩, -, h⟩ := bind_eq_ok.mp h
      obtain ⟨⟨c, cs⟩, -, h⟩ := bind_eq_ok.mp h
      cases h
      rfl
    · obtain ⟨⟨sd, rest⟩, -, h⟩ := bind_eq_ok.mp h
      cases h
      rfl
  · cases h
    rfl
  · cases h
    rfl

theorem decoder_over_basicBlockMap (hthr : cfg.decodeThreshold ≤ s.decodeInsCounter)
    (h : decoder cfg code ip s = .ok s') : s'.basicBlockMap = s.basicBlockMap := by
  obtain ⟨⟨r, m⟩, hl, h⟩ := bind_eq_ok.mp h
  cases hf : cfg.fuel with
  | zero =>
    rw [hf] at hl
    cases hl
  | succ fuel =>
    rw [hf, decoderLoop, if_pos hthr] at hl
    cases hl
    obtain ⟨⟨sd, rest⟩, -, h⟩ := bind_eq_ok.mp h
    cases h
    rfl

/-! ## What a history leaves in the map -/

def Remembers (cfg : Config) (ip : Addr) (entry : Option BasicBlock) : List DecodeCall → Prop
  | [] => entry = none
  | [_] => ∃ xedd, entry = some ⟨xedd, noIP⟩
  | _ :: c₂ :: _ => ∃ xedd tempIp, walk c₂.code cfg.fuel ip = .ok (xedd, tempIp) ∧
      entry = some ⟨xedd, tempIp⟩

theorem ne_noIP_of_walk {c : DecodeCall} (h : walk c.code fuel tempIp = .ok p) : p.2 ≠ noIP := by
  intro hp
  have hc := (walk_stop h).1
  rw [hp, c.code_noIP] at hc
  cases hc

theorem enterBlock_of_ne {a : Addr} (h : a ≠ ip) : enterBlock code ip map a = map a := by
  unfold enterBlock
  cases code ip with
  | none => rfl
  | some xedd =>
    dsimp only [insertBlock]
    cases map ip with
    | none => exact Function.update_of_ne h _ _
    | some bb => rfl

theorem rememberStop_of_ne {xedd : Inst} {a : Addr} (h : a ≠ ip) :
    rememberStop bbInfo ip xedd tempIp map a = map a := by
  unfold rememberStop
  split
  · rfl
  · split_ifs
    · exact Function.update_of_ne h _ _
    · rfl

theorem fuel_ne_zero_of_walk (h : walk code fuel tempIp = .ok p) : fuel ≠ 0 := by
  rintro rfl
  cases h

theorem decodeCall_walks {c : DecodeCall} {vs : List DecodeCall}
    (hthr : c.thread.decodeInsCounter < cfg.decodeThreshold)
    (hr : Remembers cfg c.sampleIP (map c.sampleIP) vs) (h : decodeCall cfg c map = .ok map') :
    Remembers cfg c.sampleIP (map' c.sampleIP) (vs ++ [c]) ∧ ∀ a ≠ c.sampleIP, map' a = map a := by
  obtain ⟨s', hd, h⟩ := bind_eq_ok.mp h
  cases h
  -- the first two visits walk, the later ones use the entry
  have hunknown : knownBlock (map c.sampleIP) = none → ∃ p, walk c.code cfg.fuel c.sampleIP = .ok p ∧
      s'.basicBlockMap = rememberStop (map c.sampleIP) c.sampleIP p.1 p.2
        (enterBlock c.code c.sampleIP map) := by
    intro hk
    rw [decoder_of_unknown (s := c.at map) hk hthr] at hd
    obtain ⟨p, hp, hd⟩ := bind_eq_ok.mp hd
    exact ⟨p, hp, armStop_basicBlockMap hd⟩
  match vs, hr with
  | [], hr =>
    have hr : map c.sampleIP = none := hr
    obtain ⟨p, hp, hm⟩ := hunknown (by rw [hr]; rfl)
    rw [hr] at hm
    constructor
    · have hsome : (c.code c.sampleIP).isSome = true := by
        obtain ⟨fuel, hf⟩ := Nat.exists_eq_succ_of_ne_zero (fuel_ne_zero_of_walk hp)
        rw [hf, walk] at hp
        split at hp
        · cases hp
        · next hc => simp [hc]
      obtain ⟨xedd, hc⟩ := Option.isSome_iff_exists.mp hsome
      refine ⟨xedd, ?_⟩
      rw [hm]
      simp [rememberStop, enterBlock, hc, insertBlock, hr]
    · intro a ha
      rw [hm, rememberStop_of_ne ha, enterBlock_of_ne ha]
  | [_], ⟨xedd, hr⟩ =>
    obtain ⟨p, hp, hm⟩ := hunknown (by simp [hr, knownBlock])
    rw [hr] at hm
    constructor
    · refine ⟨p.1, p.2, hp, ?_⟩
      rw [hm]
      simp [rememberStop]
    · intro a ha
      rw [hm, rememberStop_of_ne ha, enterBlock_of_ne ha]
  | c₁ :: c₂ :: rest, ⟨xedd, tempIp, hw, hr⟩ =>
    have hthr' : (c.at map).decodeInsCounter < cfg.decodeThreshold := hthr
    rw [decoder_of_known hr (ne_noIP_of_walk hw) (walk_stop hw).2 (fuel_ne_zero_of_walk hw)
      hthr'] at hd
    rw [armStop_basicBlockMap hd]
    exact ⟨⟨xedd, tempIp, hw, hr⟩, fun _ _ => rfl⟩

theorem visits_append {calls : List DecodeCall} {c : DecodeCall} :
    visits cfg (calls ++ [c]) ip = visits cfg calls ip ++
      if c.sampleIP = ip ∧ c.thread.decodeInsCounter < cfg.decodeThreshold then [c] else [] := by
  rw [visits, List.filter_append, visits, List.filter_singleton]
  simp only [Bool.cond_eq_ite, decide_eq_true_eq]

theorem remembers_run {calls : List DecodeCall}
    (h : run (decodeCall cfg) calls (fun _ => none) = .ok map) (ip : Addr) :
    Remembers cfg ip (map ip) (visits cfg calls ip) := by
  induction calls using List.reverseRecOn generalizing map ip with
  | nil =>
    cases h
    rfl
  | append_singleton calls c ih =>
    obtain ⟨map₁, h₁, h⟩ := run_append.mp h
    obtain ⟨map₂, h₂, h⟩ := run_cons.mp h
    cases h
    rw [visits_append]
    by_cases hthr : c.thread.decodeInsCounter < cfg.decodeThreshold
    · by_cases hip : c.sampleIP = ip
      · subst hip
        rw [if_pos ⟨rfl, hthr⟩]
        exact (decodeCall_walks hthr (ih h₁ _) h₂).1
      · have hother := (decodeCall_walks hthr (ih h₁ c.sampleIP) h₂).2 ip (Ne.symm hip)
        rw [if_neg (fun hc => hip hc.1), List.append_nil, hother]
        exact ih h₁ ip
    · obtain ⟨s', hd, hs⟩ := bind_eq_ok.mp h₂
      cases hs
      rw [if_neg (fun hc => hthr hc.2), List.append_nil,
        decoder_over_basicBlockMap (s := c.at map₁) (not_lt.mp hthr) hd]
      exact ih h₁ ip

/-! ## What is armed -/

def slotAfter (wpi : WPRegisterInfo) (w : Addr × WPAccess) : Addr × WPAccess :=
  let wpi' := (wpSubscribe wpi { va := w.1, watchType := w.2, calleeCtxtFrame := {} }).1
  (wpi'.sd.va, wpi'.sd.watchType)

theorem slotAfter_free {wpi : WPRegisterInfo} (h : wpi.isActive = false) (w : Addr × WPAccess) :
    slotAfter wpi w = w := by
  rw [slotAfter, wpSubscribe_of_inactive h rfl]

theorem armed_subscribe {sd : SampleData} (hlen : sd.watchLen = 8) :
    armed (subscribe s sd) = slotAfter s.watchPoint (sd.va, sd.watchType) := by
  have hvalid : validateWPData sd = true := by simp [validateWPData, hlen]
  have hover : isOverlapped s.watchPoint
      { va := sd.va, watchType := sd.watchType, calleeCtxtFrame := {} } =
        isOverlapped s.watchPoint sd := by
    simp [isOverlapped, hlen]
  dsimp only [armed, subscribe, slotAfter, wpSubscribe]
  rw [hvalid, hover]
  cases isOverlapped s.watchPoint sd <;> rfl

theorem armStop_armed {c : DecodeCall} :
    (armStop ip p.1 p.2 (c.at map)).map armed =
      (stopWatch c.thread p).map (slotAfter c.thread.watchPoint) := by
  unfold armStop stopWatch
  cases p.1.iclass.group with
  | ret =>
    dsimp only [DecodeCall.at]
    by_cases hlen : c.thread.wpStack.length = 1
    · simp only [hlen, ↓reduceIte]
      cases hp : popStack c.thread.wpStack with
      | error e => rfl
      | ok q =>
        cases popStack c.thread.retCtxtStack with
        | error e => rfl
        | ok r =>
          have hsd := c.pushed q.1 (by simp [popStack_eq_ok.mp hp])
          exact congrArg Except.ok (armed_subscribe (congrArg SampleData.watchLen hsd))
    · simp only [hlen, ↓reduceIte]
      cases popStack c.thread.wpStack with
      | error e => rfl
      | ok q => exact congrArg Except.ok (armed_subscribe rfl)
  | cond => exact congrArg Except.ok (armed_subscribe rfl)
  | jump => exact congrArg Except.ok (armed_subscribe rfl)
  | call => exact congrArg Except.ok (armed_subscribe rfl)
  | default => exact congrArg Except.ok (armed_subscribe rfl)

theorem walkDecoder_armed {c : DecodeCall} :
    (walkDecoder cfg code ip (c.at map)).map armed =
      (watchOn cfg code ip c.thread).map (slotAfter c.thread.watchPoint) := by
  dsimp only [walkDecoder, watchOn]
  cases walk code cfg.fuel ip with
  | error e => rfl
  | ok p => exact armStop_armed

theorem decoder_armed {calls : List DecodeCall} {c : DecodeCall}
    (h : run (decodeCall cfg) calls (fun _ => none) = .ok map)
    (hthr : c.thread.decodeInsCounter < cfg.decodeThreshold) :
    (decoder cfg c.code c.sampleIP (c.at map)).map armed =
      (watchOn cfg ((visits cfg calls c.sampleIP)[1]?.getD c).code c.sampleIP c.thread).map
        (slotAfter c.thread.watchPoint) := by
  have hr := remembers_run h c.sampleIP
  have hunknown : knownBlock (map c.sampleIP) = none →
      (decoder cfg c.code c.sampleIP (c.at map)).map armed =
        (watchOn cfg c.code c.sampleIP c.thread).map (slotAfter c.thread.watchPoint) := by
    intro hk
    rw [decoder_of_unknown (s := c.at map) hk hthr, watchOn]
    cases walk c.code cfg.fuel c.sampleIP with
    | error e => rfl
    | ok p => exact armStop_armed (c := c)
  match hv : visits cfg calls c.sampleIP, hr with
  | [], hr =>
    have hr : map c.sampleIP = none := hr
    exact hunknown (by rw [hr]; rfl)
  | [_], ⟨xedd, hr⟩ => exact hunknown (by simp [hr, knownBlock])
  | c₁ :: c₂ :: rest, ⟨xedd, tempIp, hw, hr⟩ =>
    rw [decoder_of_known (s := c.at map) hr (ne_noIP_of_walk hw) (walk_stop hw).2
      (fuel_ne_zero_of_walk hw) hthr]
    have hw' : watchOn cfg c₂.code c.sampleIP c.thread = stopWatch c.thread (xedd, tempIp) := by
      rw [watchOn, hw]
      rfl
    simp only [List.getElem?_cons_succ, List.getElem?_cons_zero, Option.getD_some, hw']
    exact armStop_armed (p := (xedd, tempIp))

/-- After any history of decoder calls and code changes, the decoder arms what the walk
over the current code arms when the second visit's code asks for the same watchpoint, and
only then, unless the slot refuses what it asks for. -/
theorem decoder_arms_as_walk_iff (cfg : Config) (calls : List DecodeCall) (map : BasicBlockMap)
    (h : run (decodeCall cfg) calls (fun _ => none) = .ok map) (c : DecodeCall)
    (hthr : c.thread.decodeInsCounter < cfg.decodeThreshold) :
    (Unchanged cfg calls c → ArmsAsWalk cfg map c) ∧
      (c.thread.watchPoint.isActive = false → ArmsAsWalk cfg map c → Unchanged cfg calls c) := by
  have hd := decoder_armed h hthr
  have hw : (walkDecoder cfg c.code c.sampleIP (c.at map)).map armed = _ := walkDecoder_armed
  constructor
  · intro hu
    rw [ArmsAsWalk, hd, hw]
    cases hv : (visits cfg calls c.sampleIP)[1]? with
    | none => rfl
    | some c₂ => rw [Option.getD_some, hu c₂ hv]
  · intro hfree ha c₂ hv
    have hslot : slotAfter c.thread.watchPoint = id := funext (slotAfter_free hfree)
    rw [ArmsAsWalk, hd, hw, hv, hslot] at ha
    simpa only [Except.map_id, id_eq, Option.getD_some] using ha

def decodeImage (image : List (Addr × Inst)) (h : ∀ p ∈ image, p.1 ≠ noIP) : DecodeCall where
  code a := (image.find? fun p => p.1 = a).map (·.2)
  sampleIP := 0x1000
  thread := Thread.init
  code_noIP := by
    rw [List.find?_eq_none.mpr fun p hp => by simpa using h p hp]
    rfl
  pushed := by simp [Thread.init]

def branchAtEntry : DecodeCall := decodeImage [(0x1000, ⟨.jz, 2, .relbr 6⟩)] (by decide)

def branchBehindEntry : DecodeCall :=
  decodeImage [(0x1000, ⟨.other, 4, .other⟩), (0x1004, ⟨.jz, 2, .relbr 6⟩)] (by decide)

def branchThenOther : DecodeCall :=
  decodeImage [(0x1000, ⟨.jz, 2, .relbr 6⟩), (0x1002, ⟨.other, 4, .other⟩)] (by decide)

theorem decoder_arms_as_walk_branchThenOther :
    ∃ map, run (decodeCall (oneEventConfig 8)) [branchAtEntry, branchAtEntry] (fun _ => none) =
        .ok map ∧
      ArmsAsWalk (oneEventConfig 8) map branchThenOther := by
  refine ⟨_, rfl, (decoder_arms_as_walk_iff (oneEventConfig 8) [branchAtEntry, branchAtEntry] _ rfl
    branchThenOther (by decide)).1 ?_⟩
  intro c₂ hv
  obtain rfl : branchAtEntry = c₂ := Option.some.inj hv
  rfl

/-- On the third visit the branch of the old code is armed, not the one of the new. -/
theorem branchBehindEntry_arms_stale :
    ∃ map, run (decodeCall (oneEventConfig 8)) [branchAtEntry, branchAtEntry] (fun _ => none) =
        .ok map ∧
      (decoder (oneEventConfig 8) branchBehindEntry.code 0x1000 (branchBehindEntry.at map)).map
        armed = .ok (0x1000, .exec) ∧
      ¬ArmsAsWalk (oneEventConfig 8) map branchBehindEntry := by
  refine ⟨_, rfl, rfl, ?_⟩
  intro h
  have hne : ((0x1000, .exec) : Addr × WPAccess) = (0x1004, .exec) := Except.ok.inj h
  exact absurd hne (by decide)

end Trace4J.Profiler
