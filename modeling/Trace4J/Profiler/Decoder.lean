import Trace4J.Profiler.Tracer

/-!
# What one call of the decoder can do

`DecoderStep` lists the five ways in which `decoder` returns, one for each kind
of watchpoint it arms, with everything it changes. Later proofs cite
`decoder_step` and `decoder_fault` and never unfold the decoder. `BlocksOk` is the
invariant of the basic-block map under a fixed code image: a remembered
watchpoint address still decodes to the instruction that was remembered for it.
-/

namespace Trace4J.Profiler
open Library

/-- The instructions at which the walk stops: all but straight-line code and
direct relative jumps. -/
def IsStop (xedd : Inst) : Prop :=
  xedd.iclass.group ≠ .default ∧
    ¬(xedd.iclass.group = .jump ∧ ∃ disp, xedd.op0 = .relbr disp)

structure BlocksOk (code : Addr → Option Inst) (map : BasicBlockMap) : Prop where
  entry : ∀ ip bb, map ip = some bb → (code ip).isSome
  known : ∀ ip bb, map ip = some bb → bb.wpIP ≠ noIP → code bb.wpIP = some bb.wpXedd ∧ IsStop bb.wpXedd

variable {cfg : Config} {code : Addr → Option Inst} {map map' : BasicBlockMap}
variable {ip sampleIP tempIp : Addr} {bbInfo : Option BasicBlock} {xedd : Inst} {s s' : Thread}

theorem blocksOk_empty : BlocksOk code (fun _ => none) := by
  constructor <;> intro ip bb h <;> cases h

theorem BlocksOk.update (h : BlocksOk code map) {bb : BasicBlock} (he : (code ip).isSome)
    (hk : bb.wpIP ≠ noIP → code bb.wpIP = some bb.wpXedd ∧ IsStop bb.wpXedd) :
    BlocksOk code (Function.update map ip (some bb)) := by
  constructor
  · intro a b hab
    by_cases ha : a = ip
    · exact ha ▸ he
    · rw [Function.update_of_ne ha] at hab
      exact h.entry a b hab
  · intro a b hab
    by_cases ha : a = ip
    · subst ha
      rw [Function.update_self] at hab
      cases hab
      exact hk
    · rw [Function.update_of_ne ha] at hab
      exact h.known a b hab

theorem BlocksOk.insertBlock (h : BlocksOk code map) (hc : code ip = some xedd) :
    BlocksOk code (insertBlock map ip ⟨xedd, noIP⟩) := by
  unfold Profiler.insertBlock
  split
  · exact h.update (by simp [hc]) (fun hne => absurd rfl hne)
  · exact h

def KnownOk (code : Addr → Option Inst) (bbInfo : Option BasicBlock) : Prop :=
  ∀ bb, bbInfo = some bb → bb.wpIP ≠ noIP → code bb.wpIP = some bb.wpXedd ∧ IsStop bb.wpXedd

theorem fetchInst_spec (hbb : KnownOk code bbInfo) (hmap : BlocksOk code map)
    (h : fetchInst code sampleIP bbInfo tempIp map = .ok (xedd, ip, map')) :
    code ip = some xedd ∧ BlocksOk code map' := by
  unfold fetchInst at h
  cases hk : knownBlock bbInfo with
  | some bb =>
    rw [hk] at h
    cases h
    unfold knownBlock at hk
    split at hk
    · cases hk
    · split_ifs at hk with hne
      cases hk
      exact ⟨(hbb bb rfl hne).1, hmap⟩
  | none =>
    rw [hk] at h
    cases hc : code tempIp with
    | none => simp [hc] at h
    | some x =>
      simp only [hc, Except.ok.injEq, Prod.mk.injEq] at h
      obtain ⟨rfl, rfl, rfl⟩ := h
      refine ⟨hc, ?_⟩
      split_ifs with he
      · exact hmap.insertBlock (he ▸ hc)
      · exact hmap

def DecodeStop.Sound (cfg : Config) (code : Addr → Option Inst) (counter : ℕ) : DecodeStop → Prop
  | .overThreshold => cfg.decodeThreshold ≤ counter
  | .stop xedd tempIp => counter < cfg.decodeThreshold ∧ code tempIp = some xedd ∧ IsStop xedd

theorem decoderLoop_spec {counter fuel : ℕ} {r : DecodeStop} (hbb : KnownOk code bbInfo)
    (hmap : BlocksOk code map)
    (h : decoderLoop cfg code counter sampleIP bbInfo fuel tempIp map = .ok (r, map')) :
    BlocksOk code map' ∧ r.Sound cfg code counter := by
  induction fuel generalizing tempIp map with
  | zero => cases h
  | succ fuel ih =>
    rw [decoderLoop] at h
    split_ifs at h with hthr
    · cases h
      exact ⟨hmap, hthr⟩
    · obtain ⟨⟨x, a, m⟩, hf, h⟩ := bind_eq_ok.mp h
      obtain ⟨hc, hm⟩ := fetchInst_spec hbb hmap hf
      dsimp only at h
      split at h
      · exact ih hm h
      · exact ih hm h
      · next hdefault hjump =>
        cases h
        refine ⟨hm, by omega, hc, hdefault, ?_⟩
        rintro ⟨hj, disp, hop⟩
        exact hjump disp hj hop

theorem decoderLoop_start {counter fuel : ℕ} {r : DecodeStop} (hmap : BlocksOk code map)
    (h : decoderLoop cfg code counter sampleIP (map sampleIP) fuel sampleIP map = .ok (r, map')) :
    cfg.decodeThreshold ≤ counter ∨ (code sampleIP).isSome := by
  cases fuel with
  | zero => cases h
  | succ fuel =>
    rw [decoderLoop] at h
    split_ifs at h with hthr
    · exact .inl hthr
    · right
      obtain ⟨⟨x, a, m⟩, hf, -⟩ := bind_eq_ok.mp h
      cases he : map sampleIP with
      | some bb => exact hmap.entry sampleIP bb he
      | none =>
        rw [he] at hf
        cases hc : code sampleIP with
        | none => simp [fetchInst, knownBlock, hc] at hf
        | some y => rfl

theorem decoderLoop_fault {counter fuel : ℕ} {e : Fault}
    (h : decoderLoop cfg code counter sampleIP bbInfo fuel tempIp map = .error e) :
    e = .assertion ∨ e = .outOfFuel := by
  induction fuel generalizing tempIp map with
  | zero =>
    cases h
    exact .inr rfl
  | succ fuel ih =>
    rw [decoderLoop] at h
    split_ifs at h with hthr
    rcases bind_eq_error.mp h with hf | ⟨⟨x, a, m⟩, -, h⟩
    · unfold fetchInst at hf
      split at hf
      · cases hf
      · split at hf
        · cases hf
          exact .inl rfl
        · cases hf
    · dsimp only at h
      split at h
      · exact ih h
      · exact ih h
      · cases h

theorem BlocksOk.rememberStop (bbInfo : Option BasicBlock) (h : BlocksOk code map')
    (he : (code sampleIP).isSome) (hc : code tempIp = some xedd) (hs : IsStop xedd) :
    BlocksOk code (rememberStop bbInfo sampleIP xedd tempIp map') := by
  unfold Profiler.rememberStop
  split
  · exact h
  · split_ifs
    · exact h.update he fun _ => ⟨hc, hs⟩
    · exact h

inductive DecoderStep (cfg : Config) (code : Addr → Option Inst) (sampleIP : Addr) (s : Thread) :
    Thread → Prop
  | overThreshold {map : BasicBlockMap} {sd : SampleData} {wpRest : List SampleData} :
      cfg.decodeThreshold ≤ s.decodeInsCounter → BlocksOk code map → s.wpStack = sd :: wpRest →
      DecoderStep cfg code sampleIP s { s with
        basicBlockMap := map, wpStack := wpRest, watchPoint := (wpSubscribe s.watchPoint sd).1 }
  | outermost {map : BasicBlockMap} {sd : SampleData} {ctxt : ℕ} {retRest : List ℕ} :
      s.decodeInsCounter < cfg.decodeThreshold → BlocksOk code map → s.wpStack = [sd] →
      s.retCtxtStack = ctxt :: retRest →
      DecoderStep cfg code sampleIP s { s with
        basicBlockMap := map, wpStack := [], retCtxtStack := retRest
        watchPoint := (wpSubscribe s.watchPoint sd).1 }
  | inner {map : BasicBlockMap} {sd : SampleData} {wpRest : List SampleData} {xedd : Inst}
      {tempIp : Addr} :
      s.decodeInsCounter < cfg.decodeThreshold → BlocksOk code map → s.wpStack = sd :: wpRest →
      wpRest ≠ [] → code tempIp = some xedd → xedd.iclass.group = .ret →
      DecoderStep cfg code sampleIP s { s with
        basicBlockMap := map, wpStack := wpRest
        watchPoint := (wpSubscribe s.watchPoint (execWatch tempIp sd.calleeCtxtFrame)).1 }
  | call {map : BasicBlockMap} {xedd : Inst} {tempIp : Addr} :
      s.decodeInsCounter < cfg.decodeThreshold → BlocksOk code map → (code sampleIP).isSome →
      code tempIp = some xedd → xedd.iclass.group = .call →
      DecoderStep cfg code sampleIP s { s with
        basicBlockMap := map, decodeInsCounter := s.decodeInsCounter + 1
        watchPoint := (wpSubscribe s.watchPoint (execWatch tempIp (callFrame sampleIP))).1 }
  | branch {map : BasicBlockMap} {xedd : Inst} {tempIp : Addr} :
      s.decodeInsCounter < cfg.decodeThreshold → BlocksOk code map → (code sampleIP).isSome →
      code tempIp = some xedd → xedd.iclass.group = .cond ∨ xedd.iclass.group = .jump →
      DecoderStep cfg code sampleIP s { s with
        basicBlockMap := map
        watchPoint := (wpSubscribe s.watchPoint (execWatch tempIp (branchFrame sampleIP))).1 }

theorem popStack_eq_ok {α : Type} {l : List α} {a : α} {as : List α} :
    popStack l = .ok (a, as) ↔ l = a :: as := by
  cases l <;> simp [popStack]

theorem popStack_eq_error {α : Type} {l : List α} {e : Fault} :
    popStack l = .error e ↔ l = [] ∧ e = .popEmpty := by
  cases l <;> simp [popStack, eq_comm]

theorem decoder_step (hb : BlocksOk code s.basicBlockMap)
    (h : decoder cfg code sampleIP s = .ok s') : DecoderStep cfg code sampleIP s s' := by
  obtain ⟨⟨r, m⟩, hl, h⟩ := bind_eq_ok.mp h
  have hk : KnownOk code (s.basicBlockMap sampleIP) := hb.known sampleIP
  obtain ⟨hm, hr⟩ := decoderLoop_spec hk hb hl
  cases r with
  | overThreshold =>
    obtain ⟨⟨sd, rest⟩, hp, h⟩ := bind_eq_ok.mp h
    cases h
    exact .overThreshold hr hm (popStack_eq_ok.mp hp)
  | stop xedd tempIp =>
    obtain ⟨hthr, hc, hs⟩ := hr
    have he : (code sampleIP).isSome := (decoderLoop_start hb hl).resolve_left (by omega)
    have hm' := hm.rememberStop (s.basicBlockMap sampleIP) he hc hs
    dsimp only [armStop] at h
    split at h
    · next hg =>
      split_ifs at h with hlen
      · obtain ⟨⟨sd, rest⟩, hp, h⟩ := bind_eq_ok.mp h
        obtain ⟨⟨c, cs⟩, hq, h⟩ := bind_eq_ok.mp h
        have hw : s.wpStack = sd :: rest := popStack_eq_ok.mp hp
        have hrest : rest = [] := by simpa [hw] using hlen
        subst hrest
        cases h
        exact .outermost hthr hm' hw (popStack_eq_ok.mp hq)
      · obtain ⟨⟨sd, rest⟩, hp, h⟩ := bind_eq_ok.mp h
        have hw : s.wpStack = sd :: rest := popStack_eq_ok.mp hp
        have hrest : rest ≠ [] := by
          rintro rfl
          exact hlen (by simp [hw])
        cases h
        exact .inner hthr hm' hw hrest hc hg
    · next hg =>
      cases h
      exact .call hthr hm' he hc hg
    · next hret hcall =>
      cases h
      refine .branch hthr hm' he hc ?_
      cases hg : xedd.iclass.group <;> simp_all [IsStop]

theorem decoder_fault {e : Fault} (h : decoder cfg code sampleIP s = .error e) :
    e = .assertion ∨ e = .outOfFuel ∨
      e = .popEmpty ∧ (s.wpStack = [] ∨ s.wpStack.length = 1 ∧ s.retCtxtStack = []) := by
  rcases bind_eq_error.mp h with hl | ⟨⟨r, m⟩, -, h⟩
  · exact (decoderLoop_fault hl).imp_right .inl
  · right; right
    cases r with
    | overThreshold =>
      rcases bind_eq_error.mp h with hp | ⟨⟨sd, rest⟩, -, h⟩
      · obtain ⟨hw, rfl⟩ := popStack_eq_error.mp hp
        exact ⟨rfl, .inl hw⟩
      · cases h
    | stop xedd tempIp =>
      dsimp only [armStop] at h
      split at h
      · split_ifs at h with hlen
        · rcases bind_eq_error.mp h with hp | ⟨⟨sd, rest⟩, -, h⟩
          · obtain ⟨hw, rfl⟩ := popStack_eq_error.mp hp
            exact ⟨rfl, .inl hw⟩
          · rcases bind_eq_error.mp h with hq | ⟨⟨c, cs⟩, -, h⟩
            · obtain ⟨hc, rfl⟩ := popStack_eq_error.mp hq
              exact ⟨rfl, .inr ⟨hlen, hc⟩⟩
            · cases h
        · rcases bind_eq_error.mp h with hp | ⟨⟨sd, rest⟩, -, h⟩
          · obtain ⟨hw, rfl⟩ := popStack_eq_error.mp hp
            exact ⟨rfl, .inl hw⟩
          · cases h
      · cases h
      · cases h

structure SameCounts (s s' : Thread) : Prop where
  cpuEventStack : s'.cpuEventStack = s.cpuEventStack
  cpuEventCntStack : s'.cpuEventCntStack = s.cpuEventCntStack
  eventRDCnt : s'.eventRDCnt = s.eventRDCnt
  eventTempCnt : s'.eventTempCnt = s.eventTempCnt
  runtimeCallTime : s'.runtimeCallTime = s.runtimeCallTime
  contextTree : s'.contextTree = s.contextTree
  log : s'.log = s.log

theorem decoder_sameCounts (h : decoder cfg code sampleIP s = .ok s') : SameCounts s s' := by
  obtain ⟨⟨r, m⟩, -, h⟩ := bind_eq_ok.mp h
  cases r with
  | overThreshold =>
    obtain ⟨⟨sd, rest⟩, -, h⟩ := bind_eq_ok.mp h
    cases h
    exact ⟨rfl, rfl, rfl, rfl, rfl, rfl, rfl⟩
  | stop xedd tempIp =>
    dsimp only [armStop] at h
    split at h
    · split_ifs at h
      · obtain ⟨⟨sd, rest⟩, -, h⟩ := bind_eq_ok.mp h
        obtain ⟨⟨c, cs⟩, -, h⟩ := bind_eq_ok.mp h
        cases h
        exact ⟨rfl, rfl, rfl, rfl, rfl, rfl, rfl⟩
      · obtain ⟨⟨sd, rest⟩, -, h⟩ := bind_eq_ok.mp h
        cases h
        exact ⟨rfl, rfl, rfl, rfl, rfl, rfl, rfl⟩
    · cases h
      exact ⟨rfl, rfl, rfl, rfl, rfl, rfl, rfl⟩
    · cases h
      exact ⟨rfl, rfl, rfl, rfl, rfl, rfl, rfl⟩

end Trace4J.Profiler
