import Trace4J.Library.Halting
import Trace4J.Profiler.BlockCache

/-!
# When the decoder's loop ends

The loop goes from an instruction to the one straight behind it or to the target of a
direct jump. `decodeInsCounter` is compared in every pass but only a call advances it, and
a call ends the loop, so nothing bounds a cycle that meets no other instruction.
-/

namespace Trace4J.Profiler
open Library Relation

def Goes (code : Addr → Option Inst) (a b : Addr) : Prop :=
  ∃ xedd, code a = some xedd ∧ nextIp xedd a = some b

/-- Straight-line code and direct jumps lead from `ip` into a cycle. -/
def EntersCycle (code : Addr → Option Inst) (ip : Addr) : Prop :=
  ∃ a, ReflTransGen (Goes code) ip a ∧ TransGen (Goes code) a a

def Terminates (cfg : Config) (code : Addr → Option Inst) (counter : ℕ) (ip : Addr)
    (map : BasicBlockMap) : Prop :=
  ∃ fuel r, decoderLoop cfg code counter ip (map ip) fuel ip map = .ok r

def StopsKnown (map : BasicBlockMap) : Prop :=
  ∀ ip bb, map ip = some bb → bb.wpIP ≠ noIP → IsStop bb.wpXedd

variable {cfg : Config} {code : Addr → Option Inst} {map map' : BasicBlockMap} {s s' t : Thread}
variable {ip a : Addr} {fuel counter : ℕ} {p : Inst × Addr} {bb : BasicBlock} {env : Env}

/-! ## The walk -/

theorem acc_of_walk (h : walk code fuel ip = .ok p) : Acc (Function.swap (Goes code)) ip := by
  induction fuel generalizing ip with
  | zero => cases h
  | succ fuel ih =>
    constructor
    rintro b ⟨xedd, hc, hn⟩
    rw [walk, hc] at h
    simp only [hn] at h
    exact ih h

theorem walk_of_acc (hacc : Acc (Function.swap (Goes code)) ip)
    (hvalid : ∀ a, ReflTransGen (Goes code) ip a → (code a).isSome) :
    ∃ fuel p, walk code fuel ip = .ok p := by
  induction hacc with
  | intro ip _ ih =>
    obtain ⟨xedd, hc⟩ := Option.isSome_iff_exists.mp (hvalid ip .refl)
    cases hn : nextIp xedd ip with
    | none =>
      refine ⟨1, (xedd, ip), ?_⟩
      simp only [walk, hc, hn]
    | some next =>
      have hgo : Goes code ip next := ⟨xedd, hc, hn⟩
      obtain ⟨fuel, p, hw⟩ := ih next hgo fun a ha => hvalid a (.head hgo ha)
      refine ⟨fuel + 1, p, ?_⟩
      simp only [walk, hc, hn, hw]

theorem acc_iff_not_entersCycle :
    Acc (Function.swap (Goes code)) ip ↔ ¬EntersCycle code ip := by
  have hfinite : Finite Addr := Finite.of_injective UInt64.toFin fun _ _ => UInt64.toFin_inj.mp
  rw [acc_iff_no_cycle, EntersCycle]
  simp only [reflTransGen_swap, transGen_swap]

theorem walks_iff (hvalid : ∀ a, ReflTransGen (Goes code) ip a → (code a).isSome) :
    (∃ fuel p, walk code fuel ip = .ok p) ↔ ¬EntersCycle code ip := by
  rw [← acc_iff_not_entersCycle]
  constructor
  · rintro ⟨fuel, p, h⟩
    exact acc_of_walk h
  · intro h
    exact walk_of_acc h hvalid

/-! ## The map of the runs -/

theorem knownBlock_eq_some {bbInfo : Option BasicBlock} (h : knownBlock bbInfo = some bb) :
    bbInfo = some bb ∧ bb.wpIP ≠ noIP := by
  cases bbInfo with
  | none => cases h
  | some bb' =>
    rw [knownBlock] at h
    split_ifs at h with hne
    cases h
    exact ⟨rfl, hne⟩

theorem StopsKnown.update (h : StopsKnown map) (hbb : bb.wpIP ≠ noIP → IsStop bb.wpXedd) :
    StopsKnown (Function.update map ip (some bb)) := by
  intro a bb' ha
  by_cases hip : a = ip
  · subst hip
    rw [Function.update_self] at ha
    cases ha
    exact hbb
  · rw [Function.update_of_ne hip] at ha
    exact h a bb' ha

theorem StopsKnown.enterBlock (h : StopsKnown map) : StopsKnown (enterBlock code ip map) := by
  unfold Profiler.enterBlock
  cases code ip with
  | none => exact h
  | some xedd =>
    dsimp only [insertBlock]
    cases map ip with
    | none => exact h.update fun hne => absurd rfl hne
    | some bb => exact h

theorem StopsKnown.rememberStop {bbInfo : Option BasicBlock} (h : StopsKnown map)
    (hstop : IsStop p.1) : StopsKnown (rememberStop bbInfo ip p.1 p.2 map) := by
  unfold Profiler.rememberStop
  cases bbInfo with
  | none => exact h
  | some bb =>
    dsimp only
    split_ifs
    · exact h.update fun _ => hstop
    · exact h

theorem StopsKnown.decoder (hm : StopsKnown s.basicBlockMap) (h : decoder cfg code ip s = .ok s') :
    StopsKnown s'.basicBlockMap := by
  by_cases hthr : cfg.decodeThreshold ≤ s.decodeInsCounter
  · rw [decoder_over_basicBlockMap hthr h]
    exact hm
  have hthr := not_le.mp hthr
  cases hk : knownBlock (s.basicBlockMap ip) with
  | none =>
    rw [decoder_of_unknown hk hthr] at h
    obtain ⟨p, hw, h⟩ := bind_eq_ok.mp h
    rw [armStop_basicBlockMap h]
    exact hm.enterBlock.rememberStop (walk_stop hw).2
  | some bb =>
    obtain ⟨hb, hne⟩ := knownBlock_eq_some hk
    have hfuel : cfg.fuel ≠ 0 := by
      intro h0
      obtain ⟨r, hl, -⟩ := bind_eq_ok.mp h
      rw [h0] at hl
      cases hl
    rw [decoder_of_known hb hne (hm ip bb hb hne) hfuel hthr] at h
    rw [armStop_basicBlockMap h]
    exact hm

theorem Resumes.basicBlockMap (h : Resumes cfg env s a t) : t.basicBlockMap = s.basicBlockMap := by
  cases h with
  | runtimeReturn => rfl
  | innerReturn _ _ _ _ _ _ _ hr _ _ =>
    exact (hr.control flushReturn_countsOnly).1.basicBlockMap
  | branch => rfl
  | call _ _ _ _ _ _ _ ho =>
    rw [(openCall_ok ho).2]
    rfl

theorem TrapStep.stopsKnown {ev : TrapInput} (hm : StopsKnown s.basicBlockMap)
    (h : TrapStep cfg ev s s') : StopsKnown s'.basicBlockMap := by
  cases h with
  | dropped => exact hm
  | reset => exact hm
  | unmapped => exact hm
  | undecoded => exact hm
  | resume _ hr hd => exact StopsKnown.decoder (hr.basicBlockMap ▸ hm) hd
  | runtimeCall _ _ _ _ _ _ _ ho =>
    rw [onRuntimeCall_ok ho]
    exact hm
  | lastReturn _ _ _ _ _ _ _ _ hr =>
    exact (hr.control flushReturn_countsOnly).1.basicBlockMap ▸ hm
  | overInsane =>
    obtain ⟨wpi, wps, harm⟩ := armNext_eq (s := takeTrap s)
    rw [harm]
    exact hm
  | overThreshold _ _ _ _ _ _ _ hr =>
    obtain ⟨wpi, wps, harm⟩ := armNext_eq (s := takeTrap s)
    rw [harm] at hr
    exact (hr.control flushReturn_countsOnly).1.basicBlockMap ▸ hm
  | outermostInsane => exact hm
  | outermost _ _ _ _ _ _ hr =>
    exact (hr.control flushOutermost_countsOnly).1.basicBlockMap ▸ hm

theorem step_stopsKnown {ev : Event} (hm : StopsKnown s.basicBlockMap)
    (h : step cfg ev s = .ok s') : StopsKnown s'.basicBlockMap := by
  cases ev with
  | sample ev =>
    cases onSample_step h with
    | ignored => exact hm
    | @taken method _ _ _ _ hd =>
      have hopen : StopsKnown (openSample cfg ev method s).basicBlockMap := hm
      exact hopen.decoder hd
  | trap ev =>
    rcases onWatchPoint_step h with ⟨-, rfl⟩ | ⟨-, ht⟩
    · exact hm
    · have hcounted : StopsKnown (counted cfg ev s).basicBlockMap := hm
      exact ht.stopsKnown hcounted

theorem stopsKnown_of_run {events : List Event}
    (h : run (step cfg) events Thread.init = .ok s) : StopsKnown s.basicBlockMap :=
  run_keeps (P := fun s => StopsKnown s.basicBlockMap) (fun _ _ _ => step_stopsKnown)
    (by rintro ip bb ⟨⟩) h

/-! ## The loop -/

theorem terminates_of_known (hm : StopsKnown map) (hthr : counter < cfg.decodeThreshold)
    (hk : knownBlock (map ip) = some bb) : Terminates cfg code counter ip map := by
  obtain ⟨hb, hne⟩ := knownBlock_eq_some hk
  have hfetch : fetchInst code ip (map ip) ip map = .ok (bb.wpXedd, bb.wpIP, map) := by
    simp only [fetchInst, hk]
  refine ⟨1, (.stop bb.wpXedd bb.wpIP, map), ?_⟩
  rw [decoderLoop_succ hthr hfetch, isStop_iff_nextIp.mp (hm ip bb hb hne)]

theorem terminates_iff_walks (hk : knownBlock (map ip) = none)
    (hthr : counter < cfg.decodeThreshold) :
    Terminates cfg code counter ip map ↔ ∃ fuel p, walk code fuel ip = .ok p := by
  simp only [Terminates, decoderLoop_start_walk hk hthr]
  constructor
  · rintro ⟨fuel, r, h⟩
    cases hw : walk code fuel ip with
    | error e => simp [hw, Except.map] at h
    | ok p => exact ⟨fuel, p, hw⟩
  · rintro ⟨fuel, p, hw⟩
    exact ⟨fuel, _, by rw [hw]; rfl⟩

/-- In every state a thread can reach, over code that decodes wherever the loop gets, the
loop ends unless it enters a cycle; then only a used-up threshold or an entry completed
before the code changed ends it. -/
theorem decoder_terminates_iff (cfg : Config) (events : List Event) (s : Thread)
    (hrun : run (step cfg) events Thread.init = .ok s) (code : Addr → Option Inst) (ip : Addr)
    (hvalid : ∀ a, ReflTransGen (Goes code) ip a → (code a).isSome) (counter : ℕ) :
    Terminates cfg code counter ip s.basicBlockMap ↔
      cfg.decodeThreshold ≤ counter ∨ (knownBlock (s.basicBlockMap ip)).isSome ∨
        ¬EntersCycle code ip := by
  by_cases hthr : cfg.decodeThreshold ≤ counter
  · have hends : Terminates cfg code counter ip s.basicBlockMap :=
      ⟨1, (.overThreshold, s.basicBlockMap), by rw [decoderLoop, if_pos hthr]⟩
    simp only [hends, hthr, true_or]
  have hlt := not_le.mp hthr
  cases hk : knownBlock (s.basicBlockMap ip) with
  | some bb =>
    have hends : Terminates cfg code counter ip s.basicBlockMap :=
      terminates_of_known (stopsKnown_of_run hrun) hlt hk
    simp only [hends, Option.isSome_some, true_or, or_true]
  | none =>
    rw [terminates_iff_walks hk hlt, walks_iff hvalid]
    simp only [hthr, Option.isSome_none, Bool.false_eq_true, false_or]

/-- An empty infinite loop at 0x1000, everything else returns. -/
def emptyLoop : Addr → Option Inst := fun a =>
  if a = 0x1000 then some ⟨.jmp, 2, .relbr (-2)⟩ else some ⟨.retNear, 1, .other⟩

/-- A jump from 0x3000 to 0x3010 and one from there to 0x3020. -/
def jumpChain : Addr → Option Inst := fun a =>
  if a = 0x3000 ∨ a = 0x3010 then some ⟨.jmp, 2, .relbr 0xe⟩ else some ⟨.retNear, 1, .other⟩

/-- Two visits complete the entry of 0x1000, which is enough when the code there becomes a loop;
the jumps of another block come to an end. -/
theorem decoder_terminates_iff_callLeaf :
    ∃ s, run (step (oneEventConfig 8)) (callLeafRun ++ callLeafRun) Thread.init = .ok s ∧
      Terminates (oneEventConfig 8) jumpChain 0 0x3000 s.basicBlockMap ∧
      Terminates (oneEventConfig 8) emptyLoop 0 0x1000 s.basicBlockMap := by
  have hvalid : ∀ a, (jumpChain a).isSome ∧ (emptyLoop a).isSome := by
    intro a
    unfold jumpChain emptyLoop
    split_ifs <;> exact ⟨rfl, rfl⟩
  obtain ⟨s, hrun, hknown⟩ : ∃ s,
      run (step (oneEventConfig 8)) (callLeafRun ++ callLeafRun) Thread.init = .ok s ∧
        (knownBlock (s.basicBlockMap 0x1000)).isSome := ⟨_, rfl, rfl⟩
  have hends : walk jumpChain 3 0x3000 = .ok (⟨.retNear, 1, .other⟩, 0x3020) := rfl
  refine ⟨s, hrun, ?_, ?_⟩
  · exact (decoder_terminates_iff _ _ s hrun jumpChain 0x3000 (fun a _ => (hvalid a).1) 0).mpr
      (.inr (.inr (acc_iff_not_entersCycle.mp (acc_of_walk hends))))
  · exact (decoder_terminates_iff _ _ s hrun emptyLoop 0x1000 (fun a _ => (hvalid a).2) 0).mpr
      (.inr (.inl hknown))

theorem decoderLoop_emptyLoop (fuel : ℕ) :
    decoderLoop (oneEventConfig 8) emptyLoop 0 0x1000 none fuel 0x1000 (fun _ => none) =
      .error .outOfFuel := by
  have hw : walk emptyLoop fuel 0x1000 = .error .outOfFuel := by
    induction fuel with
    | zero => rfl
    | succ fuel ih => exact ih
  rw [decoderLoop_start_walk rfl (by decide), hw]
  rfl

/-- Every instruction of the image is valid and the loop still never ends. -/
theorem not_terminates_emptyLoop :
    (∀ a, (emptyLoop a).isSome) ∧
      ¬Terminates (oneEventConfig 8) emptyLoop 0 0x1000 Thread.init.basicBlockMap := by
  constructor
  · intro a
    unfold emptyLoop
    split_ifs <;> rfl
  · rintro ⟨fuel, r, h⟩
    have hnever := decoderLoop_emptyLoop fuel
    rw [show Thread.init.basicBlockMap = fun _ => none from rfl] at h
    cases hnever.symm.trans h

end Trace4J.Profiler
