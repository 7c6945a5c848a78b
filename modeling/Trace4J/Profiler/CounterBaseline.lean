import Trace4J.Profiler.StackSync

/-!
# The baseline of a counter

`OnSample` and `OnWatchPoint` keep the reading against which the next one is taken in
the single variable `eventTempCnt`, while each event has a counter of its own. With one
counting event it holds that event's last reading. With more it holds the last reading of
the event before it in the loop, and of the last event for the first one.
-/

namespace Trace4J.Profiler
open Library

/-- What event `i` counts over the traps, each reading taken against the last re-based
reading of the same counter. -/
def ownCount (i : ℕ) : Row → List TrapInput → UInt64
  | _, [] => 0
  | base, ev :: evs => (ev.readCounter i - base i) + ownCount i ev.rebase evs

/-- The readings left in `eventTempCnt` happen to be those of the event that uses them. -/
def BaselinesCoincide (n : ℕ) : Row → List TrapInput → Prop
  | _, [] => True
  | base, ev :: evs =>
    base (n - 1) = base 1 ∧ (∀ i, 2 ≤ i → i < n → ev.rebase (i - 1) = base i) ∧
      BaselinesCoincide n ev.rebase evs

def Unflushed (cfg : Config) (ev : TrapInput) (s : Thread) : Prop :=
  s.watchPoint.isActive = true ∧
    ∀ s', onWatchPoint cfg ev s = .ok s' → s'.eventRDCnt = (counted cfg ev s).eventRDCnt

def CountsOwn (cfg : Config) (base : Row) (traps : List TrapInput) (s : Thread) : Prop :=
  ∀ pre s', pre <+: traps → run (onWatchPoint cfg) pre s = .ok s' →
    ∀ i, 1 ≤ i → i < cfg.curEventId → s'.eventRDCnt i = s.eventRDCnt i + ownCount i base pre

variable {cfg : Config} {ev : TrapInput} {i k m n : ℕ} {base readCounter rebase : Row}
variable {s s' : Thread} {traps : List TrapInput}

/-! ## The counter loop -/

theorem foldl_countEvent_fst (rd : Row) (tmp : UInt64) :
    ((List.range' k m).foldl (countEvent readCounter rebase) (rd, tmp)).1 i =
      if k ≤ i ∧ i < k + m then
        rd i + (readCounter i - if i = k then tmp else rebase (i - 1))
      else rd i := by
  induction m generalizing k rd tmp with
  | zero => simp
  | succ m ih =>
    rw [List.range'_succ, List.foldl_cons, countEvent, ih]
    by_cases hik : i = k
    · subst hik
      rw [if_neg (by omega), if_pos (by omega), if_pos rfl, Function.update_self]
    · rw [Function.update_of_ne hik]
      by_cases hi : k ≤ i ∧ i < k + (m + 1)
      · rw [if_pos (by omega), if_pos hi, if_neg hik]
        by_cases hk : i = k + 1
        · simp [hk]
        · rw [if_neg hk]
      · rw [if_neg (by omega), if_neg hi]

theorem foldl_countEvent_snd (acc : Row × UInt64) :
    ((List.range' k (m + 1)).foldl (countEvent readCounter rebase) acc).2 = rebase (k + m) := by
  rw [List.range'_concat, List.foldl_append]
  simp [countEvent]

theorem counted_eventRDCnt (hi : 1 ≤ i) (hn : i < cfg.curEventId) :
    (counted cfg ev s).eventRDCnt i = s.eventRDCnt i +
      (ev.readCounter i - if i = 1 then s.eventTempCnt else ev.rebase (i - 1)) := by
  simp only [counted, countEvents, foldl_countEvent_fst]
  exact if_pos ⟨hi, by omega⟩

theorem counted_eventTempCnt (hn : 2 ≤ cfg.curEventId) :
    (counted cfg ev s).eventTempCnt = ev.rebase (cfg.curEventId - 1) := by
  obtain ⟨m, hm⟩ : ∃ m, cfg.curEventId - 1 = m + 1 := ⟨cfg.curEventId - 2, by omega⟩
  simp only [counted, countEvents, hm, foldl_countEvent_snd]
  rw [Nat.add_comm]

theorem readBaselines_eq {reading : Row} {tmp : UInt64} (hn : 2 ≤ n) :
    readBaselines n reading tmp = reading (n - 1) := by
  obtain ⟨m, rfl⟩ : ∃ m, n = m + 2 := ⟨n - 2, by omega⟩
  rw [readBaselines, show m + 2 - 1 = m + 1 by omega, List.range'_concat, List.foldl_append]
  simp [Nat.add_comm]

/-! ## Traps without a flush -/

theorem Resumes.eventTempCnt {env : Env} {ip : Addr} {t : Thread} (h : Resumes cfg env s ip t) :
    t.eventTempCnt = s.eventTempCnt := by
  cases h with
  | runtimeReturn => rfl
  | innerReturn _ _ _ _ _ _ _ hrec _ _ => exact (hrec.control flushReturn_countsOnly).1.eventTempCnt
  | branch => rfl
  | call _ _ _ _ _ _ _ ho =>
    rw [(openCall_ok ho).2]
    rfl

theorem TrapStep.eventTempCnt (h : TrapStep cfg ev s s') : s'.eventTempCnt = s.eventTempCnt := by
  cases h with
  | dropped => rfl
  | reset => rfl
  | unmapped => rfl
  | undecoded => rfl
  | resume _ hr hd => exact (decoder_sameCounts hd).eventTempCnt.trans hr.eventTempCnt
  | runtimeCall _ _ _ _ _ _ _ hs =>
    rw [onRuntimeCall_ok hs]
    rfl
  | lastReturn _ _ _ _ _ _ _ _ hrec _ _ => exact (hrec.control flushReturn_countsOnly).1.eventTempCnt
  | overInsane =>
    obtain ⟨wpi, wps, harm⟩ := armNext_eq (s := takeTrap s)
    rw [harm]
    rfl
  | overThreshold _ _ _ _ _ _ _ hrec _ =>
    obtain ⟨wpi, wps, harm⟩ := armNext_eq (s := takeTrap s)
    rw [harm] at hrec
    exact (hrec.control flushReturn_countsOnly).1.eventTempCnt
  | outermostInsane => rfl
  | outermost _ _ _ _ _ _ hrec => exact (hrec.control flushOutermost_countsOnly).1.eventTempCnt

theorem onWatchPoint_eventTempCnt (ha : s.watchPoint.isActive = true)
    (h : onWatchPoint cfg ev s = .ok s') : s'.eventTempCnt = (counted cfg ev s).eventTempCnt := by
  rcases onWatchPoint_step h with ⟨hf, -⟩ | ⟨-, ht⟩
  · rw [ha] at hf
    cases hf
  · exact ht.eventTempCnt

theorem countsOwn_cons (h : onWatchPoint cfg ev s = .ok s') :
    CountsOwn cfg base (ev :: traps) s ↔
      (∀ i, 1 ≤ i → i < cfg.curEventId →
        s'.eventRDCnt i = s.eventRDCnt i + (ev.readCounter i - base i)) ∧
      CountsOwn cfg ev.rebase traps s' := by
  constructor
  · intro hown
    have hfirst : ∀ i, 1 ≤ i → i < cfg.curEventId →
        s'.eventRDCnt i = s.eventRDCnt i + (ev.readCounter i - base i) := by
      intro i hi hn
      have := hown [ev] s' ⟨traps, rfl⟩ (run_cons.mpr ⟨s', h, rfl⟩) i hi hn
      simpa only [ownCount, add_zero] using this
    refine ⟨hfirst, fun pre t hpre ht i hi hn => ?_⟩
    have := hown (ev :: pre) t (List.cons_prefix_cons.mpr ⟨rfl, hpre⟩)
      (run_cons.mpr ⟨s', h, ht⟩) i hi hn
    rw [this, hfirst i hi hn, ownCount, add_assoc]
  · rintro ⟨hfirst, hrest⟩ pre t hpre ht i hi hn
    cases pre with
    | nil =>
      cases ht
      exact (add_zero _).symm
    | cons e pre =>
      obtain ⟨rfl, htail⟩ := List.cons_prefix_cons.mp hpre
      obtain ⟨s₁, hs₁, ht⟩ := run_cons.mp ht
      cases h.symm.trans hs₁
      rw [hrest pre t htail ht i hi hn, hfirst i hi hn, ownCount, add_assoc]

theorem counts_own_step (hn : 2 ≤ cfg.curEventId)
    (htmp : s.eventTempCnt = base (cfg.curEventId - 1)) :
    (∀ i, 1 ≤ i → i < cfg.curEventId →
        (counted cfg ev s).eventRDCnt i = s.eventRDCnt i + (ev.readCounter i - base i)) ↔
      base (cfg.curEventId - 1) = base 1 ∧
        ∀ i, 2 ≤ i → i < cfg.curEventId → ev.rebase (i - 1) = base i := by
  constructor
  · intro h
    refine ⟨?_, fun i hi hin => ?_⟩
    · have := h 1 le_rfl (by omega)
      rw [counted_eventRDCnt le_rfl (by omega), if_pos rfl, htmp] at this
      exact sub_right_inj.mp (add_left_cancel this)
    · have := h i (by omega) hin
      rw [counted_eventRDCnt (by omega) hin, if_neg (by omega)] at this
      exact sub_right_inj.mp (add_left_cancel this)
  · rintro ⟨hfirst, hrest⟩ i hi hin
    rw [counted_eventRDCnt hi hin]
    by_cases h1 : i = 1
    · rw [if_pos h1, htmp, hfirst, h1]
    · rw [if_neg h1, hrest i (by omega) hin]

theorem countsOwn_iff (hn : 2 ≤ cfg.curEventId) (htmp : s.eventTempCnt = base (cfg.curEventId - 1))
    (hscope : Meets (onWatchPoint cfg) (Unflushed cfg) traps s)
    (hrun : run (onWatchPoint cfg) traps s = .ok s') :
    CountsOwn cfg base traps s ↔ cfg.curEventId ≤ 2 ∨ BaselinesCoincide cfg.curEventId base traps := by
  induction traps generalizing s base with
  | nil =>
    refine ⟨fun _ => .inr trivial, fun _ pre t hpre ht i _ _ => ?_⟩
    rw [List.prefix_nil.mp hpre] at ht ⊢
    cases ht
    exact (add_zero _).symm
  | cons ev traps ih =>
    obtain ⟨⟨ha, hflush⟩, hscope⟩ := hscope
    obtain ⟨s₁, hs, hrun⟩ := run_cons.mp hrun
    have htmp₁ : s₁.eventTempCnt = ev.rebase (cfg.curEventId - 1) :=
      (onWatchPoint_eventTempCnt ha hs).trans (counted_eventTempCnt hn)
    rw [countsOwn_cons hs, hflush s₁ hs, counts_own_step hn htmp, ih htmp₁ (hscope s₁ hs) hrun,
      BaselinesCoincide]
    by_cases h2 : cfg.curEventId ≤ 2
    · have h2 : cfg.curEventId = 2 := by omega
      simp only [h2, le_refl, true_or, and_true, iff_true]
      exact ⟨trivial, fun i hi hin => by omega⟩
    · simp only [h2, false_or, and_assoc]

/-- After a sample and any traps without a flush, `eventRDCnt[i]` is what counter `i` itself
has counted, for every event and after every trap, exactly when there is at most one
counting event or the readings of the events coincide. -/
theorem eventRDCnt_own_readings_iff (cfg : Config) (ev : SampleInput) (method : MethodInfo)
    (traps : List TrapInput) (s₀ s s' : Thread) (hm : ev.env.getMethod ev.ip = some method)
    (hacc : accepts cfg method = true) (hs : onSample cfg ev s₀ = .ok s)
    (hscope : Meets (onWatchPoint cfg) (Unflushed cfg) traps s)
    (hrun : run (onWatchPoint cfg) traps s = .ok s') :
    (∀ pre t, pre <+: traps → run (onWatchPoint cfg) pre s = .ok t →
        ∀ i, 1 ≤ i → i < cfg.curEventId → t.eventRDCnt i = ownCount i ev.reading pre) ↔
      cfg.curEventId ≤ 2 ∨ BaselinesCoincide cfg.curEventId ev.reading traps := by
  simp only [onSample, hm, hacc, Bool.not_true, Bool.false_eq_true, ↓reduceIte] at hs
  have hsame := decoder_sameCounts (ok_of_ite_error hs).2
  have hzero : ∀ i, 1 ≤ i → i < cfg.curEventId → s.eventRDCnt i = 0 := by
    intro i hi hin
    rw [hsame.eventRDCnt]
    exact if_pos ⟨hi, hin⟩
  have hown : (∀ pre t, pre <+: traps → run (onWatchPoint cfg) pre s = .ok t →
      ∀ i, 1 ≤ i → i < cfg.curEventId → t.eventRDCnt i = ownCount i ev.reading pre) ↔
      CountsOwn cfg ev.reading traps s := by
    unfold CountsOwn
    refine forall₄_congr fun pre t hpre ht => forall₃_congr fun i hi hin => ?_
    rw [hzero i hi hin, zero_add]
  rw [hown]
  by_cases hn : 2 ≤ cfg.curEventId
  · refine countsOwn_iff hn ?_ hscope hrun
    rw [hsame.eventTempCnt]
    exact readBaselines_eq hn
  · exact ⟨fun _ => .inl (by omega), fun _ pre t hpre ht i hi hin => by omega⟩

def branchesEnv (pc : Addr) : Env :=
  imageEnv [(0x1000, ⟨.jz, 2, .relbr 0x10⟩), (0x1002, ⟨.jz, 2, .relbr 0x10⟩),
    (0x1004, ⟨.jz, 2, .relbr 0x10⟩)] callLeafMethods (stoppedAt pc 0x7000 0)

def branchTrap (pc : Addr) (readCounter rebase : Row) : TrapInput :=
  ⟨branchesEnv pc, readCounter, rebase, false, some (pc, true)⟩

theorem unflushed_branches {cfg : Config} {s s' : Thread} {pc : Addr} {r b : Row}
    (ha : s.watchPoint.isActive = true) (h : onWatchPoint cfg (branchTrap pc r b) s = .ok s')
    (hs : s'.eventRDCnt = (counted cfg (branchTrap pc r b) s).eventRDCnt) :
    Unflushed cfg (branchTrap pc r b) s := by
  refine ⟨ha, fun t ht => ?_⟩
  cases h.symm.trans ht
  exact hs

def branchesSampled (cfg : Config) (reading : Row) : Thread :=
  ((onSample cfg ⟨branchesEnv 0x1000, 0x1000, reading⟩ .init).toOption).getD .init

theorem eventRDCnt_own_readings_oneEvent :
    ∃ t, run (onWatchPoint (oneEventConfig 8)) [branchTrap 0x1000 (fun _ => 110) (fun _ => 111)]
        (branchesSampled (oneEventConfig 8) fun _ => 100) = .ok t ∧
      t.eventRDCnt 1 = ownCount 1 (fun _ => 100)
        [branchTrap 0x1000 (fun _ => 110) (fun _ => 111)] := by
  have hscope : Meets (onWatchPoint (oneEventConfig 8)) (Unflushed (oneEventConfig 8))
      [branchTrap 0x1000 (fun _ => 110) (fun _ => 111)]
      (branchesSampled (oneEventConfig 8) fun _ => 100) :=
    ⟨unflushed_branches rfl rfl rfl, fun _ _ => trivial⟩
  refine ⟨_, rfl, ?_⟩
  exact (eventRDCnt_own_readings_iff (oneEventConfig 8) ⟨branchesEnv 0x1000, 0x1000, fun _ => 100⟩
    _ _ .init _ _ rfl rfl rfl hscope rfl).mpr (.inl le_rfl) _ _ List.prefix_rfl rfl 1 le_rfl
    (by decide)

def twoEventConfig : Config :=
  { oneEventConfig 8 with
    curEventId := 3
    watermark := (setupWatermarks ['T'] [['c'], ['i'], ['m']] {}).getD {} }

def twoEventReading : Row := fun i => if i = 1 then 100 else 5000

def twoEventTrap : TrapInput :=
  branchTrap 0x1000 (fun i => if i = 1 then 110 else 5050) fun i => if i = 1 then 111 else 5051

/-- Counter 1 goes from 100 to 110 and counter 2 from 5000 to 5050; both events are charged
against a reading of the other counter. -/
theorem twoEvent_readings_mixed :
    Meets (onWatchPoint twoEventConfig) (Unflushed twoEventConfig) [twoEventTrap]
        (branchesSampled twoEventConfig twoEventReading) ∧
      ∃ s', run (onWatchPoint twoEventConfig) [twoEventTrap]
          (branchesSampled twoEventConfig twoEventReading) = .ok s' ∧
        s'.eventRDCnt 1 = 110 - 5000 ∧ s'.eventRDCnt 1 ≠ ownCount 1 twoEventReading [twoEventTrap] ∧
        s'.eventRDCnt 2 = 5050 - 111 ∧ s'.eventRDCnt 2 ≠ ownCount 2 twoEventReading [twoEventTrap] :=
  ⟨⟨unflushed_branches rfl rfl rfl, fun _ _ => trivial⟩, _, rfl, rfl, by decide, rfl, by decide⟩

end Trace4J.Profiler
