import Trace4J.Library.RoundedMean
import Trace4J.Library.RunningVariance
import Trace4J.Profiler.ContextTreeShape
import Trace4J.Profiler.Intervals

/-!
# What the metrics of a context say

The metrics of a context are a function of the instances that were recorded for it: how
many there were, where each started and ended, and the mean and the variance of their
counts. One update appends one instance, whichever of the three returns recorded it. The
slots of the value list are those that `SetupWatermarkMetric` hands out: slot 0 for the
count and six slots for every further event.
-/

namespace Trace4J.Profiler
open Library RunningVariance

/-! ## Slots -/

def slots (m : ContextMetrics) (k : ℕ) : MetricVal := m.getD k {}

section Slots
variable {n : ℕ} {m m' : ContextMetrics} {k : ℤ} {v : MetricVal}

theorem getMetricVal_some (h : getMetricVal n m k = some (m', v)) :
    0 ≤ k ∧ k < n ∧ slots m' = slots m ∧ v = slots m k.toNat := by
  unfold getMetricVal at h
  split_ifs at h with hk
  simp only [Option.some.injEq, Prod.mk.injEq] at h
  obtain ⟨rfl, rfl⟩ := h
  have hsame : slots (m ++ List.replicate (k.toNat + 1 - m.length) ({} : MetricVal)) = slots m := by
    funext j
    simp only [slots, List.getD_eq_getElem?_getD, List.getElem?_append, List.getElem?_replicate]
    split_ifs with hj hr
    · rfl
    all_goals simp [List.getElem?_eq_none (not_lt.mp hj)]
  refine ⟨by omega, by omega, hsame, ?_⟩
  rw [← hsame]
  rfl

theorem length_getMetricVal (h : getMetricVal n m k = some (m', v)) :
    m.length ≤ m'.length ∧ k.toNat < m'.length := by
  unfold getMetricVal at h
  split_ifs at h with hk
  simp only [Option.some.injEq, Prod.mk.injEq] at h
  obtain ⟨rfl, -⟩ := h
  rw [List.length_append, List.length_replicate]
  omega

theorem slots_set {j : ℕ} (hj : j < m.length) : slots (m.set j v) = Function.update (slots m) j v := by
  funext i
  simp only [slots, List.getD_eq_getElem?_getD, List.getElem?_set, Function.update_apply]
  by_cases hij : i = j
  · subst hij
    simp [hj]
  · simp [hij, Ne.symm hij]

theorem setMetricVal_some (h : setMetricVal n m k v = some m') :
    slots m' = Function.update (slots m) k.toNat v := by
  obtain ⟨⟨m₁, old⟩, hget, rfl⟩ := Option.map_eq_some_iff.mp h
  rw [slots_set (length_getMetricVal hget).2, (getMetricVal_some hget).2.2.1]

theorem length_setMetricVal (h : setMetricVal n m k v = some m') :
    m.length ≤ m'.length ∧ k.toNat < m'.length := by
  obtain ⟨⟨m₁, old⟩, hget, rfl⟩ := Option.map_eq_some_iff.mp h
  rw [List.length_set]
  exact length_getMetricVal hget

theorem increment_some (h : increment n m k v = some m') :
    slots m' = Function.update (slots m) k.toNat
      { slots m k.toNat with i := (slots m k.toNat).i + v.i, r := (slots m k.toNat).r + v.r } := by
  obtain ⟨⟨m₁, old⟩, hget, rfl⟩ := Option.map_eq_some_iff.mp h
  obtain ⟨-, -, hslots, hold⟩ := getMetricVal_some hget
  rw [slots_set (length_getMetricVal hget).2, hslots, hold]

end Slots

/-! ## The metrics that are registered -/

/-- Slot 0 counts, and event `i` has the slots `6 * i - 5` to `6 * i`. -/
structure Watermark.Laid (w : Watermark) : Prop where
  empty : w.curWatermarkId = 0 → w.metricInfoList = []
  numMetrics : w.curWatermarkId ≠ 0 → w.numMetrics = 6 * w.curWatermarkId - 5
  sampleCnt : w.curWatermarkId ≠ 0 → w.sampleCntMetricId = 0
  start : ∀ i, 1 ≤ i → i < w.curWatermarkId → w.startMetricId i = 6 * i - 5
  stop : ∀ i, 1 ≤ i → i < w.curWatermarkId → w.endMetricId i = 6 * i - 4
  mean : ∀ i, 1 ≤ i → i < w.curWatermarkId → w.meanMetricId i = 6 * i - 3
  variance : ∀ i, 1 ≤ i → i < w.curWatermarkId → w.varianceMetricId i = 6 * i - 2
  m2 : ∀ i, 1 ≤ i → i < w.curWatermarkId → w.m2MetricId i = 6 * i - 1
  cv : ∀ i, 1 ≤ i → i < w.curWatermarkId → w.cvMetricId i = 6 * i

theorem laid_new : ({} : Watermark).Laid := by
  constructor <;> intros <;> simp_all

theorem Watermark.Laid.setup {w w' : Watermark} {clientName eventName : Text} (h : w.Laid)
    (hs : setupWatermarkMetric w clientName eventName = some w') :
    w'.Laid := by
  dsimp only [setupWatermarkMetric] at hs
  split_ifs at hs with hmax hzero
  · cases hs
    refine ⟨fun hcur => absurd hcur (Nat.succ_ne_zero _), ?_, ?_, ?_, ?_, ?_, ?_, ?_, ?_⟩
    · intro _
      simp [Watermark.numMetrics, h.empty hzero, hzero]
    · intro _
      simp [h.empty hzero]
    all_goals
      intro i h1 hi
      simp only [hzero] at hi
      omega
  · cases hs
    have hnum := h.numMetrics hzero
    unfold Watermark.numMetrics at hnum
    refine ⟨fun hcur => absurd hcur (Nat.succ_ne_zero _), ?_, ?_, ?_, ?_, ?_, ?_, ?_, ?_⟩
    · intro _
      simp only [Watermark.numMetrics, List.length_append, List.length_cons, List.length_nil, hnum]
      omega
    · exact fun _ => h.sampleCnt hzero
    all_goals
      intro i h1 hi
      simp only at hi
      simp only [hnum]
      by_cases hcur : i = w.curWatermarkId
      · subst hcur
        rw [Function.update_self]
        omega
      · rw [Function.update_of_ne hcur]
        have hlt : i < w.curWatermarkId := by omega
        first
          | exact h.start i h1 hlt
          | exact h.stop i h1 hlt
          | exact h.mean i h1 hlt
          | exact h.variance i h1 hlt
          | exact h.m2 i h1 hlt
          | exact h.cv i h1 hlt

theorem laid_setupWatermarks {clientName : Text} {eventNames : List Text} {w w' : Watermark}
    (h : w.Laid) (hs : setupWatermarks clientName eventNames w = some w') : w'.Laid := by
  induction eventNames generalizing w with
  | nil =>
    cases hs
    exact h
  | cons e es ih =>
    obtain ⟨w₁, h₁, hs⟩ := Option.bind_eq_some_iff.mp hs
    exact ih (h.setup h₁) hs

/-! ## One update -/

section Update
variable {update : ℕ → ℕ → Welford → Welford} {w : Watermark} {cv : ℚ → ℚ → ℚ}
variable {sampleCnt i : ℕ} {start stop newValue : Row} {m m' : ContextMetrics}

def welfordAt (m : ContextMetrics) (i : ℕ) : Welford :=
  ⟨(slots m (6 * i - 3)).r, (slots m (6 * i - 2)).r, (slots m (6 * i - 1)).r⟩

theorem recordEvent_updates (hw : w.Laid) (h1 : 1 ≤ i) (hi : i < w.curWatermarkId)
    (h : recordEventWith update w cv sampleCnt start stop newValue m i = some m') :
    let u := update sampleCnt (newValue i).toNat (welfordAt m i)
    let starts := (slots m (6 * i - 5)).str ++ toDecimal (start i) ++ [' ']
    let stops := (slots m (6 * i - 4)).str ++ toDecimal (stop i) ++ [' ']
    m.length ≤ m'.length ∧ 6 * i < m'.length ∧
      slots m' = Function.update (Function.update (Function.update (Function.update
        (Function.update (Function.update (slots m) (6 * i - 5) { str := starts })
          (6 * i - 4) { str := stops }) (6 * i - 3) { r := u.mean })
          (6 * i - 2) { r := u.variance }) (6 * i - 1) { r := u.m2 })
          (6 * i) { r := cv u.variance u.mean } := by
  intro u starts stops
  simp only [recordEventWith, hw.start i h1 hi, hw.stop i h1 hi, hw.mean i h1 hi,
    hw.variance i h1 hi, hw.m2 i h1 hi, hw.cv i h1 hi] at h
  obtain ⟨⟨m₁, v₁⟩, h₁, h⟩ := Option.bind_eq_some_iff.mp h
  obtain ⟨⟨m₂, v₂⟩, h₂, h⟩ := Option.bind_eq_some_iff.mp h
  obtain ⟨⟨m₃, v₃⟩, h₃, h⟩ := Option.bind_eq_some_iff.mp h
  obtain ⟨⟨m₄, v₄⟩, h₄, h⟩ := Option.bind_eq_some_iff.mp h
  obtain ⟨⟨m₅, v₅⟩, h₅, h⟩ := Option.bind_eq_some_iff.mp h
  obtain ⟨m₆, h₆, h⟩ := Option.bind_eq_some_iff.mp h
  obtain ⟨m₇, h₇, h⟩ := Option.bind_eq_some_iff.mp h
  obtain ⟨m₈, h₈, h⟩ := Option.bind_eq_some_iff.mp h
  obtain ⟨m₉, h₉, h⟩ := Option.bind_eq_some_iff.mp h
  obtain ⟨m₁₀, h₁₀, hlast⟩ := Option.bind_eq_some_iff.mp h
  obtain ⟨-, -, e₁, rfl⟩ := getMetricVal_some h₁
  obtain ⟨-, -, e₂, rfl⟩ := getMetricVal_some h₂
  obtain ⟨-, -, e₃, rfl⟩ := getMetricVal_some h₃
  obtain ⟨-, -, e₄, rfl⟩ := getMetricVal_some h₄
  obtain ⟨-, -, e₅, rfl⟩ := getMetricVal_some h₅
  have hcv : ((6 : ℤ) * i).toNat = 6 * i := by omega
  obtain ⟨hle, hlt⟩ := length_setMetricVal hlast
  have hlen : m.length ≤ m₁₀.length :=
    calc m.length ≤ m₁.length := (length_getMetricVal h₁).1
      _ ≤ m₂.length := (length_getMetricVal h₂).1
      _ ≤ m₃.length := (length_getMetricVal h₃).1
      _ ≤ m₄.length := (length_getMetricVal h₄).1
      _ ≤ m₅.length := (length_getMetricVal h₅).1
      _ ≤ m₆.length := (length_setMetricVal h₆).1
      _ ≤ m₇.length := (length_setMetricVal h₇).1
      _ ≤ m₈.length := (length_setMetricVal h₈).1
      _ ≤ m₉.length := (length_setMetricVal h₉).1
      _ ≤ m₁₀.length := (length_setMetricVal h₁₀).1
  refine ⟨hlen.trans hle, hcv ▸ hlt, ?_⟩
  have hstart : ((6 : ℤ) * i - 5).toNat = 6 * i - 5 := by omega
  have hstop : ((6 : ℤ) * i - 4).toNat = 6 * i - 4 := by omega
  have hmean : ((6 : ℤ) * i - 3).toNat = 6 * i - 3 := by omega
  have hvariance : ((6 : ℤ) * i - 2).toNat = 6 * i - 2 := by omega
  have hm2 : ((6 : ℤ) * i - 1).toNat = 6 * i - 1 := by omega
  have hslots := setMetricVal_some hlast
  rw [setMetricVal_some h₁₀, setMetricVal_some h₉, setMetricVal_some h₈, setMetricVal_some h₇,
    setMetricVal_some h₆] at hslots
  simp only [e₁, e₂, e₃, e₄, e₅, hstart, hstop, hmean, hvariance, hm2, hcv] at hslots
  exact hslots

theorem recordEvent_slots (hw : w.Laid) (h1 : 1 ≤ i) (hi : i < w.curWatermarkId)
    (h : recordEventWith update w cv sampleCnt start stop newValue m i = some m') :
    let u := update sampleCnt (newValue i).toNat (welfordAt m i)
    (slots m' (6 * i - 5)).str = (slots m (6 * i - 5)).str ++ toDecimal (start i) ++ [' '] ∧
      (slots m' (6 * i - 4)).str = (slots m (6 * i - 4)).str ++ toDecimal (stop i) ++ [' '] ∧
      welfordAt m' i = u ∧
      ∀ k, k < 6 * i - 5 ∨ 6 * i < k → slots m' k = slots m k := by
  intro u
  obtain ⟨-, -, hslots⟩ := recordEvent_updates hw h1 hi h
  refine ⟨?_, ?_, ?_, ?_⟩
  · simp (disch := omega) only [hslots, Function.update_of_ne, Function.update_self]
  · simp (disch := omega) only [hslots, Function.update_of_ne, Function.update_self]
  · simp (disch := omega) only [welfordAt, hslots, Function.update_of_ne, Function.update_self, u]
  · intro k hk
    simp (disch := omega) only [hslots, Function.update_of_ne]

/-! ## The instances behind the metrics -/

def values (i : ℕ) (insts : List Instance) : List ℚ := insts.map fun x => ((x.newValue i).toNat : ℚ)

structure EventSummary (i : ℕ) (insts : List Instance) (m : ContextMetrics) : Prop where
  start : (slots m (6 * i - 5)).str = insts.flatMap fun x => toDecimal (x.start i) ++ [' ']
  stop : (slots m (6 * i - 4)).str = insts.flatMap fun x => toDecimal (x.stop i) ++ [' ']
  welford : welfordAt m i =
    ⟨mean (values i insts), variance (values i insts), sqDev (values i insts)⟩

structure Summarises (n : ℕ) (insts : List Instance) (m : ContextMetrics) : Prop where
  count : (slots m 0).i = insts.length
  event : ∀ i, 1 ≤ i → i < n → EventSummary i insts m

def runWelford (update : ℕ → ℕ → Welford → Welford) (xs : List ℕ) : Welford :=
  (xs.foldl (fun (s : ℕ × Welford) x => (s.1 + 1, update (s.1 + 1) x s.2)) (0, ⟨0, 0, 0⟩)).2

def counts (i : ℕ) (insts : List Instance) : List ℕ := insts.map fun x => (x.newValue i).toNat

structure EventRun (update : ℕ → ℕ → Welford → Welford) (i : ℕ) (insts : List Instance)
    (m : ContextMetrics) : Prop where
  start : (slots m (6 * i - 5)).str = insts.flatMap fun x => toDecimal (x.start i) ++ [' ']
  stop : (slots m (6 * i - 4)).str = insts.flatMap fun x => toDecimal (x.stop i) ++ [' ']
  welford : welfordAt m i = runWelford update (counts i insts)

structure RecordedAs (update : ℕ → ℕ → Welford → Welford) (n : ℕ) (insts : List Instance)
    (m : ContextMetrics) : Prop where
  count : (slots m 0).i = insts.length
  event : ∀ i, 1 ≤ i → i < n → EventRun update i insts m

theorem runWelford_append (update : ℕ → ℕ → Welford → Welford) (xs : List ℕ) (x : ℕ) :
    runWelford update (xs ++ [x]) = update (xs.length + 1) x (runWelford update xs) := by
  have hlen := RoundedMean.foldl_numbered update xs (0, ⟨0, 0, 0⟩)
  rw [zero_add] at hlen
  rw [runWelford, List.foldl_append, List.foldl_cons, List.foldl_nil, hlen]
  rfl

theorem updateVarianceAndMean_append (xs : List ℚ) (x : ℕ) :
    updateVarianceAndMean (xs.length + 1) x ⟨mean xs, variance xs, sqDev xs⟩ =
      ⟨mean (xs ++ [(x : ℚ)]), variance (xs ++ [(x : ℚ)]), sqDev (xs ++ [(x : ℚ)])⟩ := by
  have hlen : (xs ++ [(x : ℚ)]).length = xs.length + 1 := by simp
  unfold updateVarianceAndMean
  split_ifs with hfirst
  · obtain rfl : xs = [] := List.length_eq_zero_iff.mp (by omega)
    simp [mean, variance, sqDev]
  · have hvariance : variance (xs ++ [(x : ℚ)]) =
        sqDev (xs ++ [(x : ℚ)]) / ((xs.length + 1 : ℕ) - 1) := by
      rw [variance, hlen, if_neg hfirst]
    rw [hvariance, sqDev_append, mean_append]
    push_cast
    rfl

theorem runWelford_exact (xs : List ℕ) : runWelford updateVarianceAndMean xs =
    ⟨mean (xs.map (Nat.cast : ℕ → ℚ)), variance (xs.map (Nat.cast : ℕ → ℚ)),
      sqDev (xs.map (Nat.cast : ℕ → ℚ))⟩ := by
  induction xs using List.reverseRecOn with
  | nil => simp [runWelford, mean, variance, sqDev]
  | append_singleton xs x ih =>
    have hstep := updateVarianceAndMean_append (xs.map (Nat.cast : ℕ → ℚ)) x
    rw [List.length_map] at hstep
    rw [runWelford_append, ih, hstep, List.map_append, List.map_singleton]

theorem eventSummary_iff {insts : List Instance} :
    EventSummary i insts m ↔ EventRun updateVarianceAndMean i insts m := by
  have hvalues : (counts i insts).map (Nat.cast : ℕ → ℚ) = values i insts := by
    rw [counts, List.map_map]
    rfl
  have hrun := runWelford_exact (counts i insts)
  rw [hvalues] at hrun
  constructor
  · exact fun h => ⟨h.start, h.stop, h.welford.trans hrun.symm⟩
  · exact fun h => ⟨h.start, h.stop, h.welford.trans hrun⟩

theorem EventRun.frame {insts : List Instance} (h : EventRun update i insts m)
    (hslots : ∀ k, 6 * i - 5 ≤ k → k ≤ 6 * i → slots m' k = slots m k) (h1 : 1 ≤ i) :
    EventRun update i insts m' := by
  refine ⟨?_, ?_, ?_⟩
  · rw [hslots _ le_rfl (by omega), h.start]
  · rw [hslots _ (by omega) (by omega), h.stop]
  · simp (disch := omega) only [welfordAt, hslots]
    exact h.welford

theorem EventRun.record {insts : List Instance} {inst : Instance} (hw : w.Laid) (h1 : 1 ≤ i)
    (hi : i < w.curWatermarkId) (h : EventRun update i insts m)
    (hr : recordEventWith update w cv (insts.length + 1) inst.start inst.stop inst.newValue m i =
      some m') : EventRun update i (insts ++ [inst]) m' := by
  obtain ⟨hstart, hstop, hwelford, -⟩ := recordEvent_slots hw h1 hi hr
  refine ⟨?_, ?_, ?_⟩
  · rw [hstart, h.start]
    simp
  · rw [hstop, h.stop]
    simp
  · have hlen : (counts i insts).length = insts.length := List.length_map _
    rw [hwelford, h.welford, ← hlen, counts, counts, List.map_append, List.map_singleton,
      runWelford_append]

theorem foldlM_frame (hw : w.Laid) (l : List ℕ) (hl : ∀ i ∈ l, 1 ≤ i ∧ i < w.curWatermarkId)
    (m m' : ContextMetrics)
    (h : l.foldlM (recordEventWith update w cv sampleCnt start stop newValue) m = some m') (k : ℕ)
    (hk : ∀ i ∈ l, k < 6 * i - 5 ∨ 6 * i < k) : slots m' k = slots m k := by
  induction l generalizing m with
  | nil =>
    cases h
    rfl
  | cons j l ih =>
    obtain ⟨⟨h1, hj⟩, htail⟩ := List.forall_mem_cons.mp hl
    obtain ⟨hkj, hk⟩ := List.forall_mem_cons.mp hk
    rw [List.foldlM_cons] at h
    obtain ⟨m₁, h₁, h⟩ := Option.bind_eq_some_iff.mp h
    rw [ih htail m₁ h hk, (recordEvent_slots hw h1 hj h₁).2.2.2 k hkj]

theorem foldlM_recordEvent {insts : List Instance} {inst : Instance} (hw : w.Laid) (l : List ℕ)
    (hl : ∀ i ∈ l, 1 ≤ i ∧ i < w.curWatermarkId) (hnodup : l.Nodup) (m m' : ContextMetrics)
    (h : l.foldlM (recordEventWith update w cv (insts.length + 1) inst.start inst.stop
      inst.newValue) m = some m') :
    ∀ i ∈ l, EventRun update i insts m → EventRun update i (insts ++ [inst]) m' := by
  induction l generalizing m with
  | nil => simp
  | cons j l ih =>
    obtain ⟨⟨h1, hj⟩, htail⟩ := List.forall_mem_cons.mp hl
    obtain ⟨hnot, hnodup⟩ := List.nodup_cons.mp hnodup
    rw [List.foldlM_cons] at h
    obtain ⟨m₁, h₁, htailM⟩ := Option.bind_eq_some_iff.mp h
    intro i hi hsummary
    obtain rfl | hi := List.mem_cons.mp hi
    · refine (hsummary.record hw h1 hj h₁).frame
        (fun k hlo hhi => foldlM_frame hw l htail m₁ m' htailM k fun i' hi' => ?_) h1
      have hne : i' ≠ i := fun heq => hnot (heq ▸ hi')
      have hpos := (htail i' hi').1
      omega
    · have hother := (recordEvent_slots hw h1 hj h₁).2.2.2
      refine ih htail hnodup m₁ htailM i hi
        (hsummary.frame (fun k hlo hhi => hother k ?_) (htail i hi).1)
      have hne : i ≠ j := fun heq => hnot (heq ▸ hi)
      have hpos := (htail i hi).1
      omega

theorem mem_events {n : ℕ} : i ∈ List.range' 1 (n - 1) ↔ 1 ≤ i ∧ i < n := by
  rw [List.mem_range'_1]
  omega

theorem RecordedAs.record {insts : List Instance} {inst : Instance}
    {metrics : Option ContextMetrics} (hw : w.Laid) (hcur : w.curWatermarkId ≠ 0)
    (h : RecordedAs update w.curWatermarkId insts (metrics.getD []))
    (hr : recordMetricsWith update w cv metrics inst.start inst.stop inst.newValue = some m') :
    RecordedAs update w.curWatermarkId (insts ++ [inst]) m' := by
  obtain ⟨m₁, hinc, hr⟩ := Option.bind_eq_some_iff.mp hr
  obtain ⟨⟨m₂, cnt⟩, hget, hfold⟩ := Option.bind_eq_some_iff.mp hr
  obtain ⟨-, -, hsame, hcnt⟩ := getMetricVal_some hget
  have hslots := increment_some hinc
  simp only [hw.sampleCnt hcur, Int.toNat_zero] at hslots hcnt
  have hzero : (slots m₁ 0).i = insts.length + 1 := by
    rw [hslots, Function.update_self, h.count]
  have hcntval : cnt.i.toNat = insts.length + 1 := by
    rw [hcnt, hzero]
    omega
  simp only [hcntval] at hfold
  have hrange : ∀ i ∈ List.range' 1 (w.curWatermarkId - 1), 1 ≤ i ∧ i < w.curWatermarkId :=
    fun i => mem_events.mp
  have hevents := foldlM_recordEvent hw _ hrange List.nodup_range' m₂ m' hfold
  have hframe := foldlM_frame hw _ hrange m₂ m' hfold
  refine ⟨?_, ?_⟩
  · rw [hframe 0 fun i hi => .inl (by have := (hrange i hi).1; omega), hsame, hzero]
    simp
  · intro i h1 hi
    refine hevents i (mem_events.mpr ⟨h1, hi⟩) ((h.event i h1 hi).frame ?_ h1)
    intro k hlo hhi
    rw [hsame, hslots, Function.update_of_ne (by omega)]

theorem recordedAs_nil (update : ℕ → ℕ → Welford → Welford) (n : ℕ) : RecordedAs update n [] [] :=
  ⟨rfl, fun _ _ _ => ⟨rfl, rfl, rfl⟩⟩

theorem summarises_iff {n : ℕ} {insts : List Instance} :
    Summarises n insts m ↔ RecordedAs updateVarianceAndMean n insts m := by
  constructor
  · exact fun h => ⟨h.count, fun i h1 hi => eventSummary_iff.mp (h.event i h1 hi)⟩
  · exact fun h => ⟨h.count, fun i h1 hi => eventSummary_iff.mpr (h.event i h1 hi)⟩

theorem summarises_nil (n : ℕ) : Summarises n [] [] := summarises_iff.mpr (recordedAs_nil _ n)

theorem Summarises.record {insts : List Instance} {inst : Instance}
    {metrics : Option ContextMetrics} (hw : w.Laid) (hcur : w.curWatermarkId ≠ 0)
    (h : Summarises w.curWatermarkId insts (metrics.getD []))
    (hr : recordMetrics w cv metrics inst.start inst.stop inst.newValue = some m') :
    Summarises w.curWatermarkId (insts ++ [inst]) m' :=
  summarises_iff.mpr ((summarises_iff.mp h).record hw hcur hr)

end Update

/-! ## Every way the tree and the records change -/

inductive TreeStep (cfg : Config) (env : Env) (s s' : Thread) : Prop
  | same : s'.contextTree = s.contextTree →
      recordedInstances s'.log = recordedInstances s.log → TreeStep cfg env s s'
  | build {ip : Addr} {method : MethodInfo} : env.getMethod ip = some method →
      s'.contextTree = (constructContext s.contextTree env.trace ip method.methodId method.version
        (leafFrame ip method.methodId method.version)).1 →
      recordedInstances s'.log = recordedInstances s.log → TreeStep cfg env s s'
  | record (pc methodId : UInt64) (methodVersion : UInt32) (inst : Instance) {m : ContextMetrics} :
      pc ≠ 0 → inst.stop = inst.start + inst.newValue →
      inst.ctxt = (constructContext s.contextTree env.trace pc methodId methodVersion
        inst.frame).2 →
      inst.update cfg (constructContext s.contextTree env.trace pc methodId methodVersion
        inst.frame).1 = some m →
      s'.contextTree = (constructContext s.contextTree env.trace pc methodId methodVersion
        inst.frame).1.setMetrics inst.ctxt m →
      recordedInstances s'.log = inst :: recordedInstances s.log → TreeStep cfg env s s'

section TreeStep
variable {cfg : Config} {env : Env} {s s₀ s' t : Thread}

theorem TreeStep.after (h : TreeStep cfg env s t) (ht : s'.contextTree = t.contextTree)
    (hl : recordedInstances s'.log = recordedInstances t.log) : TreeStep cfg env s s' := by
  cases h with
  | same htree hlog => exact .same (ht.trans htree) (hl.trans hlog)
  | build hm htree hlog => exact .build hm (ht.trans htree) (hl.trans hlog)
  | record pc methodId version inst hpc hstop hctxt hm htree hlog =>
    exact .record pc methodId version inst hpc hstop hctxt hm (ht.trans htree) (hl.trans hlog)

theorem TreeStep.before (h : TreeStep cfg env t s') (ht : t.contextTree = s.contextTree)
    (hl : recordedInstances t.log = recordedInstances s.log) : TreeStep cfg env s s' := by
  cases h with
  | same htree hlog => exact .same (htree.trans ht) (hlog.trans hl)
  | build hm htree hlog => exact .build hm (ht ▸ htree) (hlog.trans hl)
  | record pc methodId version inst hpc hstop hctxt hm htree hlog =>
    rw [ht] at hctxt hm htree
    exact .record pc methodId version inst hpc hstop hctxt hm htree (hl ▸ hlog)

theorem TreeStep.decoder {code : Addr → Option Inst} {ip : Addr} (h : TreeStep cfg env s t)
    (hd : decoder cfg code ip t = .ok s') : TreeStep cfg env s s' := by
  have hsame := decoder_sameCounts hd
  exact h.after hsame.contextTree (by rw [hsame.log])

theorem Records.treeStep {top : ℤ} {pc methodId : UInt64} {methodVersion : UInt32} {sd : SampleData}
    {flush : ℕ → ℤ → Thread → Except Fault Thread}
    (h : Records cfg env top pc methodId methodVersion sd flush s₀ t) (hflush : CountsOnly flush)
    (hpc : pc ≠ 0) (htree : s₀.contextTree = s.contextTree) (hlog : s₀.log = s.log) :
    TreeStep cfg env s t := by
  obtain ⟨s₁, m, hf, hm, rfl⟩ := h
  have hlog₁ := (hflush _ _ _ _ hf).2
  rw [htree] at hm
  refine .record pc methodId methodVersion
    (recordedInstance env top pc methodId methodVersion sd s₀ s₁) hpc rfl ?_ hm ?_ ?_
  · simp only [recordedInstance, htree]
  · simp only [recordedInstance, htree]
  · simp only [recordedInstances, hlog₁, hlog]

theorem openCall_treeStep {calleeIP : Addr} {method : MethodInfo}
    (h : openCall cfg env calleeIP method s₀ = .ok t) (hm : env.getMethod calleeIP = some method)
    (htree : s₀.contextTree = s.contextTree) (hlog : s₀.log = s.log) : TreeStep cfg env s t := by
  obtain ⟨-, h⟩ := ok_of_ite_error h
  obtain ⟨u, -, h⟩ := bind_eq_ok.mp h
  obtain ⟨v, -, h⟩ := bind_eq_ok.mp h
  cases h
  refine .build hm ?_ ?_
  · rw [← htree]
    rfl
  · rw [recordedInstances, hlog]

theorem armNext_tree : (armNext s).contextTree = s.contextTree ∧ (armNext s).log = s.log := by
  obtain ⟨wpi, wps, h⟩ := armNext_eq (s := s)
  rw [h]
  exact ⟨rfl, rfl⟩

theorem Resumes.treeStep {ip : Addr} (h : Resumes cfg env s ip t) : TreeStep cfg env s t := by
  cases h with
  | runtimeReturn => exact .same rfl rfl
  | innerReturn _ _ _ _ _ _ hpc hr _ _ =>
    have hrec : TreeStep cfg env s _ := hr.treeStep flushReturn_countsOnly hpc rfl rfl
    exact hrec.after rfl rfl
  | branch => exact .same rfl rfl
  | call _ _ _ _ _ _ hm ho => exact openCall_treeStep ho hm rfl rfl

theorem TrapStep.treeStep {ev : TrapInput} (h : TrapStep cfg ev s s') :
    TreeStep cfg ev.env s s' := by
  cases h with
  | dropped => exact .same rfl rfl
  | reset => exact .same rfl rfl
  | unmapped => exact .same rfl rfl
  | undecoded => exact .same rfl rfl
  | resume _ hres hd => exact hres.treeStep.decoder hd
  | runtimeCall _ _ _ _ _ _ _ h =>
    obtain ⟨-, h⟩ := ok_of_ite_error h
    cases h
    exact .same rfl rfl
  | lastReturn _ _ _ _ _ _ _ hpc hr _ _ =>
    have hrec : TreeStep cfg ev.env s _ := hr.treeStep flushReturn_countsOnly hpc rfl rfl
    exact hrec.after rfl rfl
  | overInsane => exact .same armNext_tree.1 (by simp only [takeTrap, decTops, armNext_tree.2])
  | overThreshold _ _ _ _ _ _ hpc hr _ =>
    have hrec : TreeStep cfg ev.env s _ :=
      hr.treeStep flushReturn_countsOnly hpc armNext_tree.1 armNext_tree.2
    exact hrec.after rfl rfl
  | outermostInsane => exact .same rfl rfl
  | outermost _ _ _ _ _ hpc hr =>
    have hrec : TreeStep cfg ev.env s _ := hr.treeStep flushOutermost_countsOnly hpc rfl rfl
    exact hrec.after rfl rfl

theorem step_treeStep {ev : Event} (h : step cfg ev s = .ok s') : TreeStep cfg ev.env s s' := by
  cases ev with
  | sample ev =>
    cases onSample_step h with
    | ignored => exact .same rfl rfl
    | taken hm _ _ hd =>
      have hopen : TreeStep cfg ev.env s (openSample cfg ev _ s) := .build hm rfl rfl
      exact hopen.decoder hd
  | trap ev =>
    obtain ⟨-, rfl⟩ | ⟨-, htrap⟩ := onWatchPoint_step h
    · exact .same rfl rfl
    · have hcounted : (counted cfg ev s).contextTree = s.contextTree ∧
          (counted cfg ev s).log = s.log := ⟨rfl, rfl⟩
      exact htrap.treeStep.before hcounted.1 (by rw [hcounted.2])

end TreeStep

/-! ## A run -/

def instancesOf (s : Thread) (ctxt : ℕ) : List Instance :=
  ((recordedInstances s.log).filter fun x => x.ctxt = ctxt).reverse

def HasHistory (n : ℕ) (insts : List Instance) : Option ContextMetrics → Prop
  | none => insts = []
  | some m => insts ≠ [] ∧ n ≠ 0 ∧ Summarises n insts m

structure History (cfg : Config) (s : Thread) : Prop where
  linked : s.contextTree.Linked
  known : ∀ inst ∈ recordedInstances s.log, inst.ctxt < s.contextTree.idCounter
  stop : ∀ inst ∈ recordedInstances s.log, inst.stop = inst.start + inst.newValue
  metrics : ∀ n < s.contextTree.idCounter,
    HasHistory cfg.watermark.curWatermarkId (instancesOf s n) (s.contextTree.contextMap n).metrics

structure Extends (t t' : ContextTree) : Prop where
  linked : t'.Linked
  count : t.idCounter ≤ t'.idCounter
  old : ∀ n < t.idCounter, (t'.contextMap n).metrics = (t.contextMap n).metrics
  new : ∀ n, t.idCounter ≤ n → n < t'.idCounter → (t'.contextMap n).metrics = none

section Run
variable {cfg : Config} {s s' : Thread} {t t' : ContextTree}

theorem Extends.refl (h : t.Linked) : Extends t t :=
  ⟨h, le_rfl, fun _ _ => rfl, fun _ hlo hhi => absurd hhi (not_lt.mpr hlo)⟩

theorem Extends.grow {q : ℕ} {f : ContextFrame} (h : Extends t t') (hq : q < t'.idCounter) :
    Extends t (t'.grow q f) := by
  have hcount : (t'.grow q f).idCounter = t'.idCounter + 1 := rfl
  have hle := h.count
  refine ⟨h.linked.grow hq, by omega, ?_, ?_⟩
  · intro n hn
    rw [(ContextTree.grow_old (by omega)).2.1, h.old n hn]
  · intro n hlo hhi
    by_cases hnew : n = t'.idCounter
    · subst hnew
      rw [ContextTree.grow_new]
    · rw [(ContextTree.grow_old (by omega)).2.1, h.new n hlo (by omega)]

theorem addPath_lt {q : ℕ} (fs : List ContextFrame) (h : t.Linked) (hq : q < t.idCounter) :
    (t.addPath q fs).2 < (t.addPath q fs).1.idCounter := by
  induction fs generalizing t q with
  | nil => exact hq
  | cons f fs ih =>
    obtain ⟨h', -, hlt⟩ := ContextTree.addContext_ensures (f := f) (fun _ _ _ h hq => h.grow hq)
      (fun _ h => h) h hq
    exact ih h' hlt

theorem constructContext_extends (h : t.Linked) (trace : CallTrace) (ip methodId : UInt64)
    (methodVersion : UInt32) (callee : ContextFrame) :
    Extends t (constructContext t trace ip methodId methodVersion callee).1 :=
  ContextTree.addPath_ensures (fun _ _ _ h hq => h.grow hq) (fun _ h => h.linked) _ (.refl h) h.root

theorem instancesOf_cons {inst : Instance} (hlog : recordedInstances s'.log =
    inst :: recordedInstances s.log) (n : ℕ) :
    instancesOf s' n = instancesOf s n ++ if inst.ctxt = n then [inst] else [] := by
  simp only [instancesOf, hlog]
  by_cases hn : inst.ctxt = n <;> simp [hn]

theorem instancesOf_unknown (h : History cfg s) {n : ℕ} (hn : s.contextTree.idCounter ≤ n) :
    instancesOf s n = [] := by
  rw [instancesOf, List.reverse_eq_nil_iff, List.filter_eq_nil_iff]
  intro inst hinst
  have hlt := h.known inst hinst
  simp only [decide_eq_true_eq]
  omega

theorem History.extend (h : History cfg s) (hext : Extends s.contextTree t') {n : ℕ}
    (hn : n < t'.idCounter) :
    HasHistory cfg.watermark.curWatermarkId (instancesOf s n) (t'.contextMap n).metrics := by
  by_cases hold : n < s.contextTree.idCounter
  · rw [hext.old n hold]
    exact h.metrics n hold
  · rw [hext.new n (by omega) hn]
    exact instancesOf_unknown h (by omega)

theorem HasHistory.getD {n : ℕ} {insts : List Instance} {metrics : Option ContextMetrics}
    (h : HasHistory n insts metrics) : Summarises n insts (metrics.getD []) := by
  cases metrics with
  | none =>
    obtain rfl : insts = [] := h
    exact summarises_nil n
  | some m => exact h.2.2

theorem recordMetrics_cur {update : ℕ → ℕ → Welford → Welford} {w : Watermark} {cv : ℚ → ℚ → ℚ}
    {metrics : Option ContextMetrics} {start stop newValue : Row} {m : ContextMetrics}
    (hw : w.Laid) (h : recordMetricsWith update w cv metrics start stop newValue = some m) :
    w.curWatermarkId ≠ 0 := by
  intro hzero
  obtain ⟨m₁, hinc, -⟩ := Option.bind_eq_some_iff.mp h
  obtain ⟨⟨m₂, v⟩, hget, -⟩ := Option.map_eq_some_iff.mp hinc
  obtain ⟨hlo, hhi, -⟩ := getMetricVal_some hget
  rw [Watermark.numMetrics, hw.empty hzero, List.length_nil] at hhi
  omega

theorem History.step {env : Env} (hw : cfg.watermark.Laid) (h : History cfg s)
    (hs : TreeStep cfg env s s') : History cfg s' := by
  cases hs with
  | same htree hlog =>
    have hinsts : ∀ n, instancesOf s' n = instancesOf s n := fun n => by
      simp only [instancesOf, hlog]
    refine ⟨htree ▸ h.linked, ?_, hlog ▸ h.stop, ?_⟩
    · rw [htree, hlog]
      exact h.known
    · intro n hn
      rw [htree] at hn ⊢
      rw [hinsts n]
      exact h.metrics n hn
  | build _ htree hlog =>
    have hinsts : ∀ n, instancesOf s' n = instancesOf s n := fun n => by
      simp only [instancesOf, hlog]
    have hext := htree ▸ constructContext_extends h.linked _ _ _ _ _
    refine ⟨hext.linked, ?_, hlog ▸ h.stop, ?_⟩
    · intro inst hinst
      exact (h.known inst (hlog ▸ hinst)).trans_le hext.count
    · intro n hn
      rw [hinsts n]
      exact h.extend hext hn
  | record pc methodId version inst _ hstop hctxt hm htree hlog =>
    have hext := constructContext_extends h.linked env.trace pc methodId version
      inst.frame
    have hlt : inst.ctxt < (constructContext s.contextTree env.trace pc methodId version
        inst.frame).1.idCounter := by
      rw [hctxt]
      exact addPath_lt _ h.linked h.linked.root
    generalize constructContext s.contextTree env.trace pc methodId version
      inst.frame = r at hm htree hext hlt
    refine ⟨htree ▸ hext.linked.setMetrics _ _, ?_, ?_, ?_⟩
    · intro x hx
      rw [hlog] at hx
      rw [htree]
      obtain rfl | hx := List.mem_cons.mp hx
      · exact hlt
      · exact (h.known x hx).trans_le hext.count
    · rw [hlog]
      exact List.forall_mem_cons.mpr ⟨hstop, h.stop⟩
    · intro n hn
      rw [htree] at hn ⊢
      have hbefore := h.extend hext (show n < r.1.idCounter from hn)
      rw [instancesOf_cons hlog]
      by_cases hn' : n = inst.ctxt
      · subst hn'
        rw [Instance.update, ← recordMetricsWith_exact] at hm
        have hcur := recordMetrics_cur hw hm
        simp only [ContextTree.setMetrics, Function.update_self, if_true]
        exact ⟨by simp, hcur, hbefore.getD.record hw hcur hm⟩
      · simp only [ContextTree.setMetrics, Function.update_of_ne hn', if_neg (Ne.symm hn'),
          List.append_nil]
        exact hbefore

theorem history_init : History cfg Thread.init := by
  refine ⟨ContextTree.linked_new, ?_, ?_, fun n _ => rfl⟩
  all_goals simp [Thread.init, recordedInstances]

theorem history_run (hw : cfg.watermark.Laid) {events : List Event}
    (hrun : run (step cfg) events Thread.init = .ok s) : History cfg s := by
  refine run_keeps ?_ history_init hrun
  intro ev s s' h hs
  exact h.step hw (step_treeStep hs)

theorem History.values_eq (h : History cfg s) {ctxt i : ℕ}
    (hcounts : ∀ inst ∈ recordedInstances s.log,
      (inst.start i).toNat + (inst.newValue i).toNat < 2 ^ 64) :
    values i (instancesOf s ctxt) =
      (instancesOf s ctxt).map fun x => ((x.stop i).toNat : ℚ) - (x.start i).toNat := by
  refine List.map_congr_left fun x hx => ?_
  have hmem : x ∈ recordedInstances s.log := (List.mem_filter.mp (List.mem_reverse.mp hx)).1
  have hsum : (x.stop i).toNat = (x.start i).toNat + (x.newValue i).toNat := by
    rw [h.stop x hmem]
    exact toNat_add_of_lt (hcounts x hmem)
  rw [hsum]
  push_cast
  ring

end Run

/-- The metrics of a context after any run, as a function of its recorded instances. -/
theorem metrics_of_instances (cfg : Config) (clientName : Text) (eventNames : List Text)
    (hw : setupWatermarks clientName eventNames {} = some cfg.watermark)
    (events : List Event) (s : Thread) (hrun : run (step cfg) events Thread.init = .ok s)
    (hcounts : ∀ inst ∈ recordedInstances s.log, ∀ i, 1 ≤ i → i < cfg.watermark.curWatermarkId →
      (inst.start i).toNat + (inst.newValue i).toNat < 2 ^ 64)
    (ctxt : ℕ) (hctxt : ctxt < s.contextTree.idCounter) (m : ContextMetrics)
    (hm : (s.contextTree.contextMap ctxt).metrics = some m) :
    let insts := instancesOf s ctxt
    let val := fun metricId : ℤ => slots m metricId.toNat
    insts ≠ [] ∧ (val cfg.watermark.sampleCntMetricId).i = insts.length ∧
      ∀ i, 1 ≤ i → i < cfg.watermark.curWatermarkId →
        let counts := insts.map fun x => ((x.stop i).toNat : ℚ) - (x.start i).toNat
        (val (cfg.watermark.startMetricId i)).str =
            insts.flatMap (fun x => toDecimal (x.start i) ++ [' ']) ∧
          (val (cfg.watermark.endMetricId i)).str =
            insts.flatMap (fun x => toDecimal (x.stop i) ++ [' ']) ∧
          (val (cfg.watermark.meanMetricId i)).r = mean counts ∧
          (val (cfg.watermark.m2MetricId i)).r = sqDev counts ∧
          (val (cfg.watermark.varianceMetricId i)).r = variance counts := by
  intro insts val
  have hlaid := laid_setupWatermarks laid_new hw
  have hhist := history_run hlaid hrun
  have hsummary := hhist.metrics ctxt hctxt
  rw [hm] at hsummary
  obtain ⟨hne, hcur, hsummary⟩ := hsummary
  refine ⟨hne, ?_, ?_⟩
  · simp only [val, hlaid.sampleCnt hcur]
    exact hsummary.count
  · intro i h1 hi counts
    have hevent := hsummary.event i h1 hi
    have hvalues : values i insts = counts := hhist.values_eq fun inst hinst =>
      hcounts inst hinst i h1 hi
    have hwelford := hevent.welford
    rw [hvalues] at hwelford
    simp only [welfordAt, Welford.mk.injEq] at hwelford
    obtain ⟨hmean, hvariance, hm2⟩ := hwelford
    simp only [val, hlaid.start i h1 hi, hlaid.stop i h1 hi, hlaid.mean i h1 hi,
      hlaid.variance i h1 hi, hlaid.m2 i h1 hi]
    refine ⟨?_, ?_, ?_, ?_, ?_⟩
    · rw [show ((6 : ℤ) * i - 5).toNat = 6 * i - 5 by omega, hevent.start]
    · rw [show ((6 : ℤ) * i - 4).toNat = 6 * i - 4 by omega, hevent.stop]
    · rw [show ((6 : ℤ) * i - 3).toNat = 6 * i - 3 by omega, hmean]
    · rw [show ((6 : ℤ) * i - 1).toNat = 6 * i - 1 by omega, hm2]
    · rw [show ((6 : ℤ) * i - 2).toNat = 6 * i - 2 by omega, hvariance]

def callLeafTwice : Thread :=
  match run (step (oneEventConfig 8)) (callLeafRun ++ callLeafRun) Thread.init with
  | .ok s => s
  | .error _ => Thread.init

theorem metrics_of_instances_callLeafTwice :
    ∃ m, run (step (oneEventConfig 8)) (callLeafRun ++ callLeafRun) Thread.init = .ok callLeafTwice ∧
      (callLeafTwice.contextTree.contextMap 4).metrics = some m ∧
      (instancesOf callLeafTwice 4).map (Instance.interval 1) = [⟨10, 30⟩, ⟨50, 70⟩] ∧
      (slots m 0).i = (instancesOf callLeafTwice 4).length ∧
      (slots m 3).r = mean ((instancesOf callLeafTwice 4).map fun x =>
        ((x.stop 1).toNat : ℚ) - (x.start 1).toNat) := by
  have hrun : run (step (oneEventConfig 8)) (callLeafRun ++ callLeafRun) Thread.init =
      .ok callLeafTwice := rfl
  have hcounts : ∀ inst ∈ recordedInstances callLeafTwice.log,
      (inst.start 1).toNat + (inst.newValue 1).toNat < 2 ^ 64 := by
    decide +kernel
  have hsome : (callLeafTwice.contextTree.contextMap 4).metrics.isSome := by decide +kernel
  have hm := (Option.some_get hsome).symm
  have hmain := metrics_of_instances (oneEventConfig 8) ['T'] [['c'], ['i']] rfl
    (callLeafRun ++ callLeafRun) callLeafTwice hrun
    (fun inst hinst i h1 hi => by
      obtain rfl : i = 1 := by
        have hi' : i < 2 := hi
        omega
      exact hcounts inst hinst)
    4 (by decide +kernel) _ hm
  exact ⟨_, hrun, hm, by decide +kernel, hmain.2.1, (hmain.2.2 1 le_rfl (by decide)).2.2.1⟩

end Trace4J.Profiler
