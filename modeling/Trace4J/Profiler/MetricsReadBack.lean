import Trace4J.Offline.Floats
import Trace4J.Profiler.TraceOutput

/-!
# The metrics of a context, written and read back

The metrics that double-precision updates leave in a context, the text that
`createXMLObj<ContextMetrics>` makes of them and the numbers that the script finds in it.
Counts, starts and ends are integers in the text; a mean has six digits there, so it comes
back if it has no more, and the total that is rebuilt from it is right if the mean is an
integer of six digits.
-/

namespace Trace4J.Profiler
open Library SignificantDigits RoundedMean
open Offline (metricKey loadMetrics Output outputContext TraceMetrics nearCall hwInstructions
  callKey pyInt pySplit pyRound formatDispersion)

/-! ## Recording -/

/-- The instances of one context, recorded one after the other. -/
def recordAll (w : Watermark) (cv : ℚ → ℚ → ℚ) (insts : List Instance) :
    Option (Option ContextMetrics) :=
  insts.foldlM (fun metrics inst =>
    (recordMetricsWith updateDouble w cv metrics inst.start inst.stop inst.newValue).map some) none

theorem stop_of_run {cfg : Config} {events : List Event} {s : Thread}
    (hrun : run (step cfg) events Thread.init = .ok s) :
    ∀ inst ∈ recordedInstances s.log, inst.stop = inst.start + inst.newValue := by
  refine run_keeps (P := fun s => ∀ inst ∈ recordedInstances s.log,
    inst.stop = inst.start + inst.newValue) ?_ (by simp [Thread.init, recordedInstances]) hrun
  intro ev s s' h hstep
  cases step_treeStep hstep with
  | same _ hlog =>
    rw [hlog]
    exact h
  | build _ _ hlog =>
    rw [hlog]
    exact h
  | record _ _ _ inst _ hstop _ _ _ hlog =>
    rw [hlog]
    exact List.forall_mem_cons.mpr ⟨hstop, h⟩

section Recording
variable {update : ℕ → ℕ → Welford → Welford} {w : Watermark} {cv : ℚ → ℚ → ℚ}
variable {insts : List Instance} {metrics : Option ContextMetrics} {m : ContextMetrics}

theorem recordAll_append {inst : Instance} :
    recordAll w cv (insts ++ [inst]) = (recordAll w cv insts).bind fun metrics =>
      (recordMetricsWith updateDouble w cv metrics inst.start inst.stop
        inst.newValue).map some := by
  rw [recordAll, List.foldlM_append]
  exact congrArg _ (funext fun metrics => bind_pure _)

theorem recordAll_recorded (hw : w.Laid) (h : recordAll w cv insts = some metrics) :
    RecordedAs updateDouble w.curWatermarkId insts (metrics.getD []) := by
  induction insts using List.reverseRecOn generalizing metrics with
  | nil =>
    cases h
    exact recordedAs_nil _ _
  | append_singleton insts inst ih =>
    rw [recordAll_append] at h
    obtain ⟨before, hbefore, h⟩ := Option.bind_eq_some_iff.mp h
    obtain ⟨m, hm, rfl⟩ := Option.map_eq_some_iff.mp h
    exact (ih hbefore).record hw (recordMetrics_cur hw hm) hm

theorem recordAll_printed (hw : w.Laid) (h : recordAll w cv insts = some metrics) :
    (insts = [] ∧ metrics = none) ∨ insts ≠ [] ∧ ∃ m, metrics = some m ∧ w.numMetrics ≤ m.length ∧
      ∀ i, 1 ≤ i → i < w.curWatermarkId → EventPrinted i m := by
  induction insts using List.reverseRecOn with
  | nil =>
    cases h
    exact .inl ⟨rfl, rfl⟩
  | append_singleton insts inst _ =>
    rw [recordAll_append] at h
    obtain ⟨before, -, h⟩ := Option.bind_eq_some_iff.mp h
    obtain ⟨m, hm, rfl⟩ := Option.map_eq_some_iff.mp h
    exact .inr ⟨by simp, m, rfl, recordMetrics_printed hw hm⟩

/-! ## Nothing is missing -/

theorem getMetricVal_total {n : ℕ} {k : ℤ} (h0 : 0 ≤ k) (hk : k < n) (m : ContextMetrics) :
    ∃ x, getMetricVal n m k = some x := by
  rw [getMetricVal, if_neg (by omega)]
  exact ⟨_, rfl⟩

theorem setMetricVal_total {n : ℕ} {k : ℤ} (h0 : 0 ≤ k) (hk : k < n) (m : ContextMetrics)
    (v : MetricVal) : ∃ m', setMetricVal n m k v = some m' := by
  obtain ⟨x, hx⟩ := getMetricVal_total h0 hk m
  exact ⟨_, by rw [setMetricVal, hx, Option.map_some]⟩

theorem increment_total {n : ℕ} {k : ℤ} (h0 : 0 ≤ k) (hk : k < n) (m : ContextMetrics)
    (v : MetricVal) : ∃ m', increment n m k v = some m' := by
  obtain ⟨x, hx⟩ := getMetricVal_total h0 hk m
  exact ⟨_, by rw [increment, hx, Option.map_some]⟩

theorem recordEvent_total (update : ℕ → ℕ → Welford → Welford) (cv : ℚ → ℚ → ℚ) (hw : w.Laid)
    {i : ℕ} (h1 : 1 ≤ i) (hi : i < w.curWatermarkId)
    (sampleCnt : ℕ) (start stop newValue : Row) (m : ContextMetrics) :
    ∃ m', recordEventWith update w cv sampleCnt start stop newValue m i = some m' := by
  have hnum := hw.numMetrics (by omega)
  have hget : ∀ k : ℤ, 0 ≤ k → k ≤ 6 * i → ∀ m, ∃ x, getMetricVal w.numMetrics m k = some x :=
    fun k h0 hk m => getMetricVal_total h0 (by omega) m
  have hset : ∀ k : ℤ, 0 ≤ k → k ≤ 6 * i → ∀ m v,
      ∃ m', setMetricVal w.numMetrics m k v = some m' :=
    fun k h0 hk m v => setMetricVal_total h0 (by omega) m v
  simp only [recordEventWith, hw.start i h1 hi, hw.stop i h1 hi, hw.mean i h1 hi,
    hw.variance i h1 hi, hw.m2 i h1 hi, hw.cv i h1 hi]
  obtain ⟨⟨m₁, v₁⟩, h₁⟩ := hget (6 * i - 3) (by omega) (by omega) m
  obtain ⟨⟨m₂, v₂⟩, h₂⟩ := hget (6 * i - 2) (by omega) (by omega) m₁
  obtain ⟨⟨m₃, v₃⟩, h₃⟩ := hget (6 * i - 1) (by omega) (by omega) m₂
  obtain ⟨⟨m₄, v₄⟩, h₄⟩ := hget (6 * i - 5) (by omega) (by omega) m₃
  obtain ⟨⟨m₅, v₅⟩, h₅⟩ := hget (6 * i - 4) (by omega) (by omega) m₄
  simp only [h₁, h₂, h₃, h₄, h₅, Option.bind_eq_bind, Option.bind_some]
  obtain ⟨m₆, h₆⟩ := hset (6 * i - 5) (by omega) (by omega) m₅
    { str := v₄.str ++ toDecimal (start i) ++ [' '] }
  obtain ⟨m₇, h₇⟩ := hset (6 * i - 4) (by omega) (by omega) m₆
    { str := v₅.str ++ toDecimal (stop i) ++ [' '] }
  simp only [h₆, h₇, Option.bind_some]
  obtain ⟨m₈, h₈⟩ := hset (6 * i - 3) (by omega) (by omega) m₇ _
  rw [h₈, Option.bind_some]
  obtain ⟨m₉, h₉⟩ := hset (6 * i - 2) (by omega) (by omega) m₈ _
  rw [h₉, Option.bind_some]
  obtain ⟨m₁₀, h₁₀⟩ := hset (6 * i - 1) (by omega) (by omega) m₉ _
  rw [h₁₀, Option.bind_some]
  exact hset (6 * i) (by omega) (by omega) m₁₀ _

theorem foldlM_total (update : ℕ → ℕ → Welford → Welford) (cv : ℚ → ℚ → ℚ) (hw : w.Laid)
    (sampleCnt : ℕ) (start stop newValue : Row) (l : List ℕ)
    (hl : ∀ i ∈ l, 1 ≤ i ∧ i < w.curWatermarkId) (m : ContextMetrics) :
    ∃ m', l.foldlM (recordEventWith update w cv sampleCnt start stop newValue) m = some m' := by
  induction l generalizing m with
  | nil => exact ⟨m, rfl⟩
  | cons i l ih =>
    obtain ⟨⟨h1, hi⟩, hl⟩ := List.forall_mem_cons.mp hl
    obtain ⟨m₁, h₁⟩ := recordEvent_total update cv hw h1 hi sampleCnt start stop newValue m
    obtain ⟨m', h'⟩ := ih hl m₁
    refine ⟨m', ?_⟩
    rw [List.foldlM_cons, h₁]
    exact h'

theorem recordMetrics_total (update : ℕ → ℕ → Welford → Welford) (cv : ℚ → ℚ → ℚ) (hw : w.Laid)
    (hcur : w.curWatermarkId ≠ 0) (metrics : Option ContextMetrics) (start stop newValue : Row) :
    ∃ m, recordMetricsWith update w cv metrics start stop newValue = some m := by
  have hnum := hw.numMetrics hcur
  have hcnt := hw.sampleCnt hcur
  obtain ⟨m₁, h₁⟩ := increment_total (n := w.numMetrics) (k := w.sampleCntMetricId) (by omega)
    (by omega) (metrics.getD []) { i := 1 }
  obtain ⟨⟨m₂, cnt⟩, h₂⟩ := getMetricVal_total (n := w.numMetrics) (k := w.sampleCntMetricId)
    (by omega) (by omega) m₁
  obtain ⟨m', h'⟩ := foldlM_total update cv hw cnt.i.toNat start stop newValue
    (List.range' 1 (w.curWatermarkId - 1)) (fun i => mem_events.mp) m₂
  refine ⟨m', ?_⟩
  simp only [recordMetricsWith, h₁, h₂, Option.bind_eq_bind, Option.bind_some]
  exact h'

theorem recordAll_total (cv : ℚ → ℚ → ℚ) (hw : w.Laid) (hcur : w.curWatermarkId ≠ 0)
    (insts : List Instance) :
    ∃ metrics, recordAll w cv insts = some metrics := by
  induction insts using List.reverseRecOn with
  | nil => exact ⟨none, rfl⟩
  | append_singleton insts inst ih =>
    obtain ⟨metrics, hmetrics⟩ := ih
    obtain ⟨m, hm⟩ := recordMetrics_total updateDouble cv hw hcur metrics
      inst.start inst.stop inst.newValue
    exact ⟨some m, by rw [recordAll_append, hmetrics, Option.bind_some, hm, Option.map_some]⟩

end Recording

/-! ## The rows of a context -/

/-- Every row counts the rows and carries the sum of their lengths. -/
def RowsAgree (rows : List (Offline.Trace TraceMetrics)) : Prop :=
  ∀ row ∈ rows, pyInt row.metricsDict.methodInstanceCount = some (rows.length : ℤ) ∧
    row.metricsDict.instructionsTotal = (rows.map fun r => r.stop - r.start).sum

def lengths (i : ℕ) (insts : List Instance) : List ℤ :=
  insts.map fun x => ((x.stop i).toNat : ℤ) - (x.start i).toNat

/-- The mean length is an integer of at most six significant digits. -/
def SixDigitMean (i : ℕ) (insts : List Instance) : Prop :=
  ∃ q : ℤ, Representable 10 6 (q : ℚ) ∧ (lengths i insts).sum = insts.length * q

def writtenContext (w : Watermark) (t : ContextTree) (n : ℕ) : Offline.Context :=
  Offline.Context.ofXml (contextXml doubleText w.metricInfoList t n)

def rowsWith (i : ℕ) (key : Text) (mean : ℤ) (dispersion : Text) (insts : List Instance) :
    List (Offline.Trace TraceMetrics) :=
  insts.map fun x => ⟨(x.start i).toNat, (x.stop i).toNat,
    ⟨insts.length * mean, Nat.toDigits 10 insts.length, mean, dispersion⟩, key⟩

section Rows
variable {w : Watermark} {cv : ℚ → ℚ → ℚ} {clientName : Text} {pre post : List Text}
variable {insts : List Instance} {t : ContextTree} {n i : ℕ} {key dispersion : Text} {mean : ℤ}

theorem counts_lt (i : ℕ) (insts : List Instance) : ∀ x ∈ counts i insts, x < 2 ^ 64 := by
  intro x hx
  obtain ⟨inst, -, rfl⟩ := List.mem_map.mp hx
  exact (inst.newValue i).toNat_lt

theorem mean_of_recorded {m : ContextMetrics} {i : ℕ} (h : EventRun updateDouble i insts m) :
    (slots m (6 * i - 3)).r = runningMean double (counts i insts) := by
  rw [← runWelford_mean, ← h.welford]
  rfl

theorem outputContext_written (getSrcPosition : Offline.Context → Text)
    (hlast : hwInstructions ∉ post)
    (hw : setupWatermarks clientName (nearCall :: (pre ++ hwInstructions :: post)) {} = some w)
    (hm : recordAll w cv insts = some (t.contextMap n).metrics) (path : List Offline.Context)
    (out : Output) :
    ∃ mean dispersion out',
      pyRound (doubleText (runningMean double (counts (pre.length + 1) insts))) = some mean ∧
      outputContext getSrcPosition pyRound formatDispersion path (writtenContext w t n) out =
        some out' ∧
      out'.traceList = out.traceList ++
        rowsWith (pre.length + 1) (callKey getSrcPosition path) mean dispersion insts := by
  have hlaid := laid_setupWatermarks laid_new hw
  obtain ⟨hcur, hinfos⟩ := setupWatermarks_cons hw
  rw [List.length_append, List.length_cons] at hcur
  have hread := Offline.pyRound_doubleText
    (runningMean_bounds (counts_lt (pre.length + 1) insts)).1
  obtain ⟨rfl, hnone⟩ | ⟨hne, m, hsome, hlen, hprinted⟩ := recordAll_printed hlaid hm
  · refine ⟨_, [], out, hread, ?_, by simp [rowsWith]⟩
    have hempty : (writtenContext w t n).metricsDict = ∅ := by
      simp [writtenContext, Offline.Context.ofXml, contextXml, hnone, loadMetrics]
    rw [outputContext, if_pos hempty]
  · have hrecorded := recordAll_recorded hlaid hm
    rw [hsome, Option.getD_some] at hrecorded
    have hevent := hrecorded.event (pre.length + 1) (by omega) (by omega)
    have hdict : (writtenContext w t n).metricsDict =
        loadMetrics (metricsXml doubleText w.metricInfoList m) ∅ := by
      simp [writtenContext, Offline.Context.ofXml, contextXml, hsome]
    have hreads : ReadsMetrics doubleText (pre.length + 1) insts m
        (writtenContext w t n).metricsDict := by
      rw [hdict]
      exact readsMetrics_loadMetrics hinfos hlast hlen (hprinted _ (by omega) (by omega)) hne
        hrecorded.count hevent.start hevent.stop
    obtain ⟨dispersion, hdispersion⟩ := Option.isSome_iff_exists.mp
      (Offline.isSome_formatDispersion_doubleText (slots m (6 * (pre.length + 1))).r)
    rw [← mean_of_recorded hevent] at hread ⊢
    exact ⟨_, dispersion, _, hread,
      outputContext_eq hreads (hreads.traceMetrics hread hdispersion) path out, rfl⟩

theorem rowsAgree_rowsWith (hne : insts ≠ []) :
    RowsAgree (rowsWith i key mean dispersion insts) ↔
      (insts.length : ℤ) * mean = (lengths i insts).sum := by
  have hlengths : ((rowsWith i key mean dispersion insts).map fun r => r.stop - r.start) =
      lengths i insts := by
    rw [rowsWith, List.map_map]
    rfl
  rw [RowsAgree, hlengths]
  constructor
  · intro h
    obtain ⟨x, hx⟩ := List.exists_mem_of_ne_nil _ hne
    exact (h _ (List.mem_map_of_mem hx)).2
  · intro h row hrow
    obtain ⟨x, -, rfl⟩ := List.mem_map.mp hrow
    refine ⟨?_, h⟩
    rw [Offline.pyInt_toDigits, rowsWith, List.length_map]

theorem sixDigitMean_of_total
    (hmean : pyRound (doubleText (runningMean double (counts i insts))) = some mean)
    (h : (insts.length : ℤ) * mean = (lengths i insts).sum) : SixDigitMean i insts := by
  obtain ⟨hlow, hhigh⟩ := runningMean_bounds (counts_lt i insts)
  exact ⟨mean, Offline.representable_of_pyRound hlow hhigh hmean, h.symm⟩

/-- No counter wraps around, so an instance is as long as its count. -/
theorem sum_lengths (hstop : ∀ x ∈ insts, x.stop = x.start + x.newValue)
    (hle : ∀ x ∈ insts, x.start i ≤ x.stop i) :
    (lengths i insts).sum = ((counts i insts).sum : ℕ) := by
  induction insts with
  | nil => rfl
  | cons x insts ih =>
    obtain ⟨hx, hstop⟩ := List.forall_mem_cons.mp hstop
    obtain ⟨hxle, hle⟩ := List.forall_mem_cons.mp hle
    have hone : ((x.stop i).toNat : ℤ) - (x.start i).toNat = (x.newValue i).toNat := by
      rw [hx, Pi.add_apply, UInt64.le_iff_toNat_le, UInt64.toNat_add] at hxle
      rw [hx, Pi.add_apply, UInt64.toNat_add]
      have hlt := (x.start i).toNat_lt
      have hlt' := (x.newValue i).toNat_lt
      omega
    have hrest := ih hstop hle
    simp only [lengths, counts, List.map_cons, List.sum_cons] at hrest ⊢
    rw [hone, hrest]
    push_cast
    rfl

theorem total_of_sixDigitMean (hstop : ∀ x ∈ insts, x.stop = x.start + x.newValue)
    (hle : ∀ x ∈ insts, x.start i ≤ x.stop i) (hlen : insts.length ≤ 2 ^ 30) (hne : insts ≠ [])
    (hmean : pyRound (doubleText (runningMean double (counts i insts))) = some mean)
    (h : SixDigitMean i insts) : (insts.length : ℤ) * mean = (lengths i insts).sum := by
  obtain ⟨q, hrep, hsum⟩ := h
  have hcounts : (counts i insts).length = insts.length := List.length_map _
  have hpos : 0 < insts.length := List.length_pos_of_ne_nil hne
  rw [hsum]
  rw [sum_lengths hstop hle] at hsum
  have hq : 0 ≤ q := by
    apply nonneg_of_mul_nonneg_right _ (Int.natCast_pos.mpr hpos)
    rw [← hsum]
    exact Int.natCast_nonneg _
  obtain ⟨k, rfl⟩ := Int.eq_ofNat_of_zero_le hq
  have hnat : (counts i insts).sum = insts.length * k := by exact_mod_cast hsum
  have hk : k ≤ 2 ^ 64 := by
    have hle := List.sum_le_card_nsmul (counts i insts) (2 ^ 64) fun x hx =>
      (counts_lt i insts x hx).le
    rw [hnat, hcounts, nsmul_eq_mul, Nat.cast_id] at hle
    exact Nat.le_of_mul_le_mul_left hle hpos
  have hnear : |runningMean double (counts i insts) - k| ≤ 1 / 2 ^ 21 * k := by
    apply runningMean_near
    · rw [hcounts]
      exact hlen
    · rw [hcounts]
      exact_mod_cast hnat
    · rw [← List.length_pos_iff, hcounts]
      exact hpos
  have hround : roundTo 10 6 (runningMean double (counts i insts)) = k := by
    obtain rfl | hkpos := Nat.eq_zero_or_pos k
    · rw [Nat.cast_zero, mul_zero, sub_zero] at hnear
      rw [abs_nonpos_iff.mp hnear, Nat.cast_zero]
      exact roundTo_of_representable (by decide) (by exact_mod_cast hrep)
    · refine roundTo_of_near (by decide) (by exact_mod_cast hkpos) (by exact_mod_cast hrep)
        (by norm_num) (by norm_num) hnear
  have hread := Offline.pyRound_eq_of_roundTo
    (runningMean_bounds (counts_lt i insts)).1 hk (by exact_mod_cast hrep) hround
  rw [Option.some.inj (hmean.symm.trans hread)]

end Rows

/-- For every context and all its instances: one row for each of them. The rows agree only
if the mean length has six digits, and up to `2 ^ 30` instances whose counters do not wrap
around they do agree then. -/
theorem rowsAgree_iff (w : Watermark) (clientName : Text) (pre post : List Text)
    (hlast : hwInstructions ∉ post)
    (hw : setupWatermarks clientName (nearCall :: (pre ++ hwInstructions :: post)) {} = some w)
    (cv : ℚ → ℚ → ℚ) (insts : List Instance) (hstop : ∀ x ∈ insts, x.stop = x.start + x.newValue)
    (t : ContextTree) (n : ℕ) (hm : recordAll w cv insts = some (t.contextMap n).metrics)
    (getSrcPosition : Offline.Context → Text) (path : List Offline.Context) (out : Output) :
    let i := pre.length + 1
    ∃ out' rows,
      outputContext getSrcPosition pyRound formatDispersion path (writtenContext w t n) out =
        some out' ∧
      out'.traceList = out.traceList ++ rows ∧
      rows.map Offline.Trace.row = insts.map (Instance.row i (callKey getSrcPosition path)) ∧
      (RowsAgree rows → SixDigitMean i insts) ∧
      (insts.length ≤ 2 ^ 30 → (∀ x ∈ insts, x.start i ≤ x.stop i) → SixDigitMean i insts →
        RowsAgree rows) := by
  intro i
  obtain ⟨mean, dispersion, out', hmean, hout, hrows⟩ :=
    outputContext_written getSrcPosition hlast hw hm path out
  refine ⟨out', _, hout, hrows, ?_, ?_, ?_⟩
  · rw [rowsWith, List.map_map]
    rfl
  · intro h
    by_cases hne : insts = []
    · exact ⟨0, ⟨0, 0, by simp⟩, by simp [hne, lengths]⟩
    · exact sixDigitMean_of_total hmean ((rowsAgree_rowsWith hne).mp h)
  · intro hlen hle h
    by_cases hne : insts = []
    · simp [hne, rowsWith, RowsAgree]
    · exact (rowsAgree_rowsWith hne).mpr (total_of_sixDigitMean hstop hle hlen hne hmean h)

def lasting (start count : UInt64) : Instance where
  depth := 0
  start := fun _ => start
  stop := fun _ => start + count
  newValue := fun _ => count
  ctxt := 0
  sd := ⟨0, 8, .write, 8, ⟨0, 0, 0, 0⟩⟩
  frame := ⟨0, 0, 0, 0⟩

theorem recordAll_twoEvents (cv : ℚ → ℚ → ℚ) {insts : List Instance} (hne : insts ≠ []) :
    ∃ w m, setupWatermarks ['T'] [nearCall, hwInstructions] {} = some w ∧
      recordAll w cv insts = some (some m) := by
  obtain ⟨w, hw⟩ : ∃ w, setupWatermarks ['T'] [nearCall, hwInstructions] {} = some w := ⟨_, rfl⟩
  have hlaid := laid_setupWatermarks laid_new hw
  have hcur : w.curWatermarkId = 2 := (setupWatermarks_cons hw).1
  obtain ⟨metrics, hm⟩ := recordAll_total cv hlaid (by omega) insts
  obtain ⟨hnil, -⟩ | ⟨-, m, rfl, -⟩ := recordAll_printed hlaid hm
  · exact absurd hnil hne
  · exact ⟨w, m, hw, hm⟩

theorem rowsAgree_twoAndFour : ∃ w m out,
    recordAll w (fun _ _ => 0) [lasting 0 2, lasting 2 4] = some (some m) ∧
      outputContext (fun c => c.methodId) pyRound formatDispersion []
        (writtenContext w (ContextTree.new.setMetrics 0 m) 0) {} = some out ∧
      RowsAgree out.traceList := by
  obtain ⟨w, m, hw, hm⟩ := recordAll_twoEvents (fun _ _ => 0)
    (List.cons_ne_nil (lasting 0 2) [lasting 2 4])
  obtain ⟨out, rows, hout, hlist, -, -, hagree⟩ := rowsAgree_iff w ['T'] [] [] (by simp) hw
    (fun _ _ => 0) [lasting 0 2, lasting 2 4]
    (List.forall_mem_cons.mpr ⟨rfl, List.forall_mem_cons.mpr ⟨rfl, by simp⟩⟩)
    (ContextTree.new.setMetrics 0 m) 0 hm (fun c => c.methodId) [] {}
  refine ⟨w, m, out, hm, hout, ?_⟩
  have hsix : SixDigitMean 1 [lasting 0 2, lasting 2 4] :=
    ⟨3, by exact_mod_cast Offline.representable_natCast (n := 3) (by norm_num), rfl⟩
  rw [hlist]
  exact hagree (by norm_num) (by simp [lasting]) hsix

/-- A mean of 1.5 instructions is rounded to 2. -/
theorem not_rowsAgree_oneAndTwo : ∃ w m out,
    recordAll w (fun _ _ => 0) [lasting 0 1, lasting 1 2] = some (some m) ∧
      outputContext (fun c => c.methodId) pyRound formatDispersion []
        (writtenContext w (ContextTree.new.setMetrics 0 m) 0) {} = some out ∧
      ¬RowsAgree out.traceList := by
  obtain ⟨w, m, hw, hm⟩ := recordAll_twoEvents (fun _ _ => 0)
    (List.cons_ne_nil (lasting 0 1) [lasting 1 2])
  have hw' : setupWatermarks ['T'] (nearCall :: ([] ++ hwInstructions :: [])) {} = some w := hw
  obtain ⟨mean, dispersion, out, hmean, hout, hlist⟩ := outputContext_written (fun c => c.methodId)
    (by simp) hw' (t := ContextTree.new.setMetrics 0 m) (n := 0) hm [] {}
  refine ⟨w, m, out, hm, hout, fun h => ?_⟩
  rw [hlist] at h
  obtain ⟨q, -, hq⟩ := sixDigitMean_of_total hmean ((rowsAgree_rowsWith (by simp)).mp h)
  have hthree : (lengths 1 [lasting 0 1, lasting 1 2]).sum = 3 := rfl
  rw [List.length_nil, hthree] at hq
  simp only [List.length_cons, List.length_nil] at hq
  omega

/-! ## All metrics of a state -/

def readNumbers (d : Offline.MetricsDict) (key : Text) : Option (List ℤ) :=
  (d.lookup key).bind fun text => (pySplit text).mapM pyInt

structure EventRecovered (w : Watermark) (name : Text) (i : ℕ) (insts : List Instance)
    (m : ContextMetrics) (d : Offline.MetricsDict) : Prop where
  starts : readNumbers d (metricKey name startMeasure) =
    some (insts.map fun x => ((x.start i).toNat : ℤ))
  stops : readNumbers d (metricKey name endMeasure) =
    some (insts.map fun x => ((x.stop i).toNat : ℤ))
  mean : ∀ k : ℕ, k < 2 ^ 53 → (slots m (w.meanMetricId i).toNat).r = k →
    (d.lookup (metricKey name meanMeasure)).bind pyRound = some (k : ℤ)

/-- Event 0 has the count, every other one its starts, its ends and its mean. -/
structure Recovered (w : Watermark) (eventNames : List Text) (insts : List Instance)
    (m : ContextMetrics) (d : Offline.MetricsDict) : Prop where
  count : ∀ name, eventNames[0]? = some name →
    (d.lookup (metricKey name countMeasure)).bind pyInt = some (slots m w.sampleCntMetricId.toNat).i
  event : ∀ i name, 1 ≤ i → eventNames[i]? = some name → EventRecovered w name i insts m d

def SixDigitMeans (w : Watermark) (eventNames : List Text) (m : ContextMetrics) : Prop :=
  ∀ i, 1 ≤ i → i < eventNames.length → ∀ k : ℕ, k < 2 ^ 53 →
    (slots m (w.meanMetricId i).toNat).r = k → Representable 10 6 (k : ℚ)

def NamesakesAgree (eventNames : List Text) (insts : List Instance) : Prop :=
  ∀ i j name, 1 ≤ i → 1 ≤ j → eventNames[i]? = some name → eventNames[j]? = some name →
    ∀ x ∈ insts, x.start i = x.start j ∧ x.stop i = x.stop j

section Recovered
variable {w : Watermark} {cv : ℚ → ℚ → ℚ} {clientName first name : Text}
variable {names pre post : List Text} {insts : List Instance} {m : ContextMetrics}
variable {d : Offline.MetricsDict} {key : Text} {i : ℕ}

theorem exists_last_of_mem {α : Type*} {a : α} {l : List α} (h : a ∈ l) :
    ∃ front back, l = front ++ a :: back ∧ a ∉ back := by
  obtain ⟨front, back, hsplit, hfront⟩ := List.eq_append_cons_of_mem (List.mem_reverse.mpr h)
  refine ⟨back.reverse, front.reverse, ?_, by simpa using hfront⟩
  rw [← List.reverse_reverse l, hsplit]
  simp

theorem readNumbers_decimals (f : Instance → UInt64)
    (h : d.lookup key = some (insts.flatMap fun x => toDecimal (f x) ++ [' '])) :
    readNumbers d key = some (insts.map fun x => ((f x).toNat : ℤ)) := by
  rw [readNumbers, h, Option.bind_some, pySplit_decimals]
  clear h
  induction insts with
  | nil => rfl
  | cons x insts ih =>
    rw [List.map_cons, List.mapM_cons, Offline.pyInt_toDigits, ih]
    rfl

theorem numbers_eq_iff (f g : Instance → UInt64) :
    (insts.map fun x => ((f x).toNat : ℤ)) = (insts.map fun x => ((g x).toNat : ℤ)) ↔
      ∀ x ∈ insts, f x = g x := by
  rw [List.map_inj_left]
  refine forall₂_congr fun x _ => ?_
  rw [Nat.cast_inj, UInt64.toNat_inj]

section Names
variable (hw : setupWatermarks clientName (first :: names) {} = some w)
  (hm : recordAll w cv insts = some (some m))
include hw hm

theorem mean_of_state (h1 : 1 ≤ i) (hi : i ≤ names.length) :
    (slots m (w.meanMetricId i).toNat).r = runningMean double (counts i insts) := by
  have hlaid := laid_setupWatermarks laid_new hw
  have hcur := (setupWatermarks_cons hw).1
  have hevent := (recordAll_recorded hlaid hm).event i h1 (by omega)
  rw [hlaid.mean i h1 (by omega), show (6 * (i : ℤ) - 3).toNat = 6 * i - 3 by omega]
  exact mean_of_recorded hevent

theorem count_recovered :
    ((loadMetrics (metricsXml doubleText w.metricInfoList m) ∅).lookup
      (metricKey first countMeasure)).bind pyInt = some (slots m w.sampleCntMetricId.toNat).i := by
  have hlaid := laid_setupWatermarks laid_new hw
  obtain ⟨hcur, hinfos⟩ := setupWatermarks_cons hw
  obtain ⟨-, hnone⟩ | ⟨hne, m, hsome, hlen, -⟩ := recordAll_printed hlaid hm
  · cases hnone
  · obtain rfl := Option.some.inj hsome
    have hcount := (recordAll_recorded hlaid hm).count
    rw [Option.getD_some] at hcount
    rw [lookup_count hlen hinfos, metricText_count hne hcount, Option.bind_some,
      Offline.pyInt_toDigits, hlaid.sampleCnt (by omega), Int.toNat_zero, hcount]

/-- The dictionary holds the numbers of the last event of a name. -/
theorem reads_last (hnames : names = pre ++ name :: post) (hlast : name ∉ post) :
    let d := loadMetrics (metricsXml doubleText w.metricInfoList m) ∅
    let j := pre.length + 1
    readNumbers d (metricKey name startMeasure) =
        some (insts.map fun x => ((x.start j).toNat : ℤ)) ∧
      readNumbers d (metricKey name endMeasure) =
        some (insts.map fun x => ((x.stop j).toNat : ℤ)) ∧
      d.lookup (metricKey name meanMeasure) =
        some (doubleText (runningMean double (counts j insts))) := by
  subst hnames
  intro d j
  have hlaid := laid_setupWatermarks laid_new hw
  obtain ⟨hcur, hinfos⟩ := setupWatermarks_cons hw
  rw [List.length_append, List.length_cons] at hcur
  obtain ⟨-, hnone⟩ | ⟨hne, m, hsome, hlen, hprinted⟩ := recordAll_printed hlaid hm
  · cases hnone
  · obtain rfl := Option.some.inj hsome
    have hj := hprinted j (by omega) (by omega)
    have hevent := (recordAll_recorded hlaid hm).event j (by omega) (by omega)
    refine ⟨?_, ?_, ?_⟩
    · exact readNumbers_decimals _ (lookup_start hinfos hlast hlen hj hne hevent.start)
    · exact readNumbers_decimals _ (lookup_stop hinfos hlast hlen hj hne hevent.stop)
    · rw [← mean_of_recorded hevent]
      exact lookup_mean hinfos hlast hlen hj

theorem eventRecovered_iff (hnames : names = pre ++ name :: post) (hlast : name ∉ post) (h1 : 1 ≤ i)
    (hi : i ≤ names.length) :
    EventRecovered w name i insts m (loadMetrics (metricsXml doubleText w.metricInfoList m) ∅) ↔
      (∀ x ∈ insts, x.start (pre.length + 1) = x.start i) ∧
        (∀ x ∈ insts, x.stop (pre.length + 1) = x.stop i) ∧
        ∀ k : ℕ, k < 2 ^ 53 → runningMean double (counts i insts) = k →
          pyRound (doubleText (runningMean double (counts (pre.length + 1) insts))) =
            some (k : ℤ) := by
  obtain ⟨hstart, hstop, hmean⟩ := reads_last hw hm hnames hlast
  have hstate := mean_of_state hw hm h1 hi
  constructor
  · intro h
    have hs := h.starts
    have ht := h.stops
    have hmeans := h.mean
    rw [hstart, Option.some.injEq, numbers_eq_iff] at hs
    rw [hstop, Option.some.injEq, numbers_eq_iff] at ht
    simp only [hstate, hmean, Option.bind_some] at hmeans
    exact ⟨hs, ht, hmeans⟩
  · intro ⟨hs, ht, hmeans⟩
    refine ⟨?_, ?_, ?_⟩
    · rw [hstart, Option.some.injEq, numbers_eq_iff]
      exact hs
    · rw [hstop, Option.some.injEq, numbers_eq_iff]
      exact ht
    · simp only [hstate, hmean, Option.bind_some]
      exact hmeans

end Names

theorem last_event (h1 : 1 ≤ i) (hname : (first :: names)[i]? = some name) :
    i ≤ names.length ∧ ∃ pre post, names = pre ++ name :: post ∧ name ∉ post ∧
      (first :: names)[pre.length + 1]? = some name := by
  obtain ⟨j, rfl⟩ := Nat.exists_eq_add_of_le' h1
  rw [List.getElem?_cons_succ] at hname
  obtain ⟨hlt, -⟩ := List.getElem?_eq_some_iff.mp hname
  obtain ⟨pre, post, rfl, hlast⟩ := exists_last_of_mem (List.mem_of_getElem? hname)
  exact ⟨hlt, pre, post, rfl, hlast, by simp⟩

theorem counts_congr {j : ℕ} (hadd : ∀ x ∈ insts, x.stop = x.start + x.newValue)
    (hstart : ∀ x ∈ insts, x.start j = x.start i) (hstop : ∀ x ∈ insts, x.stop j = x.stop i) :
    counts j insts = counts i insts := by
  refine List.map_congr_left fun x hx => ?_
  have hj := hstop x hx
  rw [hadd x hx, Pi.add_apply, Pi.add_apply, hstart x hx] at hj
  rw [add_left_cancel hj]

section Together
variable (hw : setupWatermarks clientName (first :: names) {} = some w)
  (hm : recordAll w cv insts = some (some m))
include hw hm

theorem sixDigitMeans_of_recovered
    (h : Recovered w (first :: names) insts m
      (loadMetrics (metricsXml doubleText w.metricInfoList m) ∅)) :
    SixDigitMeans w (first :: names) m := by
  intro i h1 hi k hk hmean
  have hname := List.getElem?_eq_getElem hi
  obtain ⟨hle, pre, post, hnames, hlast, -⟩ := last_event h1 hname
  have hread := ((eventRecovered_iff hw hm hnames hlast h1 hle).mp (h.event i _ h1 hname)).2.2
  rw [mean_of_state hw hm h1 hle] at hmean
  obtain ⟨hlow, hhigh⟩ := runningMean_bounds (counts_lt (pre.length + 1) insts)
  exact_mod_cast Offline.representable_of_pyRound hlow hhigh (hread k hk hmean)

theorem namesakesAgree_of_recovered
    (h : Recovered w (first :: names) insts m
      (loadMetrics (metricsXml doubleText w.metricInfoList m) ∅)) :
    NamesakesAgree (first :: names) insts := by
  intro i j name hi hj hnamei hnamej x hx
  obtain ⟨hlei, pre, post, hnames, hlast, -⟩ := last_event hi hnamei
  obtain ⟨hlej, -⟩ := last_event hj hnamej
  obtain ⟨hsi, hti, -⟩ :=
    (eventRecovered_iff hw hm hnames hlast hi hlei).mp (h.event i name hi hnamei)
  obtain ⟨hsj, htj, -⟩ :=
    (eventRecovered_iff hw hm hnames hlast hj hlej).mp (h.event j name hj hnamej)
  exact ⟨(hsi x hx).symm.trans (hsj x hx), (hti x hx).symm.trans (htj x hx)⟩

theorem recovered_of_sixDigitMeans (hstop : ∀ x ∈ insts, x.stop = x.start + x.newValue)
    (hsix : SixDigitMeans w (first :: names) m) (hsame : NamesakesAgree (first :: names) insts) :
    Recovered w (first :: names) insts m
      (loadMetrics (metricsXml doubleText w.metricInfoList m) ∅) := by
  refine ⟨?_, ?_⟩
  · intro name hname
    obtain rfl := Option.some.inj hname
    exact count_recovered hw hm
  · intro i name h1 hname
    obtain ⟨hle, pre, post, hnames, hlast, hnamej⟩ := last_event h1 hname
    have hagree := hsame (pre.length + 1) i name (Nat.succ_pos _) h1 hnamej hname
    have hs : ∀ x ∈ insts, x.start (pre.length + 1) = x.start i := fun x hx => (hagree x hx).1
    have ht : ∀ x ∈ insts, x.stop (pre.length + 1) = x.stop i := fun x hx => (hagree x hx).2
    refine (eventRecovered_iff hw hm hnames hlast h1 hle).mpr ⟨hs, ht, fun k hk hmean => ?_⟩
    have hrep := hsix i h1 (Nat.lt_succ_of_le hle) k hk
      ((mean_of_state hw hm h1 hle).trans hmean)
    rw [counts_congr hstop hs ht, hmean]
    exact (Offline.pyRound_natCast_iff (hk.le.trans (by norm_num))).mpr hrep

end Together
end Recovered

/-- For every state that recording reaches: the metrics come back exactly if events of one
name counted the same and every mean that is an integer below `2 ^ 53` has six digits. -/
theorem recovered_iff (w : Watermark) (clientName : Text) (eventNames : List Text)
    (hw : setupWatermarks clientName eventNames {} = some w) (cv : ℚ → ℚ → ℚ)
    (insts : List Instance) (hstop : ∀ x ∈ insts, x.stop = x.start + x.newValue)
    (m : ContextMetrics) (hm : recordAll w cv insts = some (some m)) :
    Recovered w eventNames insts m (loadMetrics (metricsXml doubleText w.metricInfoList m) ∅) ↔
      SixDigitMeans w eventNames m ∧ NamesakesAgree eventNames insts := by
  cases eventNames with
  | nil =>
    refine iff_of_true ⟨by simp, by simp⟩ ⟨?_, ?_⟩
    · intro i _ hi
      simp at hi
    · intro i j name _ _ hi
      simp at hi
  | cons first names =>
    constructor
    · intro h
      exact ⟨sixDigitMeans_of_recovered hw hm h, namesakesAgree_of_recovered hw hm h⟩
    · intro ⟨hsix, hsame⟩
      exact recovered_of_sixDigitMeans hw hm hstop hsix hsame

/-- The leaf of `callLeaf`, sampled when it runs `count` instructions. -/
def leafLasting (count : UInt64) : List Event :=
  [.sample (sampleAt (callLeafEnv 0x1000) 0), .trap (trapAt (callLeafEnv 0x1000) 10),
    .trap (trapAt (callLeafEnv 0x2000) (10 + count)),
    .trap (trapAt (callLeafEnv 0x1005) (20 + count))]

def leafTwice : Thread :=
  match run (step tracedConfig) (leafLasting 12345600 ++ leafLasting 12345800) Thread.init with
  | .ok s => s
  | .error _ => Thread.init

theorem leafTwice_run :
    run (step tracedConfig) (leafLasting 12345600 ++ leafLasting 12345800) Thread.init =
      .ok leafTwice :=
  rfl

theorem leafTwice_mean :
    runningMean double (counts 1 (instancesOf leafTwice 4)) = (12345700 : ℕ) := by
  have hcounts : counts 1 (instancesOf leafTwice 4) = [12345600, 12345800] := by decide +kernel
  have hfirst : runningMean double [12345600] = (12345600 : ℕ) := double_natCast (by decide)
  have hlast : double ((12345800 : ℕ) : ℚ) = (12345800 : ℕ) := double_natCast (by decide)
  have htwo : double ((2 : ℕ) : ℚ) = (2 : ℕ) := double_natCast (by decide)
  have hdiff : double ((12345800 : ℕ) - (12345600 : ℕ)) = (200 : ℕ) := by
    rw [show ((12345800 : ℕ) : ℚ) - (12345600 : ℕ) = (200 : ℕ) by norm_num]
    exact double_natCast (by decide)
  have hhalf : double ((200 : ℕ) / (2 : ℕ)) = (100 : ℕ) := by
    rw [show ((200 : ℕ) : ℚ) / (2 : ℕ) = (100 : ℕ) by norm_num]
    exact double_natCast (by decide)
  rw [hcounts, ← List.singleton_append, runningMean_append, hfirst, RoundedMean.step,
    if_neg (by decide), List.length_singleton, hlast, htwo, hdiff, hhalf, ← Nat.cast_add]
  exact double_natCast (by decide)

/-- The mean of the two runs, 12345700, is printed as `1.23457e+07`. -/
theorem recovered_leafTwice : ∃ w m,
    setupWatermarks ['T'] [nearCall, hwInstructions] {} = some w ∧
      run (step tracedConfig) (leafLasting 12345600 ++ leafLasting 12345800) Thread.init =
        .ok leafTwice ∧
      (instancesOf leafTwice 4).map (fun x => x.newValue 1) = [12345600, 12345800] ∧
      recordAll w (fun _ _ => 0) (instancesOf leafTwice 4) = some (some m) ∧
      Recovered w [nearCall, hwInstructions] (instancesOf leafTwice 4) m
        (loadMetrics (metricsXml doubleText w.metricInfoList m) ∅) := by
  obtain ⟨w, m, hw, hm⟩ := recordAll_twoEvents (fun _ _ => 0)
    (show instancesOf leafTwice 4 ≠ [] by decide +kernel)
  have hone : ∀ i, 1 ≤ i → i < [nearCall, hwInstructions].length → i = 1 := by
    intro i h1 hi
    have hlt : i < 2 := hi
    omega
  have hstop : ∀ x ∈ instancesOf leafTwice 4, x.stop = x.start + x.newValue := fun x hx =>
    stop_of_run leafTwice_run x (List.mem_filter.mp (List.mem_reverse.mp hx)).1
  refine ⟨w, m, hw, leafTwice_run, by decide +kernel, hm,
    (recovered_iff w _ _ hw _ _ hstop m hm).mpr ⟨?_, ?_⟩⟩
  · intro i h1 hi k _ hk
    obtain rfl := hone i h1 hi
    rw [mean_of_state hw hm le_rfl le_rfl, leafTwice_mean, Nat.cast_inj] at hk
    subst hk
    exact ⟨123457, 2, by norm_num, by norm_num⟩
  · intro i j name hi hj hnamei hnamej x _
    obtain ⟨hlti, -⟩ := List.getElem?_eq_some_iff.mp hnamei
    obtain ⟨hltj, -⟩ := List.getElem?_eq_some_iff.mp hnamej
    rw [hone i hi hlti, hone j hj hltj]
    exact ⟨rfl, rfl⟩

/-- 1234567 instructions are printed as `1.23457e+06`. -/
theorem not_recovered_sevenDigits : ∃ w m,
    setupWatermarks ['T'] [nearCall, hwInstructions] {} = some w ∧
      recordAll w (fun _ _ => 0) [lasting 0 1234567] = some (some m) ∧
      ¬Recovered w [nearCall, hwInstructions] [lasting 0 1234567] m
        (loadMetrics (metricsXml doubleText w.metricInfoList m) ∅) := by
  obtain ⟨w, m, hw, hm⟩ := recordAll_twoEvents (fun _ _ => 0)
    (List.cons_ne_nil (lasting 0 1234567) [])
  have hmean : runningMean double (counts 1 [lasting 0 1234567]) = ((1234567 : ℕ) : ℚ) :=
    double_natCast (by decide)
  refine ⟨w, m, hw, hm, fun h => ?_⟩
  have hsix := sixDigitMeans_of_recovered hw hm h 1 le_rfl (by decide) 1234567 (by norm_num)
    ((mean_of_state hw hm le_rfl le_rfl).trans hmean)
  obtain hlt | hdvd := lt_or_dvd_of_representable (by decide) hsix
  · exact absurd hlt (by decide)
  · exact absurd hdvd (by decide)

end Trace4J.Profiler
