import Mathlib.Data.UInt
import Mathlib.Data.Rat.Defs
import Mathlib.Tactic.Common

/-!
# Metrics of a calling context

`MetricInfoManager`, `ContextMetrics` and `SetupWatermarkMetric`, and the
update that each of the three recording paths makes for one function instance.
A `double` is an exact rational here; the coefficient of variation, the only
value that needs a square root, is computed by a supplied function.
-/

namespace Trace4J.Profiler

abbrev Text := List Char

abbrev Row := ℕ → UInt64

def maxEvents : ℕ := 5

def toDecimal (x : UInt64) : Text := Nat.toDigits 10 x.toNat

structure MetricInfo where
  clientName : Text
  eventName : Text
  eventMeasure : Text
deriving DecidableEq, Repr

structure MetricVal where
  i : ℤ := 0
  r : ℚ := 0
  str : Text := []
deriving DecidableEq

abbrev ContextMetrics := List MetricVal

/-- `getMetricVal` grows the value list up to the requested slot; the null
pointer it returns for an unregistered metric is `none`. -/
def getMetricVal (numMetrics : ℕ) (m : ContextMetrics) (metricIdx : ℤ) :
    Option (ContextMetrics × MetricVal) :=
  if metricIdx < 0 ∨ (numMetrics : ℤ) ≤ metricIdx then none
  else
    let k := metricIdx.toNat
    let m' := m ++ List.replicate (k + 1 - m.length) ({} : MetricVal)
    some (m', m'.getD k {})

def increment (numMetrics : ℕ) (m : ContextMetrics) (metricIdx : ℤ) (val : MetricVal) :
    Option ContextMetrics :=
  (getMetricVal numMetrics m metricIdx).map fun (m', old) =>
    m'.set metricIdx.toNat { old with i := old.i + val.i, r := old.r + val.r }

def setMetricVal (numMetrics : ℕ) (m : ContextMetrics) (metricIdx : ℤ) (val : MetricVal) :
    Option ContextMetrics :=
  (getMetricVal numMetrics m metricIdx).map fun (m', _) => m'.set metricIdx.toNat val

structure Watermark where
  curWatermarkId : ℕ := 0
  metricInfoList : List MetricInfo := []
  sampleCntMetricId : ℤ := -1
  startMetricId : ℕ → ℤ := fun _ => 0
  endMetricId : ℕ → ℤ := fun _ => 0
  meanMetricId : ℕ → ℤ := fun _ => 0
  varianceMetricId : ℕ → ℤ := fun _ => 0
  m2MetricId : ℕ → ℤ := fun _ => 0
  cvMetricId : ℕ → ℤ := fun _ => 0

def Watermark.numMetrics (w : Watermark) : ℕ := w.metricInfoList.length

def countMeasure : Text := ['C', 'O', 'U', 'N', 'T']
def startMeasure : Text := ['S', 't', 'a', 'r', 't']
def endMeasure : Text := ['E', 'n', 'd']
def meanMeasure : Text := ['M', 'E', 'A', 'N']
def varianceMeasure : Text := ['V', 'A', 'R', 'I', 'A', 'N', 'C', 'E']
def m2Measure : Text := ['M', '2']
def cvMeasure : Text := ['C', 'V']

/-- Event 0 is the sampled call event and only carries `COUNT`; every other
event registers its six metrics in the source's order. -/
def setupWatermarkMetric (w : Watermark) (clientName eventName : Text) : Option Watermark :=
  let cur := w.curWatermarkId
  let base : ℤ := w.metricInfoList.length
  let info := fun measure => MetricInfo.mk clientName eventName measure
  if cur = maxEvents then none
  else if cur = 0 then
    some { w with
      curWatermarkId := cur + 1
      metricInfoList := w.metricInfoList ++ [info countMeasure]
      sampleCntMetricId := base }
  else
    some { w with
      curWatermarkId := cur + 1
      metricInfoList := w.metricInfoList ++
        [info startMeasure, info endMeasure, info meanMeasure, info varianceMeasure,
          info m2Measure, info cvMeasure]
      startMetricId := Function.update w.startMetricId cur base
      endMetricId := Function.update w.endMetricId cur (base + 1)
      meanMetricId := Function.update w.meanMetricId cur (base + 2)
      varianceMetricId := Function.update w.varianceMetricId cur (base + 3)
      m2MetricId := Function.update w.m2MetricId cur (base + 4)
      cvMetricId := Function.update w.cvMetricId cur (base + 5) }

def setupWatermarks (clientName : Text) : List Text → Watermark → Option Watermark
  | [], w => some w
  | e :: es, w => (setupWatermarkMetric w clientName e).bind (setupWatermarks clientName es)

structure Welford where
  mean : ℚ
  variance : ℚ
  m2 : ℚ

def updateVarianceAndMean (sampleNum newValue : ℕ) (w : Welford) : Welford :=
  if sampleNum < 2 then ⟨newValue, 0, 0⟩
  else
    let delta := (newValue : ℚ) - w.mean
    let mean := w.mean + delta / sampleNum
    let delta2 := (newValue : ℚ) - mean
    let m2 := w.m2 + delta * delta2
    ⟨mean, m2 / ((sampleNum : ℚ) - 1), m2⟩

section Recording
variable (update : ℕ → ℕ → Welford → Welford) (w : Watermark) (cv : ℚ → ℚ → ℚ)

/-- `update` is `UpdateVarianceAndMean` in some arithmetic. -/
def recordEventWith (sampleCnt : ℕ) (start stop newValue : Row) (m : ContextMetrics) (i : ℕ) :
    Option ContextMetrics := do
  let n := w.numMetrics
  let (m, mean) ← getMetricVal n m (w.meanMetricId i)
  let (m, variance) ← getMetricVal n m (w.varianceMetricId i)
  let (m, m2) ← getMetricVal n m (w.m2MetricId i)
  let u := update sampleCnt (newValue i).toNat ⟨mean.r, variance.r, m2.r⟩
  let (m, startVal) ← getMetricVal n m (w.startMetricId i)
  let (m, endVal) ← getMetricVal n m (w.endMetricId i)
  let m ← setMetricVal n m (w.startMetricId i)
    { str := startVal.str ++ toDecimal (start i) ++ [' '] }
  let m ← setMetricVal n m (w.endMetricId i)
    { str := endVal.str ++ toDecimal (stop i) ++ [' '] }
  let m ← setMetricVal n m (w.meanMetricId i) { r := u.mean }
  let m ← setMetricVal n m (w.varianceMetricId i) { r := u.variance }
  let m ← setMetricVal n m (w.m2MetricId i) { r := u.m2 }
  setMetricVal n m (w.cvMetricId i) { r := cv u.variance u.mean }

def recordMetricsWith (metrics : Option ContextMetrics) (start stop newValue : Row) :
    Option ContextMetrics := do
  let m ← increment w.numMetrics (metrics.getD []) w.sampleCntMetricId { i := 1 }
  let (m, cnt) ← getMetricVal w.numMetrics m w.sampleCntMetricId
  (List.range' 1 (w.curWatermarkId - 1)).foldlM
    (recordEventWith update w cv cnt.i.toNat start stop newValue) m

end Recording

def recordMetrics (w : Watermark) (cv : ℚ → ℚ → ℚ) :
    Option ContextMetrics → Row → Row → Row → Option ContextMetrics :=
  recordMetricsWith updateVarianceAndMean w cv

theorem recordMetricsWith_exact (w : Watermark) (cv : ℚ → ℚ → ℚ) :
    recordMetricsWith updateVarianceAndMean w cv = recordMetrics w cv := rfl

end Trace4J.Profiler
