import Trace4J.Profiler.ContextLayers
import Trace4J.Profiler.ContextPaths

/-!
# One trace for every recorded instance

From the run of a thread to the traces that `output_to_file` makes of its dump. A context with
metrics is a leaf, so it stands at the end of one path; its metrics hold the start and the end
of each of its instances, and the script turns every such pair into one trace.
-/

namespace Trace4J.Profiler
open Library
open Offline (MetricXml MetricXml.key metricKey loadMetrics SetOrder Output outputContext outputPath
  outputToFile traceMetrics nearCall hwInstructions countKey startKey endKey meanKey cvKey callKey
  pyInt pySplit)

/-! ## The values that are printed -/

structure EventPrinted (i : ℕ) (m : ContextMetrics) : Prop where
  length : 6 * i < m.length
  start : (slots m (6 * i - 5)).i = 0
  stop : (slots m (6 * i - 4)).i = 0
  mean : (slots m (6 * i - 3)).i = 0 ∧ (slots m (6 * i - 3)).str = []
  cv : (slots m (6 * i)).i = 0 ∧ (slots m (6 * i)).str = []

section Printed
variable {update : ℕ → ℕ → Welford → Welford} {w : Watermark} {cv : ℚ → ℚ → ℚ}
variable {sampleCnt i : ℕ} {start stop newValue : Row} {m m' : ContextMetrics}

theorem recordEvent_printed (hw : w.Laid) (h1 : 1 ≤ i) (hi : i < w.curWatermarkId)
    (h : recordEventWith update w cv sampleCnt start stop newValue m i = some m') :
    EventPrinted i m' := by
  obtain ⟨-, hlen, hslots⟩ := recordEvent_updates hw h1 hi h
  refine ⟨hlen, ?_, ?_, ⟨?_, ?_⟩, ⟨?_, ?_⟩⟩
  all_goals simp (disch := omega) only [hslots, Function.update_of_ne, Function.update_self]

theorem EventPrinted.frame (h : EventPrinted i m) (h1 : 1 ≤ i) (hlen : m.length ≤ m'.length)
    (hslots : ∀ k, 6 * i - 5 ≤ k → k ≤ 6 * i → slots m' k = slots m k) : EventPrinted i m' := by
  refine ⟨h.length.trans_le hlen, ?_, ?_, ?_, ?_⟩
  · rw [hslots _ (by omega) (by omega)]
    exact h.start
  · rw [hslots _ (by omega) (by omega)]
    exact h.stop
  · rw [hslots _ (by omega) (by omega)]
    exact h.mean
  · rw [hslots _ (by omega) (by omega)]
    exact h.cv

theorem foldlM_printed (hw : w.Laid) (l : List ℕ) (hl : ∀ i ∈ l, 1 ≤ i ∧ i < w.curWatermarkId)
    (hnodup : l.Nodup) (m m' : ContextMetrics)
    (h : l.foldlM (recordEventWith update w cv sampleCnt start stop newValue) m = some m') :
    m.length ≤ m'.length ∧ ∀ i ∈ l, EventPrinted i m' := by
  induction l generalizing m with
  | nil =>
    cases h
    exact ⟨le_rfl, by simp⟩
  | cons j l ih =>
    obtain ⟨⟨h1, hj⟩, htail⟩ := List.forall_mem_cons.mp hl
    obtain ⟨hnot, hnodup⟩ := List.nodup_cons.mp hnodup
    rw [List.foldlM_cons] at h
    obtain ⟨m₁, h₁, h⟩ := Option.bind_eq_some_iff.mp h
    obtain ⟨hlen, hrest⟩ := ih htail hnodup m₁ h
    have hframe := foldlM_frame hw l htail m₁ m' h
    obtain ⟨hle, -, -⟩ := recordEvent_updates hw h1 hj h₁
    refine ⟨hle.trans hlen, ?_⟩
    refine List.forall_mem_cons.mpr ⟨?_, hrest⟩
    refine (recordEvent_printed hw h1 hj h₁).frame h1 hlen fun k hlo hhi => hframe k fun i hi => ?_
    have hne : i ≠ j := fun heq => hnot (heq ▸ hi)
    have hpos := (htail i hi).1
    omega

theorem recordMetrics_printed {metrics : Option ContextMetrics} (hw : w.Laid)
    (h : recordMetricsWith update w cv metrics start stop newValue = some m') :
    w.numMetrics ≤ m'.length ∧ ∀ i, 1 ≤ i → i < w.curWatermarkId → EventPrinted i m' := by
  have hcur := recordMetrics_cur hw h
  obtain ⟨m₁, hinc, h⟩ := Option.bind_eq_some_iff.mp h
  obtain ⟨⟨m₂, cnt⟩, hget, hfold⟩ := Option.bind_eq_some_iff.mp h
  obtain ⟨hlen, hevents⟩ :=
    foldlM_printed hw _ (fun i => mem_events.mp) List.nodup_range' m₂ m' hfold
  have hall : ∀ i, 1 ≤ i → i < w.curWatermarkId → EventPrinted i m' := fun i h1 hi =>
    hevents i (mem_events.mpr ⟨h1, hi⟩)
  refine ⟨?_, hall⟩
  rw [hw.numMetrics hcur]
  by_cases hone : w.curWatermarkId = 1
  · have hpos := (length_getMetricVal hget).2
    omega
  · have hlast := (hall (w.curWatermarkId - 1) (by omega) (by omega)).length
    omega

end Printed

def Complete (w : Watermark) (t : ContextTree) : Prop :=
  ∀ n < t.idCounter, ∀ m, (t.contextMap n).metrics = some m →
    w.numMetrics ≤ m.length ∧ ∀ i, 1 ≤ i → i < w.curWatermarkId → EventPrinted i m

section Complete
variable {cfg : Config} {env : Env} {s s' : Thread} {t t' : ContextTree} {w : Watermark}

theorem Complete.extends (h : Complete w t) (hext : Extends t t') : Complete w t' := by
  intro n hn m hm
  by_cases hold : n < t.idCounter
  · rw [hext.old n hold] at hm
    exact h n hold m hm
  · rw [hext.new n (by omega) hn] at hm
    cases hm

theorem TreeStep.complete (hw : cfg.watermark.Laid) (hs : TreeStep cfg env s s')
    (hlinked : s.contextTree.Linked) (h : Complete cfg.watermark s.contextTree) :
    Complete cfg.watermark s'.contextTree := by
  cases hs with
  | same htree _ => exact htree ▸ h
  | build _ htree _ => exact htree ▸ h.extends (constructContext_extends hlinked _ _ _ _ _)
  | record pc methodId version inst _ _ _ hm htree _ =>
    have hgrown := h.extends (constructContext_extends hlinked env.trace pc methodId version
      inst.frame)
    rw [htree]
    intro n hn m hmetrics
    by_cases hn' : n = inst.ctxt
    · subst hn'
      simp only [ContextTree.setMetrics, Function.update_self, Option.some.injEq] at hmetrics
      subst hmetrics
      rw [Instance.update, ← recordMetricsWith_exact] at hm
      exact recordMetrics_printed hw hm
    · simp only [ContextTree.setMetrics, Function.update_of_ne hn'] at hmetrics
      exact hgrown n hn m hmetrics

theorem complete_run (hw : cfg.watermark.Laid) {events : List Event}
    (hrun : run (step cfg) events Thread.init = .ok s) : Complete cfg.watermark s.contextTree := by
  have hboth : History cfg s ∧ Complete cfg.watermark s.contextTree := by
    refine run_keeps (P := fun s => History cfg s ∧ Complete cfg.watermark s.contextTree) ?_
      ⟨history_init, ?_⟩ hrun
    · rintro ev s s' ⟨hhist, hcomplete⟩ hstep
      have htree := step_treeStep hstep
      exact ⟨hhist.step hw htree, htree.complete hw hhist.linked hcomplete⟩
    · intro n _ m hm
      cases hm
  exact hboth.2

end Complete

/-! ## The names of the metrics -/

def eventMeasures : List Text :=
  [startMeasure, endMeasure, meanMeasure, varianceMeasure, m2Measure, cvMeasure]

def eventInfos (clientName eventName : Text) : List MetricInfo :=
  eventMeasures.map fun measure => ⟨clientName, eventName, measure⟩

def MetricInfo.key (info : MetricInfo) : Text := metricKey info.eventName info.eventMeasure

theorem setupWatermarks_infos {clientName : Text} (names : List Text) (w w' : Watermark)
    (hcur : w.curWatermarkId ≠ 0) (h : setupWatermarks clientName names w = some w') :
    w'.curWatermarkId = w.curWatermarkId + names.length ∧
      w'.metricInfoList = w.metricInfoList ++ names.flatMap (eventInfos clientName) := by
  induction names generalizing w with
  | nil =>
    cases h
    simp
  | cons e es ih =>
    obtain ⟨w₁, h₁, h⟩ := Option.bind_eq_some_iff.mp h
    simp only [setupWatermarkMetric, if_neg hcur] at h₁
    split_ifs at h₁ with hmax
    obtain rfl := Option.some.inj h₁
    obtain ⟨hcount, hlist⟩ := ih _ (Nat.succ_ne_zero _) h
    refine ⟨?_, ?_⟩
    · rw [hcount, List.length_cons]
      simp only
      omega
    · rw [hlist, List.flatMap_cons]
      simp [eventInfos, eventMeasures]

theorem setupWatermarks_cons {clientName e : Text} {es : List Text} {w : Watermark}
    (h : setupWatermarks clientName (e :: es) {} = some w) :
    w.curWatermarkId = es.length + 1 ∧
      w.metricInfoList = ⟨clientName, e, countMeasure⟩ :: es.flatMap (eventInfos clientName) := by
  obtain ⟨w₁, h₁, h⟩ := Option.bind_eq_some_iff.mp h
  have hw₁ := Option.some.inj h₁
  subst hw₁
  obtain ⟨hcount, hlist⟩ := setupWatermarks_infos es _ _ (Nat.succ_ne_zero _) h
  refine ⟨?_, hlist⟩
  rw [hcount]
  simp only
  omega

theorem metricKey_injective {e e' measure measure' : Text} (hm : ':' ∉ measure)
    (hm' : ':' ∉ measure') (h : metricKey e measure = metricKey e' measure') :
    e = e' ∧ measure = measure' := by
  obtain ⟨a, rfl, ha⟩ | ⟨a, rfl, ha⟩ := List.append_eq_append_iff.mp h
  · cases a with
    | nil => simpa using ha
    | cons c a =>
      obtain ⟨-, rfl⟩ := List.cons.inj ha
      exact absurd (by simp) hm
  · cases a with
    | nil => simpa using ha.symm
    | cons c a =>
      obtain ⟨-, rfl⟩ := List.cons.inj ha
      exact absurd (by simp) hm'

/-! ## The metrics the loader finds -/

section Loaded
variable {realText : ℚ → Text} {m : ContextMetrics} {infos before after : List MetricInfo}
variable {info : MetricInfo} {clientName first name : Text} {names pre post : List Text}

theorem mem_metricsXml {x : MetricXml} (hx : x ∈ metricsXml realText infos m) :
    ∃ v, ∃ y ∈ infos, x = metricXml realText v y := by
  rw [metricsXml, ← List.map_uncurry_zip_eq_zipWith] at hx
  obtain ⟨⟨v, y⟩, hy, rfl⟩ := List.mem_map.mp hx
  exact ⟨v, y, (List.of_mem_zip hy).2, rfl⟩

theorem lookup_metricsXml (realText : ℚ → Text) (hinfos : infos = before ++ info :: after)
    (hlen : infos.length ≤ m.length) (hafter : ∀ x ∈ after, x.key ≠ info.key) :
    (loadMetrics (metricsXml realText infos m) ∅).lookup info.key =
      some (metricText realText (slots m before.length)) := by
  subst hinfos
  rw [List.length_append, List.length_cons] at hlen
  have hlt : before.length < m.length := by omega
  have hsplit : m = m.take before.length ++ slots m before.length :: m.drop (before.length + 1) := by
    rw [slots, List.getD_eq_getElem?_getD, List.getElem?_eq_getElem hlt, Option.getD_some,
      List.getElem_cons_drop, List.take_append_drop]
  have hxml : metricsXml realText (before ++ info :: after) m =
      metricsXml realText before (m.take before.length) ++
        metricXml realText (slots m before.length) info ::
          metricsXml realText after (m.drop (before.length + 1)) := by
    conv_lhs => rw [metricsXml, hsplit]
    rw [List.zipWith_append (by rw [List.length_take]; omega), List.zipWith_cons_cons]
    rfl
  rw [hxml]
  refine Offline.lookup_loadMetrics (x := metricXml realText (slots m before.length) info) _ _ ?_
    rfl ?_
  · intro x hx
    obtain ⟨v, y, -, rfl⟩ := mem_metricsXml hx
    rfl
  · intro x hx
    obtain ⟨v, y, hy, rfl⟩ := mem_metricsXml hx
    exact hafter y hy

theorem key_eventInfos {names : List Text} {x : MetricInfo}
    (hx : x ∈ names.flatMap (eventInfos clientName)) :
    ∃ e ∈ names, ∃ measure ∈ eventMeasures, x.key = metricKey e measure := by
  obtain ⟨e, he, hx⟩ := List.mem_flatMap.mp hx
  obtain ⟨measure, hm, rfl⟩ := List.mem_map.mp hx
  exact ⟨e, he, measure, hm, rfl⟩

theorem colon_notMem_eventMeasures : ∀ measure ∈ eventMeasures, ':' ∉ measure := by decide

theorem length_flatMap_eventInfos (names : List Text) :
    (names.flatMap (eventInfos clientName)).length = 6 * names.length := by
  induction names with
  | nil => rfl
  | cons e es ih =>
    rw [List.flatMap_cons, List.length_append, ih, List.length_cons]
    simp only [eventInfos, eventMeasures, List.map_cons, List.map_nil, List.length_cons,
      List.length_nil]
    omega

theorem lookup_count (hlen : infos.length ≤ m.length)
    (hinfos : infos = ⟨clientName, first, countMeasure⟩ :: names.flatMap (eventInfos clientName)) :
    (loadMetrics (metricsXml realText infos m) ∅).lookup (metricKey first countMeasure) =
      some (metricText realText (slots m 0)) := by
  have hsplit : infos = [] ++ ⟨clientName, first, countMeasure⟩ ::
      names.flatMap (eventInfos clientName) := hinfos
  apply lookup_metricsXml realText hsplit hlen
  intro x hx heq
  obtain ⟨e, -, measure, hm, hkey⟩ := key_eventInfos hx
  have hkeys : metricKey e measure = metricKey first countMeasure := hkey.symm.trans heq
  obtain ⟨-, rfl⟩ := metricKey_injective (colon_notMem_eventMeasures _ hm) (by decide) hkeys
  exact absurd hm (by decide)

theorem lookup_event (front back : List Text) (measure : Text) (k : ℕ)
    (hlen : infos.length ≤ m.length)
    (hinfos : infos = ⟨clientName, first, countMeasure⟩ ::
      (pre ++ name :: post).flatMap (eventInfos clientName))
    (hlast : name ∉ post) (hmeasures : eventMeasures = front ++ measure :: back)
    (hback : measure ∉ back) (hk : k = 6 * (pre.length + 1) - 5 + front.length) :
    (loadMetrics (metricsXml realText infos m) ∅).lookup (metricKey name measure) =
      some (metricText realText (slots m k)) := by
  have hsplit : infos = (⟨clientName, first, countMeasure⟩ ::
      (pre.flatMap (eventInfos clientName) ++
        front.map fun measure => ⟨clientName, name, measure⟩)) ++
      ⟨clientName, name, measure⟩ ::
        ((back.map fun measure => ⟨clientName, name, measure⟩) ++
          post.flatMap (eventInfos clientName)) := by
    rw [hinfos, List.flatMap_append, List.flatMap_cons]
    conv_lhs => rw [eventInfos.eq_def clientName name, hmeasures]
    simp
  have hcolon : ':' ∉ measure := colon_notMem_eventMeasures measure (by rw [hmeasures]; simp)
  have hmain := lookup_metricsXml realText hsplit hlen (fun x hx heq => ?_)
  · rw [List.length_cons, List.length_append, List.length_map, length_flatMap_eventInfos] at hmain
    rw [show k = 6 * pre.length + front.length + 1 by omega]
    exact hmain
  · obtain hx | hx := List.mem_append.mp hx
    · obtain ⟨measure', hm, rfl⟩ := List.mem_map.mp hx
      obtain ⟨-, rfl⟩ := metricKey_injective (colon_notMem_eventMeasures _
        (by rw [hmeasures]; simp [hm])) hcolon heq
      exact hback hm
    · obtain ⟨e, he, measure', hm, hkey⟩ := key_eventInfos hx
      obtain ⟨rfl, -⟩ := metricKey_injective (colon_notMem_eventMeasures _ hm) hcolon
        (hkey.symm.trans heq)
      exact hlast he

end Loaded

/-! ## The traces of one context -/

section Rows
variable {realText : ℚ → Text} {getSrcPosition : Offline.Context → Text}
  {roundFloat : Text → Option ℤ} {formatFloat : Text → Option Text}
variable {m : ContextMetrics} {infos : List MetricInfo} {clientName first name : Text}
variable {pre post : List Text} {w : Watermark} {insts : List Instance}

def Instance.row (i : ℕ) (key : Text) (inst : Instance) : ℤ × ℤ × Text :=
  ((inst.start i).toNat, (inst.stop i).toNat, key)

theorem intText_natCast (n : ℕ) : intText n = Nat.toDigits 10 n := by
  rw [intText, if_neg (by omega), Int.natAbs_natCast]

theorem metricText_str {v : MetricVal} (hi : v.i = 0) (hstr : v.str ≠ []) :
    metricText realText v = v.str := by
  rw [metricText, if_neg (by simp [hi]), if_pos hstr]

theorem metricText_real {v : MetricVal} (hv : v.i = 0 ∧ v.str = []) :
    metricText realText v = realText v.r := by
  rw [metricText, if_neg (by simp [hv.1]), if_neg (by simp [hv.2])]

theorem metricText_count {v : MetricVal} (hne : insts ≠ []) (hv : v.i = insts.length) :
    metricText realText v = Nat.toDigits 10 insts.length := by
  have hpos : ((insts.length : ℕ) : ℤ) ≠ 0 := by simpa using hne
  rw [metricText, if_pos (hv ▸ hpos), hv, intText_natCast]

theorem pySplit_decimals (l : List Instance) (f : Instance → UInt64) :
    pySplit (l.flatMap fun x => toDecimal (f x) ++ [' ']) =
      l.map fun x => Nat.toDigits 10 (f x).toNat := by
  have hmap : (l.flatMap fun x => toDecimal (f x) ++ [' ']) =
      (l.map fun x => toDecimal (f x)).flatMap fun word => word ++ [' '] := by
    rw [List.flatMap_map]
  rw [hmap, Offline.pySplit_flatMap]
  · rfl
  · intro word hword
    obtain ⟨x, -, rfl⟩ := List.mem_map.mp hword
    exact Nat.toDigits_ne_nil
  · intro word hword c hc
    obtain ⟨x, -, rfl⟩ := List.mem_map.mp hword
    exact Offline.isSpace_of_isDigit (Nat.isDigit_of_mem_toDigits (by decide) le_rfl hc)

theorem flatMap_decimals_ne_nil (hne : insts ≠ []) (f : Instance → UInt64) :
    (insts.flatMap fun x => toDecimal (f x) ++ [' ']) ≠ [] := by
  obtain ⟨x, xs, rfl⟩ := List.exists_cons_of_ne_nil hne
  simp

section Event
variable (hinfos : infos = ⟨clientName, first, countMeasure⟩ ::
    (pre ++ name :: post).flatMap (eventInfos clientName)) (hlast : name ∉ post)
  (hlen : infos.length ≤ m.length) (hprinted : EventPrinted (pre.length + 1) m)
include hinfos hlast hlen hprinted

theorem lookup_start (hne : insts ≠ [])
    (hstart : (slots m (6 * (pre.length + 1) - 5)).str =
      insts.flatMap fun x => toDecimal (x.start (pre.length + 1)) ++ [' ']) :
    (loadMetrics (metricsXml realText infos m) ∅).lookup (metricKey name startMeasure) =
      some (insts.flatMap fun x => toDecimal (x.start (pre.length + 1)) ++ [' ']) := by
  rw [lookup_event [] _ startMeasure (6 * (pre.length + 1) - 5) hlen hinfos hlast rfl (by decide)
      rfl,
    metricText_str hprinted.start (hstart ▸ flatMap_decimals_ne_nil hne _), hstart]

theorem lookup_stop (hne : insts ≠ [])
    (hstop : (slots m (6 * (pre.length + 1) - 4)).str =
      insts.flatMap fun x => toDecimal (x.stop (pre.length + 1)) ++ [' ']) :
    (loadMetrics (metricsXml realText infos m) ∅).lookup (metricKey name endMeasure) =
      some (insts.flatMap fun x => toDecimal (x.stop (pre.length + 1)) ++ [' ']) := by
  rw [lookup_event [startMeasure] _ endMeasure (6 * (pre.length + 1) - 4) hlen hinfos hlast rfl
      (by decide) (by simp only [List.length_singleton]; omega),
    metricText_str hprinted.stop (hstop ▸ flatMap_decimals_ne_nil hne _), hstop]

theorem lookup_mean :
    (loadMetrics (metricsXml realText infos m) ∅).lookup (metricKey name meanMeasure) =
      some (realText (slots m (6 * (pre.length + 1) - 3)).r) := by
  rw [lookup_event [startMeasure, endMeasure] _ meanMeasure (6 * (pre.length + 1) - 3) hlen hinfos
      hlast rfl (by decide) (by simp only [List.length_cons, List.length_nil]; omega),
    metricText_real hprinted.mean]

theorem lookup_cv :
    (loadMetrics (metricsXml realText infos m) ∅).lookup (metricKey name cvMeasure) =
      some (realText (slots m (6 * (pre.length + 1))).r) := by
  rw [lookup_event [startMeasure, endMeasure, meanMeasure, varianceMeasure, m2Measure] _ cvMeasure
      (6 * (pre.length + 1)) hlen hinfos hlast rfl (by decide)
      (by simp only [List.length_cons, List.length_nil]; omega),
    metricText_real hprinted.cv]

end Event

structure ReadsMetrics (realText : ℚ → Text) (i : ℕ) (insts : List Instance)
    (m : ContextMetrics) (d : Offline.MetricsDict) : Prop where
  count : d.lookup countKey = some (Nat.toDigits 10 insts.length)
  starts : d.lookup startKey = some (insts.flatMap fun x => toDecimal (x.start i) ++ [' '])
  stops : d.lookup endKey = some (insts.flatMap fun x => toDecimal (x.stop i) ++ [' '])
  mean : d.lookup meanKey = some (realText (slots m (6 * i - 3)).r)
  cv : d.lookup cvKey = some (realText (slots m (6 * i)).r)

theorem readsMetrics_loadMetrics
    (hinfos : infos = ⟨clientName, nearCall, countMeasure⟩ ::
      (pre ++ hwInstructions :: post).flatMap (eventInfos clientName))
    (hlast : hwInstructions ∉ post) (hlen : infos.length ≤ m.length)
    (hprinted : EventPrinted (pre.length + 1) m) (hne : insts ≠ [])
    (hcount : (slots m 0).i = insts.length)
    (hstart : (slots m (6 * (pre.length + 1) - 5)).str =
      insts.flatMap fun x => toDecimal (x.start (pre.length + 1)) ++ [' '])
    (hstop : (slots m (6 * (pre.length + 1) - 4)).str =
      insts.flatMap fun x => toDecimal (x.stop (pre.length + 1)) ++ [' ']) :
    ReadsMetrics realText (pre.length + 1) insts m
      (loadMetrics (metricsXml realText infos m) ∅) where
  count := by
    have hcounts : (loadMetrics (metricsXml realText infos m) ∅).lookup countKey = _ :=
      lookup_count hlen hinfos
    rw [hcounts, metricText_count hne hcount]
  starts := lookup_start hinfos hlast hlen hprinted hne hstart
  stops := lookup_stop hinfos hlast hlen hprinted hne hstop
  mean := lookup_mean hinfos hlast hlen hprinted
  cv := lookup_cv hinfos hlast hlen hprinted

theorem ReadsMetrics.traceMetrics {i : ℕ} {d : Offline.MetricsDict} {mean : ℤ} {dispersion : Text}
    (h : ReadsMetrics realText i insts m d)
    (hmean : roundFloat (realText (slots m (6 * i - 3)).r) = some mean)
    (hdispersion : formatFloat (realText (slots m (6 * i)).r) = some dispersion) :
    traceMetrics roundFloat formatFloat d =
      some ⟨insts.length * mean, Nat.toDigits 10 insts.length, mean, dispersion⟩ := by
  simp only [Offline.traceMetrics, h.count, h.mean, h.cv, Option.bind_eq_bind, Option.bind_some,
    Offline.pyInt_toDigits, hmean, hdispersion]

theorem outputContext_eq {i : ℕ} {ctxt : Offline.Context} {summary : Offline.TraceMetrics}
    (h : ReadsMetrics realText i insts m ctxt.metricsDict)
    (hsummary : traceMetrics roundFloat formatFloat ctxt.metricsDict = some summary)
    (path : List Offline.Context) (out : Output) :
    outputContext getSrcPosition roundFloat formatFloat path ctxt out = some
      { counter := out.counter + insts.length
        dumpData := out.dumpData ++ [(callKey getSrcPosition path, ctxt.metricsDict)]
        traceList := out.traceList ++ insts.map fun x =>
          ⟨(x.start i).toNat, (x.stop i).toNat, summary, callKey getSrcPosition path⟩ } := by
  have hnonempty : ctxt.metricsDict ≠ ∅ := by
    intro hempty
    have hcount := h.count
    rw [hempty] at hcount
    cases hcount
  have hrows := Offline.traceRows_eq hsummary (callKey getSrcPosition path)
    (fun x : Instance => (x.start i).toNat) (fun x => (x.stop i).toNat) insts
  rw [outputContext, if_neg hnonempty]
  simp only [h.count, h.starts, h.stops, Option.bind_eq_bind, Option.bind_some, Option.map_some,
    Offline.pyInt_toDigits, pySplit_decimals, hrows]

theorem outputContext_rows (hround : ∀ q, (roundFloat (realText q)).isSome)
    (hformat : ∀ q, (formatFloat (realText q)).isSome) {i : ℕ} {ctxt : Offline.Context}
    (h : ReadsMetrics realText i insts m ctxt.metricsDict) (path : List Offline.Context)
    (out : Output) :
    ∃ out', outputContext getSrcPosition roundFloat formatFloat path ctxt out = some out' ∧
      out'.traceList.map Offline.Trace.row = out.traceList.map Offline.Trace.row ++
        insts.map (Instance.row i (callKey getSrcPosition path)) := by
  obtain ⟨mean, hmean⟩ := Option.isSome_iff_exists.mp (hround (slots m (6 * i - 3)).r)
  obtain ⟨dispersion, hdispersion⟩ := Option.isSome_iff_exists.mp (hformat (slots m (6 * i)).r)
  refine ⟨_, outputContext_eq h (h.traceMetrics hmean hdispersion) path out, ?_⟩
  rw [List.map_append, List.map_map]
  rfl

end Rows

/-! ## All contexts of a run -/

theorem flatMap_filter_perm {α κ : Type*} [DecidableEq κ] (f : α → κ) (l : List α) (ks : List κ)
    (hnodup : ks.Nodup) :
    (ks.flatMap fun k => l.filter fun x => f x = k).Perm (l.filter fun x => f x ∈ ks) := by
  induction ks with
  | nil => simp
  | cons k ks ih =>
    obtain ⟨hk, hnodup⟩ := List.nodup_cons.mp hnodup
    rw [List.flatMap_cons]
    apply ((ih hnodup).append_left _).trans
    have hsplit := List.filter_append_perm (fun x => decide (f x = k))
      (l.filter fun x => f x ∈ k :: ks)
    refine List.Perm.trans (List.Perm.of_eq ?_) hsplit
    rw [List.filter_filter, List.filter_filter]
    congr 1
    · refine List.filter_congr fun x _ => ?_
      by_cases hx : f x = k <;> simp [hx]
    · refine List.filter_congr fun x _ => ?_
      by_cases hx : f x = k
      · simp [hx, hk]
      · simp [hx]

section Recorded
variable {cfg : Config} {env : Env} {s s' : Thread} {t : ContextTree} {order : List ℕ}

theorem TreeStep.keeps_metrics (hs : TreeStep cfg env s s') (hlinked : s.contextTree.Linked) {n : ℕ}
    (hn : n < s.contextTree.idCounter) (hm : (s.contextTree.contextMap n).metrics.isSome) :
    n < s'.contextTree.idCounter ∧ (s'.contextTree.contextMap n).metrics.isSome := by
  cases hs with
  | same htree _ =>
    rw [htree]
    exact ⟨hn, hm⟩
  | build _ htree _ =>
    have hext := htree ▸ constructContext_extends hlinked _ _ _ _ _
    rw [hext.old n hn]
    exact ⟨hn.trans_le hext.count, hm⟩
  | record pc methodId version inst _ _ _ _ htree _ =>
    have hext := constructContext_extends hlinked env.trace pc methodId version
      inst.frame
    rw [htree]
    refine ⟨hn.trans_le hext.count, ?_⟩
    by_cases hn' : n = inst.ctxt
    · simp [ContextTree.setMetrics, hn']
    · simp only [ContextTree.setMetrics, Function.update_of_ne hn', hext.old n hn]
      exact hm

theorem run_keeps_metrics (hw : cfg.watermark.Laid) {events : List Event} (hhist : History cfg s)
    (hrun : run (step cfg) events s = .ok s') {n : ℕ} (hn : n < s.contextTree.idCounter)
    (hm : (s.contextTree.contextMap n).metrics.isSome) :
    n < s'.contextTree.idCounter ∧ (s'.contextTree.contextMap n).metrics.isSome := by
  have hkeep := run_keeps (P := fun s => History cfg s ∧ n < s.contextTree.idCounter ∧
    (s.contextTree.contextMap n).metrics.isSome) ?_ ⟨hhist, hn, hm⟩ hrun
  · exact hkeep.2
  · rintro ev s s' ⟨hhist, hn, hm⟩ hstep
    have htree := step_treeStep hstep
    exact ⟨hhist.step hw htree, htree.keeps_metrics hhist.linked hn hm⟩

theorem dumpLeaf_iff {layer : ℕ → Layer} (h : Layers t layer)
    (horder : order.Perm (List.range t.idCounter)) (n : ℕ) :
    t.DumpLeaf order n ↔ n < t.idCounter ∧ (t.contextMap n).metrics.isSome := by
  obtain ⟨hdump, hall⟩ := ContextTree.dump_dumped h.linked horder
  constructor
  · rintro ⟨hn, hleaf⟩
    obtain ⟨m, hm, hmetrics, habove⟩ := hdump.source n hn
    by_cases hne : n = m
    · exact hne ▸ ⟨hm, hmetrics⟩
    · obtain ⟨c, hparent, hc⟩ := habove.cases_child hne
      exact absurd hparent (hleaf c (hdump.above hc (hall m hm hmetrics)))
  · rintro ⟨hn, hmetrics⟩
    refine ⟨hall n hn hmetrics, fun c hc hparent => ?_⟩
    have hlt := hdump.known c hc
    obtain ⟨q, -, hq, hmem⟩ := h.linked.parent c
      ((Nat.zero_le n).trans_lt (h.linked.parent_lt hlt hparent)) hlt
    obtain rfl := Option.some.inj (hq.symm.trans hparent)
    rw [h.leaf hn hmetrics] at hmem
    cases hmem

theorem ContextTree.Descends.interior {layer : ℕ → Layer} (h : Layers t layer) {m n : ℕ}
    {l : List ℕ} (hm : m < t.idCounter) (hd : t.Descends m n l) :
    ∃ front, l = front ++ [m] ∧ ∀ x ∈ front, (t.contextMap x).metrics = none := by
  induction hd with
  | here => exact ⟨[], rfl, by simp⟩
  | @down n c l hparent hd ih =>
    obtain ⟨front, rfl, hfront⟩ := ih
    refine ⟨n :: front, rfl, List.forall_mem_cons.mpr ⟨?_, hfront⟩⟩
    have hc := hd.above.lt h.linked hm
    have hn := h.linked.parent_lt hc hparent
    by_contra hmetrics
    obtain ⟨q, -, hq, hmem⟩ := h.linked.parent c ((Nat.zero_le n).trans_lt hn) hc
    obtain rfl := Option.some.inj (hq.symm.trans hparent)
    rw [h.leaf (hn.trans hc) (Option.isSome_iff_ne_none.mpr hmetrics)] at hmem
    cases hmem

theorem HasHistory.exists_metrics {n : ℕ} {insts : List Instance} {metrics : Option ContextMetrics}
    (h : HasHistory n insts metrics) (hne : insts ≠ []) : metrics.isSome := by
  cases metrics with
  | none => exact absurd h hne
  | some m => rfl

theorem History.metrics_of_recorded (h : History cfg s) {inst : Instance}
    (hinst : inst ∈ recordedInstances s.log) :
    (s.contextTree.contextMap inst.ctxt).metrics.isSome := by
  refine (h.metrics _ (h.known inst hinst)).exists_metrics (List.ne_nil_of_mem (a := inst) ?_)
  exact List.mem_reverse.mpr (List.mem_filter.mpr ⟨hinst, by simp⟩)

theorem History.instances_perm (h : History cfg s) {leaves : List ℕ} (hnodup : leaves.Nodup)
    (hleaves : ∀ n, n ∈ leaves ↔
      n < s.contextTree.idCounter ∧ (s.contextTree.contextMap n).metrics.isSome) :
    (leaves.flatMap (instancesOf s)).Perm (recordedInstances s.log) := by
  have hreverse : (leaves.flatMap (instancesOf s)).Perm (leaves.flatMap fun n =>
      (recordedInstances s.log).filter fun x => x.ctxt = n) :=
    List.Perm.flatMap_left _ fun n _ => List.reverse_perm _
  refine hreverse.trans ((flatMap_filter_perm Instance.ctxt _ _ hnodup).trans (List.Perm.of_eq ?_))
  rw [List.filter_eq_self]
  intro inst hinst
  exact decide_eq_true ((hleaves _).mpr ⟨h.known inst hinst, h.metrics_of_recorded hinst⟩)

end Recorded

section Traces
variable {realText : ℚ → Text} {getSrcPosition : Offline.Context → Text}
  {roundFloat : Text → Option ℤ} {formatFloat : Text → Option Text}
variable {cfg : Config} {clientName : Text} {pre post : List Text} {s : Thread} {order : List ℕ}

def contextKey (realText : ℚ → Text) (getSrcPosition : Offline.Context → Text)
    (infos : List MetricInfo) (t : ContextTree) (order : List ℕ) (n : ℕ) : Text :=
  callKey getSrcPosition ((t.path n).map (t.dumpNode realText infos order))

theorem outputPath_rows (hround : ∀ q, (roundFloat (realText q)).isSome)
    (hformat : ∀ q, (formatFloat (realText q)).isSome)
    (hw : setupWatermarks clientName (nearCall :: (pre ++ hwInstructions :: post)) {} =
      some cfg.watermark)
    (hlast : hwInstructions ∉ post) (hhist : History cfg s)
    (hcomplete : Complete cfg.watermark s.contextTree) {layer : ℕ → Layer}
    (hlayers : Layers s.contextTree layer) {n : ℕ} {l : List ℕ} (hn : n < s.contextTree.idCounter)
    (hmetrics : (s.contextTree.contextMap n).metrics.isSome) (hd : s.contextTree.Descends n 0 l)
    (out : Output) :
    let infos := cfg.watermark.metricInfoList
    ∃ out', outputPath getSrcPosition roundFloat formatFloat []
        (l.map (s.contextTree.dumpNode realText infos order)) out = some out' ∧
      out'.traceList.map Offline.Trace.row = out.traceList.map Offline.Trace.row ++
        (instancesOf s n).map (Instance.row (pre.length + 1)
          (contextKey realText getSrcPosition infos s.contextTree order n)) := by
  intro infos
  obtain ⟨hcur, hinfos⟩ := setupWatermarks_cons hw
  rw [List.length_append, List.length_cons] at hcur
  obtain ⟨m, hm⟩ := Option.isSome_iff_exists.mp hmetrics
  have hsummary := hhist.metrics n hn
  rw [hm] at hsummary
  obtain ⟨hne, -, hsummary⟩ := hsummary
  have hevent := hsummary.event (pre.length + 1) (by omega) (by omega)
  obtain ⟨hlen, hprinted⟩ := hcomplete n hn m hm
  have hpath : s.contextTree.path n = l := by
    rw [hd.path_eq hlayers.linked hn]
    rfl
  obtain ⟨front, rfl, hfront⟩ := hd.interior hlayers hn
  have hnone : ∀ c ∈ front.map (s.contextTree.dumpNode realText infos order),
      c.metricsDict = ∅ := by
    intro c hc
    obtain ⟨x, hx, rfl⟩ := List.mem_map.mp hc
    simp [ContextTree.dumpNode, Offline.withChildren, Offline.Context.ofXml, contextXml, hfront x hx,
      loadMetrics]
  have hdict : (s.contextTree.dumpNode realText infos order n).metricsDict =
      loadMetrics (metricsXml realText infos m) ∅ := by
    simp [ContextTree.dumpNode, Offline.withChildren, Offline.Context.ofXml, contextXml, hm]
  have hpathKey : contextKey realText getSrcPosition infos s.contextTree order n =
      callKey getSrcPosition (front.map (s.contextTree.dumpNode realText infos order) ++
        [s.contextTree.dumpNode realText infos order n]) := by
    rw [contextKey, hpath, List.map_append, List.map_singleton]
  rw [List.map_append, List.map_singleton, Offline.outputPath_append _ _ _ _ hnone, hpathKey]
  have hreads : ReadsMetrics realText (pre.length + 1) (instancesOf s n) m
      (s.contextTree.dumpNode realText infos order n).metricsDict := by
    rw [hdict]
    exact readsMetrics_loadMetrics hinfos hlast hlen (hprinted _ (by omega) (by omega)) hne
      hsummary.count hevent.start hevent.stop
  exact outputContext_rows hround hformat hreads _ out

end Traces

/-- For every run: a context with metrics stays a leaf, and the traces made from the dump are
the recorded instances, each once, whatever the order of the node map, of the nodes that are
read and of the sets of children. -/
theorem one_trace_per_instance (cfg : Config) (clientName : Text) (pre post : List Text)
    (hlast : hwInstructions ∉ post)
    (hw : setupWatermarks clientName (nearCall :: (pre ++ hwInstructions :: post)) {} =
      some cfg.watermark)
    (events : List Event) (hip : ∀ ev ∈ events, ev.env.getMethod 0 = none) (s : Thread)
    (hrun : run (step cfg) events Thread.init = .ok s) :
    (∀ more s', (∀ ev ∈ more, ev.env.getMethod 0 = none) → run (step cfg) more s = .ok s' →
      ∀ n < s.contextTree.idCounter, (s.contextTree.contextMap n).metrics.isSome →
        (s'.contextTree.contextMap n).metrics.isSome ∧
          (s'.contextTree.contextMap n).children = []) ∧
    ∀ (realText : ℚ → Text) (getSrcPosition : Offline.Context → Text)
      (roundFloat : Text → Option ℤ) (formatFloat : Text → Option Text),
      (∀ q, (roundFloat (realText q)).isSome) → (∀ q, (formatFloat (realText q)).isSome) →
      ∀ order : List ℕ, order.Perm (List.range s.contextTree.idCounter) →
      ∀ loaded, loaded.Perm
        (writeContexts realText cfg.watermark.metricInfoList s.contextTree order) →
      ∀ sets : SetOrder, recordedInstances s.log ≠ [] →
      ∃ mgr, Offline.loadContext loaded = some mgr ∧ ∀ fuel, s.contextTree.idCounter ≤ fuel →
        ∃ out, outputToFile getSrcPosition roundFloat formatFloat sets fuel mgr = some out ∧
          (out.traceList.map Offline.Trace.row).Perm ((recordedInstances s.log).map fun inst =>
            inst.row (pre.length + 1) (contextKey realText getSrcPosition
              cfg.watermark.metricInfoList s.contextTree order inst.ctxt)) := by
  have hlaid := laid_setupWatermarks laid_new hw
  have hhist := history_run hlaid hrun
  have hcomplete := complete_run hlaid hrun
  obtain ⟨layer, hlayers⟩ := layered_run hip ⟨_, layers_new⟩ hrun
  constructor
  · intro more s' hmore hrun' n hn hm
    obtain ⟨hn', hm'⟩ := run_keeps_metrics hlaid hhist hrun' hn hm
    obtain ⟨layer', hlayers'⟩ := layered_run hmore ⟨layer, hlayers⟩ hrun'
    exact ⟨hm', hlayers'.leaf hn' hm'⟩
  intro realText getSrcPosition roundFloat formatFloat hround hformat order horder loaded hloaded
    sets hne
  obtain ⟨inst, hinst⟩ := List.exists_mem_of_ne_nil _ hne
  have hmem := (ContextTree.dump_dumped hlayers.linked horder).2 _ (hhist.known inst hinst)
    (hhist.metrics_of_recorded hinst)
  have hdump : s.contextTree.dump order ≠ [] := List.ne_nil_of_mem hmem
  refine ⟨_, ContextTree.loadContext_dump realText _ hlayers.linked horder hdump hloaded, ?_⟩
  intro fuel hfuel
  obtain ⟨pairs, hpaths, hbelow⟩ := ContextTree.getAllPaths_dump hlayers.linked horder sets fuel 0
    (ContextTree.root_mem_dump hlayers.linked horder hdump) (by omega)
  have hleaves : ∀ n, n ∈ pairs.map Prod.fst ↔ n < s.contextTree.idCounter ∧
      (s.contextTree.contextMap n).metrics.isSome := by
    intro n
    rw [hbelow.leaves, dumpLeaf_iff hlayers horder]
    constructor
    · exact fun h => h.1
    · exact fun h => ⟨h, 0, List.mem_singleton_self 0, ContextTree.above_root hlayers.linked n h.1⟩
  obtain ⟨out, hout, hrows⟩ := Offline.foldlM_outputPath
    (fun p => p.2.map (s.contextTree.dumpNode realText cfg.watermark.metricInfoList order))
    (fun p => (instancesOf s p.1).map (Instance.row (pre.length + 1) (contextKey realText
      getSrcPosition cfg.watermark.metricInfoList s.contextTree order p.1)))
    Offline.Trace.row pairs
    (fun p hp out => by
      obtain ⟨hn, hm⟩ := (hleaves p.1).mp (List.mem_map_of_mem hp)
      obtain ⟨c, hc, hd⟩ := hbelow.descends p hp
      obtain rfl := List.mem_singleton.mp hc
      exact outputPath_rows hround hformat hw hlast hhist hcomplete hlayers hn hm hd out) {}
  refine ⟨out, ?_, ?_⟩
  · have hroot : (['0'] : Text) = idText 0 := rfl
    have hmgr := hpaths
    rw [ContextTree.dumpManager] at hmgr
    rw [outputToFile, hroot, hmgr]
    exact hout
  · rw [hrows]
    refine List.Perm.trans (List.Perm.of_eq ?_)
      ((hhist.instances_perm hbelow.nodup hleaves).map _)
    rw [List.map_flatMap, List.flatMap_map]
    simp only [List.map_nil, List.nil_append]
    refine List.flatMap_congr fun p hp => List.map_congr_left fun x hx => ?_
    rw [instancesOf, List.mem_reverse, List.mem_filter, decide_eq_true_eq] at hx
    rw [hx.2]

def tracedConfig : Config :=
  { oneEventConfig 8 with
    watermark := (setupWatermarks ['T'] [nearCall, hwInstructions] {}).getD {} }

def tracedLeaf : Thread :=
  match run (step tracedConfig) (callLeafRun ++ callLeafRun) Thread.init with
  | .ok s => s
  | .error _ => Thread.init

def natText (q : ℚ) : Text := Nat.toDigits 10 q.num.natAbs

theorem one_trace_per_instance_tracedLeaf :
    let t := tracedLeaf.contextTree
    let order := List.range t.idCounter
    let infos := tracedConfig.watermark.metricInfoList
    let position := fun c : Offline.Context => c.methodId
    run (step tracedConfig) (callLeafRun ++ callLeafRun) Thread.init = .ok tracedLeaf ∧
      ∃ mgr out, Offline.loadContext (writeContexts natText infos t order) = some mgr ∧
        outputToFile position pyInt (fun x => (pyInt x).map fun _ => x ++ ['.', '0', '0'])
          ⟨fun c => c.childrenIds.toList, fun c => c.childrenIds.nodup_toList,
            fun _ _ => Finset.mem_toList⟩ t.idCounter mgr = some out ∧
        (out.traceList.map Offline.Trace.row).Perm ((recordedInstances tracedLeaf.log).map fun inst =>
          inst.row 1 (contextKey natText position infos t order inst.ctxt)) := by
  intro t order infos position
  have hrun : run (step tracedConfig) (callLeafRun ++ callLeafRun) Thread.init = .ok tracedLeaf :=
    rfl
  have hip : ∀ ev ∈ callLeafRun ++ callLeafRun, ev.env.getMethod 0 = none := by
    simp only [callLeafRun, List.cons_append, List.nil_append, List.forall_mem_cons]
    decide
  have hread : ∀ q, pyInt (natText q) = some (q.num.natAbs : ℤ) := fun q =>
    Offline.pyInt_toDigits _
  obtain ⟨mgr, hload, hout⟩ := (one_trace_per_instance tracedConfig ['T'] [] [] (by simp) rfl
    (callLeafRun ++ callLeafRun) hip tracedLeaf hrun).2 natText position pyInt
    (fun x => (pyInt x).map fun _ => x ++ ['.', '0', '0'])
    (fun q => by rw [hread]; rfl) (fun q => by rw [hread]; rfl) order (List.Perm.refl _) _
    (List.Perm.refl _) ⟨fun c => c.childrenIds.toList, fun c => c.childrenIds.nodup_toList,
      fun _ _ => Finset.mem_toList⟩ (by decide +kernel)
  obtain ⟨out, hout, hperm⟩ := hout t.idCounter le_rfl
  exact ⟨hrun, mgr, out, hload, hout, hperm⟩

end Trace4J.Profiler
