import Trace4J.Offline.MergedDumps
import Trace4J.Profiler.TraceOutput

/-!
# Two threads with one thread id

The dumps of two threads that had the same thread id are loaded into one manager. Every context
with metrics of either is kept in every order of their nodes exactly when the dumps share no
context id but 0.
-/

namespace Trace4J.Profiler
open Library
open Offline (IsDump CallPath Leads loadMetrics Merges KeptBy keptBy_iff ids rootId)

section Root
variable {cfg : Config} {env : Env} {s s' : Thread} {t : ContextTree} {q : ℕ}

theorem addContext_pos {f : ContextFrame} (h : t.Linked) (hq : q < t.idCounter) :
    0 < (t.addContext q f).2 := by
  obtain ⟨c, hc, -, hadd⟩ | hadd := ContextTree.addContext_cases t f hq
  · rw [hadd]
    exact (h.child q hq c hc).1
  · rw [hadd]
    exact h.root

theorem constructContext_pos (h : t.Linked) (trace : CallTrace) (ip methodId : UInt64)
    (methodVersion : UInt32) (callee : ContextFrame) :
    0 < (constructContext t trace ip methodId methodVersion callee).2 := by
  have hsplit : constructContext t trace ip methodId methodVersion callee = _ :=
    (congrArg (t.addPath contextTreeRootId) (by simp)).trans
      (addPath_append t contextTreeRootId
        (callerFrames trace ++ [leafFrame ip methodId methodVersion]) [callee])
  rw [hsplit]
  refine addContext_pos ?_ (addPath_lt _ h h.root)
  exact ContextTree.addPath_ensures (fun _ _ _ h hq => h.grow hq) (fun _ h => h) _ h h.root

theorem TreeStep.root_metrics (hs : TreeStep cfg env s s') (hlinked : s.contextTree.Linked)
    (h : (s.contextTree.contextMap 0).metrics = none) :
    (s'.contextTree.contextMap 0).metrics = none := by
  cases hs with
  | same htree _ => rw [htree, h]
  | build _ htree _ =>
    rw [htree, (constructContext_extends hlinked _ _ _ _ _).old 0 hlinked.root, h]
  | record pc methodId version inst _ _ hctxt _ htree _ =>
    have hpos := constructContext_pos hlinked env.trace pc methodId version inst.frame
    rw [← hctxt] at hpos
    rw [htree, ContextTree.setMetrics]
    simp only [Function.update_of_ne hpos.ne]
    rw [(constructContext_extends hlinked _ _ _ _ _).old 0 hlinked.root, h]

theorem root_metrics_run (hw : cfg.watermark.Laid) {events : List Event}
    (hrun : run (step cfg) events Thread.init = .ok s) :
    (s.contextTree.contextMap 0).metrics = none := by
  have hboth := run_keeps
    (P := fun s => History cfg s ∧ (s.contextTree.contextMap 0).metrics = none) ?_
    ⟨history_init, rfl⟩ hrun
  · exact hboth.2
  · rintro ev s s' ⟨hhist, hroot⟩ hstep
    have htree := step_treeStep hstep
    exact ⟨hhist.step hw htree, htree.root_metrics hhist.linked hroot⟩

end Root

namespace ContextTree
variable {realText : ℚ → Text} {infos : List MetricInfo} {t : ContextTree} {order : List ℕ} {m n : ℕ}

abbrev fileNode (realText : ℚ → Text) (infos : List MetricInfo) (t : ContextTree) (n : ℕ) :
    Offline.Context :=
  .ofXml (contextXml realText infos t n)

theorem mem_fileNodes (hn : n ∈ t.dump order) :
    fileNode realText infos t n ∈ (writeContexts realText infos t order).map .ofXml :=
  List.mem_map_of_mem (List.mem_map_of_mem hn)

theorem fileNode_parentId (hparent : (t.contextMap m).parent = some n) :
    (fileNode realText infos t m).parentId = (fileNode realText infos t n).id := by
  have hxml : (contextXml realText infos t m).parentId = idText n := contextXml_parentId.mpr hparent
  exact hxml

theorem callPath_dump (h : t.Linked) (hdump : t.Dumped (t.dump order)) (hn : n ∈ t.dump order) :
    ∃ path, CallPath ((writeContexts realText infos t order).map .ofXml)
      (fileNode realText infos t n) path := by
  have habove := above_root h n (hdump.known n hn)
  induction habove with
  | here =>
    refine ⟨[], .root (mem_fileNodes hn) ?_⟩
    simp [Offline.Context.ofXml, contextXml, h.rootParent]
  | @up m q hparent _ ih =>
    obtain ⟨path, hpath⟩ := ih (hdump.closed m hn q hparent)
    exact ⟨_, .child hpath (mem_fileNodes hn) (fileNode_parentId hparent)⟩

theorem leads_dump (hdump : t.Dumped (t.dump order)) (hm : m ∈ t.dump order)
    (habove : t.Above n m) :
    Leads ((writeContexts realText infos t order).map .ofXml) (fileNode realText infos t n)
      (fileNode realText infos t m) := by
  induction habove with
  | here => exact .here
  | @up m q hparent _ ih =>
    have hq := hdump.closed m hm q hparent
    exact .up (mem_fileNodes hq) (fileNode_parentId hparent) (ih hq)

theorem metricsDict_fileNode {vals : ContextMetrics} (hm : (t.contextMap n).metrics = some vals)
    (hvals : vals ≠ []) (hinfos : infos ≠ []) : (fileNode realText infos t n).metricsDict ≠ ∅ := by
  have hxml : metricsXml realText infos vals ≠ [] := by
    obtain ⟨v, vs, rfl⟩ := List.exists_cons_of_ne_nil hvals
    obtain ⟨i, is, rfl⟩ := List.exists_cons_of_ne_nil hinfos
    exact List.cons_ne_nil _ _
  obtain ⟨xs, x, hxs⟩ := (List.eq_nil_or_concat' _).resolve_left hxml
  have hsome : ∀ y ∈ metricsXml realText infos vals, y.value.isSome := by
    intro y hy
    obtain ⟨v, i, -, rfl⟩ := mem_metricsXml hy
    rfl
  rw [hxs] at hsome
  obtain ⟨v, hv⟩ := Option.isSome_iff_exists.mp (hsome x (by simp))
  have hlookup := Offline.lookup_loadMetrics xs [] (fun y hy => hsome y (by simp [hy])) hv (by simp)
  have hdict : (fileNode realText infos t n).metricsDict = loadMetrics (xs ++ [x]) ∅ := by
    rw [← hxs]
    simp [Offline.Context.ofXml, contextXml, hm]
  intro hempty
  rw [← hdict, hempty] at hlookup
  cases hlookup

theorem isDump_dump (h : t.Linked) (hroot : (t.contextMap 0).metrics = none)
    (hvals : ∀ n < t.idCounter, ∀ vals, (t.contextMap n).metrics = some vals → vals ≠ [])
    (hinfos : infos ≠ []) (horder : order.Perm (List.range t.idCounter))
    (hne : t.dump order ≠ []) :
    IsDump ((writeContexts realText infos t order).map .ofXml) (fileNode realText infos t 0) := by
  have hdump := (dump_dumped h horder).1
  have hall := (dump_dumped h horder).2
  have hnode : ∀ c ∈ (writeContexts realText infos t order).map Offline.Context.ofXml,
      ∃ n ∈ t.dump order, c = fileNode realText infos t n := by
    intro c hc
    obtain ⟨x, hx, rfl⟩ := List.mem_map.mp hc
    obtain ⟨n, hn, rfl⟩ := List.mem_map.mp hx
    exact ⟨n, hn, rfl⟩
  refine ⟨isTree_dump realText infos h horder hne, rfl, ?_, ?_, ?_⟩
  · simp [Offline.Context.ofXml, contextXml, hroot, loadMetrics]
  · intro c hc
    obtain ⟨n, hn, rfl⟩ := hnode c hc
    exact callPath_dump h hdump hn
  · intro c hc
    obtain ⟨n, hn, rfl⟩ := hnode c hc
    obtain ⟨m, hm, hmetrics, habove⟩ := hdump.source n hn
    obtain ⟨vals, hvalsEq⟩ := Option.isSome_iff_exists.mp hmetrics
    have hmem := hall m hm hmetrics
    exact ⟨_, mem_fileNodes hmem, metricsDict_fileNode hvalsEq (hvals m hm vals hvalsEq) hinfos,
      leads_dump hdump hmem habove⟩

theorem mem_ids_fileNodes {x : Offline.Text} :
    x ∈ ids ((writeContexts realText infos t order).map .ofXml) ↔ ∃ n ∈ t.dump order, idText n = x := by
  simp only [Offline.mem_ids, writeContexts, List.map_map, List.mem_map]
  constructor
  · rintro ⟨c, ⟨n, hn, rfl⟩, rfl⟩
    exact ⟨n, hn, rfl⟩
  · rintro ⟨n, hn, rfl⟩
    exact ⟨_, ⟨n, hn, rfl⟩, rfl⟩

end ContextTree

section Threads
variable {cfg : Config} {clientName : Text} {eventNames : List Text} {realText : ℚ → Text}

theorem isDump_run (hw : cfg.watermark.Laid) {events : List Event} {s : Thread}
    (hrun : run (step cfg) events Thread.init = .ok s) {order : List ℕ}
    (horder : order.Perm (List.range s.contextTree.idCounter))
    (hne : s.contextTree.dump order ≠ []) :
    IsDump ((writeContexts realText cfg.watermark.metricInfoList s.contextTree order).map .ofXml)
      (ContextTree.fileNode realText cfg.watermark.metricInfoList s.contextTree 0) := by
  have hhist := history_run hw hrun
  have hcomplete := complete_run hw hrun
  -- a recorded context shows that some event is registered
  have hsize : ∀ n < s.contextTree.idCounter, (s.contextTree.contextMap n).metrics.isSome →
      0 < cfg.watermark.numMetrics := by
    intro n hn hm
    obtain ⟨vals, hvals⟩ := Option.isSome_iff_exists.mp hm
    have hsummary := hhist.metrics n hn
    rw [hvals] at hsummary
    rw [hw.numMetrics hsummary.2.1]
    have hcur := hsummary.2.1
    omega
  obtain ⟨n, hn⟩ := List.exists_mem_of_ne_nil _ hne
  obtain ⟨m, hm, hmetrics, -⟩ := (ContextTree.mem_dump hhist.linked horder n).mp hn
  refine ContextTree.isDump_dump hhist.linked (root_metrics_run hw hrun) ?_ ?_ horder hne
  · rintro n hn vals hvals rfl
    have hlen := (hcomplete n hn [] hvals).1
    have hpos := hsize n hn (by rw [hvals]; rfl)
    rw [List.length_nil] at hlen
    omega
  · intro hnil
    have hpos := hsize m hm hmetrics
    rw [Watermark.numMetrics, hnil] at hpos
    exact lt_irrefl 0 hpos

theorem keptBy_dumps_iff (hw : cfg.watermark.Laid) {events₁ events₂ : List Event} {s₁ s₂ : Thread}
    (hrun₁ : run (step cfg) events₁ Thread.init = .ok s₁)
    (hrun₂ : run (step cfg) events₂ Thread.init = .ok s₂) {order₁ order₂ : List ℕ}
    (horder₁ : order₁.Perm (List.range s₁.contextTree.idCounter))
    (horder₂ : order₂.Perm (List.range s₂.contextTree.idCounter))
    (hne₁ : s₁.contextTree.dump order₁ ≠ []) (hne₂ : s₂.contextTree.dump order₂ ≠ []) :
    let file₁ := writeContexts realText cfg.watermark.metricInfoList s₁.contextTree order₁
    let file₂ := writeContexts realText cfg.watermark.metricInfoList s₂.contextTree order₂
    (∀ loaded, Merges [file₁, file₂] loaded → KeptBy loaded file₁ file₂) ↔
      ∀ n ∈ s₁.contextTree.dump order₁, n ∈ s₂.contextTree.dump order₂ → n = 0 := by
  intro file₁ file₂
  rw [keptBy_iff (isDump_run hw hrun₁ horder₁ hne₁) (isDump_run hw hrun₂ horder₂ hne₂)]
  simp only [ContextTree.mem_ids_fileNodes]
  have hroot : idText 0 = rootId := rfl
  constructor
  · intro h n hn₁ hn₂
    exact idText_injective ((h _ ⟨n, hn₁, rfl⟩ ⟨n, hn₂, rfl⟩).trans hroot.symm)
  · rintro h x ⟨n, hn₁, rfl⟩ ⟨n', hn₂, heq⟩
    obtain rfl := idText_injective heq
    rw [h n' hn₁ hn₂, hroot]

end Threads

/-- For every two threads and every order in which their dumps are read. -/
theorem sameTid_kept_iff (cfg : Config) (clientName : Text) (eventNames : List Text)
    (hw : setupWatermarks clientName eventNames {} = some cfg.watermark) (realText : ℚ → Text)
    (events₁ events₂ : List Event) (s₁ s₂ : Thread)
    (hrun₁ : run (step cfg) events₁ Thread.init = .ok s₁)
    (hrun₂ : run (step cfg) events₂ Thread.init = .ok s₂) (order₁ order₂ : List ℕ)
    (horder₁ : order₁.Perm (List.range s₁.contextTree.idCounter))
    (horder₂ : order₂.Perm (List.range s₂.contextTree.idCounter))
    (hne₁ : s₁.contextTree.dump order₁ ≠ []) (hne₂ : s₂.contextTree.dump order₂ ≠ []) :
    let file₁ := writeContexts realText cfg.watermark.metricInfoList s₁.contextTree order₁
    let file₂ := writeContexts realText cfg.watermark.metricInfoList s₂.contextTree order₂
    (∀ loaded, Merges [file₁, file₂] loaded → KeptBy loaded file₁ file₂) ↔
      ∀ n ∈ s₁.contextTree.dump order₁, n ∈ s₂.contextTree.dump order₂ → n = 0 :=
  keptBy_dumps_iff (laid_setupWatermarks laid_new hw) hrun₁ hrun₂ horder₁ horder₂ hne₁ hne₂

theorem sameTid_kept_tracedLeaf :
    let t := tracedLeaf.contextTree
    let file := writeContexts natText tracedConfig.watermark.metricInfoList t
      (List.range t.idCounter)
    run (step tracedConfig) (callLeafRun ++ callLeafRun) Thread.init = .ok tracedLeaf ∧
      ((∀ loaded, Merges [file, file] loaded → KeptBy loaded file file) ↔
        ∀ n ∈ t.dump (List.range t.idCounter), n ∈ t.dump (List.range t.idCounter) → n = 0) := by
  intro t file
  have hrun : run (step tracedConfig) (callLeafRun ++ callLeafRun) Thread.init = .ok tracedLeaf :=
    rfl
  have hne : t.dump (List.range t.idCounter) ≠ [] := by decide +kernel
  exact ⟨hrun, sameTid_kept_iff tracedConfig ['T'] [Offline.nearCall, Offline.hwInstructions] rfl
    natText _ _ _ _ hrun hrun _ _ (List.Perm.refl _) (List.Perm.refl _) hne hne⟩

theorem tracedLeaf_not_kept :
    let t := tracedLeaf.contextTree
    let file := writeContexts natText tracedConfig.watermark.metricInfoList t
      (List.range t.idCounter)
    ¬∀ loaded, Merges [file, file] loaded → KeptBy loaded file file := by
  intro t file h
  have hsetup : setupWatermarks ['T'] [Offline.nearCall, Offline.hwInstructions] {} =
      some tracedConfig.watermark := rfl
  have hlaid := laid_setupWatermarks laid_new hsetup
  have hrun : run (step tracedConfig) (callLeafRun ++ callLeafRun) Thread.init = .ok tracedLeaf :=
    rfl
  have hne : t.dump (List.range t.idCounter) ≠ [] := by decide +kernel
  have hmem : 4 ∈ t.dump (List.range t.idCounter) := by decide +kernel
  have hshared := (keptBy_dumps_iff hlaid hrun hrun (List.Perm.refl _) (List.Perm.refl _) hne hne).mp
    h 4 hmem hmem
  exact absurd hshared (by decide)

end Trace4J.Profiler
