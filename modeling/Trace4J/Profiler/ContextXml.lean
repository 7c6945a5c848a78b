import Trace4J.Offline.ContextManager
import Trace4J.Profiler.MethodResolution

/-!
# The contexts a thread writes

`createXMLObj` of a context and of its metrics, and what the loop of `threadEnd` leaves
in the file of a thread: the contexts with metrics and their ancestors. The loader finds
one root in it, in whatever order its nodes are read. How an output stream prints a
`double` is a parameter.
-/

namespace Trace4J.Profiler
open Offline (MetricXml ContextXml noParent ids IsTree loadContext treeManager)

section Xml
variable (realText : ℚ → Text)

/-- The integer, else the string, else the real, whichever is set first. -/
def metricText (v : MetricVal) : Text :=
  if v.i ≠ 0 then intText v.i else if v.str ≠ [] then v.str else realText v.r

def metricXml (v : MetricVal) (info : MetricInfo) : MetricXml :=
  ⟨info.eventName, info.eventMeasure, some (metricText realText v)⟩

def metricsXml (infos : List MetricInfo) (m : ContextMetrics) : List MetricXml :=
  List.zipWith (metricXml realText) m infos

def idText (n : ℕ) : Text := Nat.toDigits 10 n

def contextXml (infos : List MetricInfo) (t : ContextTree) (n : ℕ) : ContextXml where
  id := idText n
  methodId := pointerText (t.contextMap n).frame.methodId
  methodVersion := versionText (t.contextMap n).frame.methodVersion
  binaryAddr := toDecimal (t.contextMap n).frame.binaryAddr
  bci := intText (t.contextMap n).frame.bci
  parentId := ((t.contextMap n).parent.map idText).getD noParent
  metrics := (t.contextMap n).metrics.map (metricsXml realText infos)

/-- The elements in the file of a thread, `order` being that of the node map. -/
def writeContexts (infos : List MetricInfo) (t : ContextTree) (order : List ℕ) : List ContextXml :=
  (t.dump order).map (contextXml realText infos t)

end Xml

theorem idText_injective : Function.Injective idText := by
  intro a b h
  rw [← Nat.ofDigitChars_ten_toDigits (n := a), ← Nat.ofDigitChars_ten_toDigits (n := b)]
  exact congrArg (Nat.ofDigitChars 10 · 0) h

theorem idText_ne_nil (n : ℕ) : idText n ≠ [] := Nat.toDigits_ne_nil

theorem idText_ne_noParent (n : ℕ) : idText n ≠ noParent := by
  intro h
  have hmem : '-' ∈ Nat.toDigits 10 n := by
    rw [show Nat.toDigits 10 n = noParent from h]
    exact List.mem_cons_self
  exact absurd (Nat.isDigit_of_mem_toDigits (show 0 < 10 by decide) le_rfl hmem) (by decide)

namespace ContextTree
variable {t : ContextTree} {order : List ℕ}

theorem Above.lt (h : t.Linked) {a b : ℕ} (hab : t.Above a b) (hb : b < t.idCounter) :
    a < t.idCounter := by
  induction hab with
  | here => exact hb
  | up hparent _ ih => exact ih ((h.parent_lt hb hparent).trans hb)

theorem Dumped.above {d : List ℕ} (h : t.Dumped d) {a b : ℕ} (hab : t.Above a b) (hb : b ∈ d) :
    a ∈ d := by
  induction hab with
  | here => exact hb
  | up hparent _ ih => exact ih (h.closed _ hb _ hparent)

theorem above_root (h : t.Linked) (n : ℕ) (hn : n < t.idCounter) : t.Above 0 n := by
  induction n using Nat.strong_induction_on with
  | _ n ih =>
    by_cases hpos : 0 < n
    · obtain ⟨q, hq, hparent, -⟩ := h.parent n hpos hn
      exact .up hparent (ih q hq (hq.trans hn))
    · obtain rfl : n = 0 := by omega
      exact .here

theorem foldl_dumpContext (h : t.Linked) (order d : List ℕ) (hd : t.Dumped d)
    (horder : ∀ n ∈ order, n < t.idCounter) :
    t.Dumped (order.foldl t.dumpContext d) ∧ d ⊆ order.foldl t.dumpContext d ∧
      ∀ n ∈ order, (t.contextMap n).metrics.isSome → n ∈ order.foldl t.dumpContext d := by
  induction order generalizing d with
  | nil => exact ⟨hd, List.Subset.refl _, by simp⟩
  | cons ctxt order ih =>
    obtain ⟨hctxt, horder⟩ := List.forall_mem_cons.mp horder
    obtain ⟨hd', hsub, hown⟩ := dumpContext_dumped h hd hctxt
    obtain ⟨hdump, hsub', hall⟩ := ih _ hd' horder
    refine ⟨hdump, fun n hn => hsub' (hsub hn), ?_⟩
    intro n hn hmetrics
    obtain rfl | hn := List.mem_cons.mp hn
    · exact hsub' (hown hmetrics)
    · exact hall n hn hmetrics

theorem dump_dumped (h : t.Linked) (horder : order.Perm (List.range t.idCounter)) :
    t.Dumped (t.dump order) ∧
      ∀ n < t.idCounter, (t.contextMap n).metrics.isSome → n ∈ t.dump order := by
  have hmem : ∀ n, n ∈ order ↔ n < t.idCounter := by
    intro n
    rw [horder.mem_iff, List.mem_range]
  obtain ⟨hdump, -, hall⟩ := foldl_dumpContext h order [] t.dumped_nil fun n hn => (hmem n).mp hn
  exact ⟨hdump, fun n hn => hall n ((hmem n).mpr hn)⟩

theorem mem_dump (h : t.Linked) (horder : order.Perm (List.range t.idCounter)) (n : ℕ) :
    n ∈ t.dump order ↔ ∃ m < t.idCounter, (t.contextMap m).metrics.isSome ∧ t.Above n m := by
  obtain ⟨hdump, hall⟩ := dump_dumped h horder
  constructor
  · exact hdump.source n
  · rintro ⟨m, hm, hmetrics, habove⟩
    exact hdump.above habove (hall m hm hmetrics)

theorem root_mem_dump (h : t.Linked) (horder : order.Perm (List.range t.idCounter))
    (hne : t.dump order ≠ []) : 0 ∈ t.dump order := by
  obtain ⟨n, hn⟩ := List.exists_mem_of_ne_nil _ hne
  have hdump := (dump_dumped h horder).1
  exact hdump.above (above_root h n (hdump.known n hn)) hn

theorem isTree_dump (realText : ℚ → Text) (infos : List MetricInfo) (h : t.Linked)
    (horder : order.Perm (List.range t.idCounter)) (hne : t.dump order ≠ []) :
    IsTree ((writeContexts realText infos t order).map .ofXml)
      (.ofXml (contextXml realText infos t 0)) := by
  have hdump := (dump_dumped h horder).1
  have hids : ids ((writeContexts realText infos t order).map .ofXml) =
      (t.dump order).map idText := by
    simp only [ids, writeContexts, List.map_map]
    rfl
  have hnode : ∀ c ∈ (writeContexts realText infos t order).map Offline.Context.ofXml,
      ∃ n ∈ t.dump order, c = .ofXml (contextXml realText infos t n) := by
    intro c hc
    obtain ⟨x, hx, rfl⟩ := List.mem_map.mp hc
    obtain ⟨n, hn, rfl⟩ := List.mem_map.mp hx
    exact ⟨n, hn, rfl⟩
  refine ⟨?_, ?_, ?_, ?_, ?_, ?_, ?_⟩
  · rw [hids]
    exact hdump.nodup.map idText_injective
  · intro c hc
    obtain ⟨n, -, rfl⟩ := hnode c hc
    exact idText_ne_nil n
  · intro c hc
    obtain ⟨n, -, rfl⟩ := hnode c hc
    rfl
  · exact List.mem_map_of_mem (List.mem_map_of_mem (root_mem_dump h horder hne))
  · simp [Offline.Context.ofXml, contextXml, h.rootParent]
  · rw [hids]
    intro hmem
    obtain ⟨n, -, hn⟩ := List.mem_map.mp hmem
    exact idText_ne_noParent n hn
  · intro c hc hroot
    obtain ⟨n, hn, rfl⟩ := hnode c hc
    have hpos : 0 < n := by
      by_contra hzero
      obtain rfl : n = 0 := by omega
      exact hroot rfl
    obtain ⟨q, -, hparent, -⟩ := h.parent n hpos (hdump.known n hn)
    rw [hids]
    refine List.mem_map.mpr ⟨q, hdump.closed n hn q hparent, ?_⟩
    simp [Offline.Context.ofXml, contextXml, hparent]

theorem loadContext_dump (realText : ℚ → Text) (infos : List MetricInfo) (h : t.Linked)
    (horder : order.Perm (List.range t.idCounter)) (hne : t.dump order ≠ [])
    {loaded : List ContextXml} (hloaded : loaded.Perm (writeContexts realText infos t order)) :
    loadContext loaded = some (treeManager ((writeContexts realText infos t order).map .ofXml)
      (.ofXml (contextXml realText infos t 0))) := by
  have htree := isTree_dump realText infos h horder hne
  have hperm := hloaded.map Offline.Context.ofXml
  rw [loadContext, (htree.perm hperm).addContexts, htree.treeManager_perm hperm]
  simp [treeManager]

end ContextTree

/-- For every tree, every assignment of metrics and every order of the node map. -/
theorem threadEnd_writes (realText : ℚ → Text) (infos : List MetricInfo) (t : ContextTree)
    (h : t.Linked) (order : List ℕ) (horder : order.Perm (List.range t.idCounter)) :
    ((writeContexts realText infos t order).map ContextXml.id).Nodup ∧
      (∀ x, x ∈ writeContexts realText infos t order ↔
        ∃ n m, m < t.idCounter ∧ (t.contextMap m).metrics.isSome ∧ t.Above n m ∧
          x = contextXml realText infos t n ∧
          x.metrics = (t.contextMap n).metrics.map (metricsXml realText infos)) ∧
      (∀ x ∈ writeContexts realText infos t order, x.parentId ≠ noParent →
        ∃ q ∈ writeContexts realText infos t order, x.parentId = q.id) ∧
      (writeContexts realText infos t order ≠ [] →
        contextXml realText infos t 0 ∈ writeContexts realText infos t order ∧
        (contextXml realText infos t 0).parentId = noParent ∧
        ∀ loaded, loaded.Perm (writeContexts realText infos t order) →
          ∃ mgr, loadContext loaded = some mgr ∧ mgr.rootSet = {idText 0}) := by
  have hdump := (ContextTree.dump_dumped h horder).1
  refine ⟨?_, ?_, ?_, ?_⟩
  · rw [writeContexts, List.map_map]
    exact hdump.nodup.map idText_injective
  · intro x
    rw [writeContexts, List.mem_map]
    constructor
    · rintro ⟨n, hn, rfl⟩
      obtain ⟨m, hm, hmetrics, habove⟩ := (ContextTree.mem_dump h horder n).mp hn
      exact ⟨n, m, hm, hmetrics, habove, rfl, rfl⟩
    · rintro ⟨n, m, hm, hmetrics, habove, rfl, -⟩
      exact ⟨n, (ContextTree.mem_dump h horder n).mpr ⟨m, hm, hmetrics, habove⟩, rfl⟩
  · intro x hx hparent
    obtain ⟨n, hn, rfl⟩ := List.mem_map.mp hx
    cases hq : (t.contextMap n).parent with
    | none => exact absurd (by simp [contextXml, hq]) hparent
    | some q =>
      refine ⟨_, List.mem_map_of_mem (hdump.closed n hn q hq), ?_⟩
      simp [contextXml, hq]
  · intro hne
    have hne' : t.dump order ≠ [] := fun hnil => hne (by rw [writeContexts, hnil, List.map_nil])
    refine ⟨List.mem_map_of_mem (ContextTree.root_mem_dump h horder hne'),
      by simp [contextXml, h.rootParent], ?_⟩
    intro loaded hloaded
    exact ⟨_, ContextTree.loadContext_dump realText infos h horder hne' hloaded, rfl⟩

def forkTree : ContextTree :=
  (((ContextTree.new.addPath 0 [{ bci := 1 }, { bci := 2 }]).1.addPath 0
    [{ bci := 3 }]).1).setMetrics 2 []

theorem threadEnd_writes_forkTree :
    let t := forkTree
    let order := [3, 2, 0, 1]
    t.Linked ∧ order.Perm (List.range t.idCounter) ∧
      ∀ loaded, loaded.Perm (writeContexts (fun _ => []) [] t order) →
        ∃ mgr, loadContext loaded = some mgr ∧ mgr.rootSet = {idText 0} := by
  intro t order
  have hroot : 0 < ContextTree.new.idCounter := by decide
  have hone : (ContextTree.new.addPath 0 [{ bci := 1 }, { bci := 2 }]).1.Linked :=
    ContextTree.addPath_ensures (fun _ _ _ h hq => h.grow hq) (fun _ h => h) _
      ContextTree.linked_new hroot
  have htwo := ContextTree.addPath_ensures (fun _ _ _ h hq => h.grow hq) (fun _ h => h)
    [{ bci := 3 }] hone hone.root
  have hlinked : t.Linked := htwo.setMetrics 2 []
  have horder : order.Perm (List.range t.idCounter) := by decide
  refine ⟨hlinked, horder, ?_⟩
  exact ((threadEnd_writes (fun _ => []) [] t hlinked order horder).2.2.2 (by decide)).2.2

end Trace4J.Profiler
