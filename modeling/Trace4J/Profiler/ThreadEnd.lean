import Trace4J.Profiler.ContextTreeShape

/-!
# The dump of a context tree

The loop of `threadEnd` over the contexts of a thread: a context with metrics is
written, and after it those of its ancestors that are not written yet. A context
enters `dump_ctxt` when it is written, so one list stands for the set and the file.
-/

namespace Trace4J.Profiler
namespace ContextTree

def dumpUp (t : ContextTree) : ℕ → Option ℕ → List ℕ → List ℕ
  | 0, _, dumpCtxt => dumpCtxt
  | _, none, dumpCtxt => dumpCtxt
  | fuel + 1, some ctxt, dumpCtxt =>
    if ctxt ∈ dumpCtxt then dumpCtxt
    else dumpUp t fuel (t.contextMap ctxt).parent (dumpCtxt ++ [ctxt])

/-- The body of the loop; a parent is older than its child, so `idCounter` steps up
reach the root. -/
def dumpContext (t : ContextTree) (dumpCtxt : List ℕ) (ctxt : ℕ) : List ℕ :=
  if (t.contextMap ctxt).metrics.isSome ∧ ctxt ∉ dumpCtxt then
    dumpUp t t.idCounter (t.contextMap ctxt).parent (dumpCtxt ++ [ctxt])
  else dumpCtxt

def dump (t : ContextTree) (order : List ℕ) : List ℕ := order.foldl t.dumpContext []

inductive Above (t : ContextTree) (n : ℕ) : ℕ → Prop
  | here : Above t n n
  | up {m q : ℕ} : (t.contextMap m).parent = some q → Above t n q → Above t n m

variable {t : ContextTree}

theorem Linked.parent_lt (h : t.Linked) {n q : ℕ} (hn : n < t.idCounter)
    (hq : (t.contextMap n).parent = some q) : q < n := by
  by_cases hpos : 0 < n
  · obtain ⟨p, hp, hparent, -⟩ := h.parent n hpos hn
    rw [hparent, Option.some.injEq] at hq
    omega
  · obtain rfl : n = 0 := by omega
    rw [h.rootParent] at hq
    cases hq

structure Dumped (t : ContextTree) (dumpCtxt : List ℕ) : Prop where
  nodup : dumpCtxt.Nodup
  known : ∀ n ∈ dumpCtxt, n < t.idCounter
  closed : ∀ n ∈ dumpCtxt, ∀ q, (t.contextMap n).parent = some q → q ∈ dumpCtxt
  source : ∀ n ∈ dumpCtxt, ∃ m < t.idCounter, (t.contextMap m).metrics.isSome ∧ t.Above n m

structure Climbing (t : ContextTree) (m : ℕ) (p : Option ℕ) (dumpCtxt : List ℕ) : Prop where
  nodup : dumpCtxt.Nodup
  known : ∀ n ∈ dumpCtxt, n < t.idCounter
  closed : ∀ n ∈ dumpCtxt, ∀ q, (t.contextMap n).parent = some q → q ∈ dumpCtxt ∨ p = some q
  source : ∀ n ∈ dumpCtxt, ∃ m < t.idCounter, (t.contextMap m).metrics.isSome ∧ t.Above n m
  next : ∀ q, p = some q → q < t.idCounter ∧ t.Above q m

theorem Climbing.dumped {m : ℕ} {p : Option ℕ} {d : List ℕ} (h : t.Climbing m p d)
    (hp : ∀ q, p = some q → q ∈ d) : t.Dumped d := by
  refine ⟨h.nodup, h.known, fun n hn q hq => ?_, h.source⟩
  obtain hmem | hnext := h.closed n hn q hq
  · exact hmem
  · exact hp q hnext

theorem Above.trans {a b c : ℕ} (hab : t.Above a b) (hbc : t.Above b c) : t.Above a c := by
  induction hbc with
  | here => exact hab
  | up hparent _ ih => exact .up hparent ih

theorem Dumped.climbing {d : List ℕ} (h : t.Dumped d) {ctxt : ℕ} (hctxt : ctxt < t.idCounter) :
    t.Climbing ctxt (some ctxt) d := by
  refine ⟨h.nodup, h.known, fun n hn q hq => .inl (h.closed n hn q hq), h.source, ?_⟩
  rintro q hq
  obtain rfl := Option.some.inj hq
  exact ⟨hctxt, .here⟩

theorem Climbing.write (hlinked : t.Linked) {m ctxt : ℕ} {d : List ℕ} (hm : m < t.idCounter)
    (hmetrics : (t.contextMap m).metrics.isSome) (h : t.Climbing m (some ctxt) d)
    (hnew : ctxt ∉ d) : t.Climbing m (t.contextMap ctxt).parent (d ++ [ctxt]) := by
  obtain ⟨hlt, habove⟩ := h.next ctxt rfl
  refine ⟨?_, ?_, ?_, ?_, ?_⟩
  · refine List.nodup_append.mpr ⟨h.nodup, List.nodup_singleton _, ?_⟩
    rintro a ha b hb rfl
    exact hnew (List.mem_singleton.mp hb ▸ ha)
  · intro n hn
    obtain hn | hn := List.mem_append.mp hn
    · exact h.known n hn
    · rwa [List.mem_singleton.mp hn]
  · intro n hn q hq
    obtain hn | hn := List.mem_append.mp hn
    · obtain hin | hin := h.closed n hn q hq
      · exact .inl (List.mem_append_left _ hin)
      · exact .inl (List.mem_append_right _ (by simp [Option.some.inj hin]))
    · obtain rfl := List.mem_singleton.mp hn
      exact .inr hq
  · intro n hn
    obtain hn | hn := List.mem_append.mp hn
    · exact h.source n hn
    · obtain rfl := List.mem_singleton.mp hn
      exact ⟨m, hm, hmetrics, habove⟩
  · intro q hq
    have hqlt := hlinked.parent_lt hlt hq
    exact ⟨hqlt.trans hlt, (Above.up hq .here).trans habove⟩

theorem dumpUp_dumped (hlinked : t.Linked) {m : ℕ} (hm : m < t.idCounter)
    (hmetrics : (t.contextMap m).metrics.isSome) (fuel : ℕ) (p : Option ℕ) (d : List ℕ)
    (hfuel : ∀ q, p = some q → q < fuel) (h : t.Climbing m p d) :
    t.Dumped (dumpUp t fuel p d) ∧ d ⊆ dumpUp t fuel p d := by
  induction fuel generalizing p d with
  | zero =>
    refine ⟨h.dumped fun q hq => ?_, List.Subset.refl _⟩
    exact absurd (hfuel q hq) (Nat.not_lt_zero _)
  | succ fuel ih =>
    cases p with
    | none => exact ⟨h.dumped (by simp), List.Subset.refl _⟩
    | some ctxt =>
      simp only [dumpUp]
      split_ifs with hmem
      · refine ⟨h.dumped fun q hq => ?_, List.Subset.refl _⟩
        rwa [← Option.some.inj hq]
      · have hlt := (h.next ctxt rfl).1
        have hfuel' : ∀ q, (t.contextMap ctxt).parent = some q → q < fuel := by
          intro q hq
          have hparent := hlinked.parent_lt hlt hq
          have hctxt := hfuel ctxt rfl
          omega
        obtain ⟨hdumped, hsub⟩ := ih _ _ hfuel' (h.write hlinked hm hmetrics hmem)
        exact ⟨hdumped, fun n hn => hsub (List.mem_append_left _ hn)⟩

theorem dumpContext_dumped (hlinked : t.Linked) {d : List ℕ} (h : t.Dumped d) {ctxt : ℕ}
    (hctxt : ctxt < t.idCounter) :
    t.Dumped (t.dumpContext d ctxt) ∧ d ⊆ t.dumpContext d ctxt ∧
      ((t.contextMap ctxt).metrics.isSome → ctxt ∈ t.dumpContext d ctxt) := by
  unfold dumpContext
  split_ifs with hcase
  · obtain ⟨hmetrics, hnew⟩ := hcase
    have hfuel : ∀ q, (t.contextMap ctxt).parent = some q → q < t.idCounter :=
      fun q hq => (hlinked.parent_lt hctxt hq).trans hctxt
    obtain ⟨hdumped, hsub⟩ := dumpUp_dumped hlinked hctxt hmetrics _ _ _ hfuel
      ((h.climbing hctxt).write hlinked hctxt hmetrics hnew)
    exact ⟨hdumped, fun n hn => hsub (List.mem_append_left _ hn), fun _ => hsub (by simp)⟩
  · refine ⟨h, List.Subset.refl _, fun hmetrics => ?_⟩
    by_contra hnew
    exact hcase ⟨hmetrics, hnew⟩

theorem dumped_nil (t : ContextTree) : t.Dumped [] :=
  ⟨List.nodup_nil, by simp, by simp, by simp⟩

end ContextTree
end Trace4J.Profiler
