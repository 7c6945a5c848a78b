import Trace4J.Profiler.ContextTree

/-!
# The shape of a context tree

Parents and children name each other and a parent is older than its children. A step of
`addContext` returns a child that is there or makes a new node, so a property of trees that
a new node keeps is kept by every path of `constructContext`.
-/

namespace Trace4J.Profiler
namespace ContextTree

variable {t : ContextTree} {q n : ℕ} {f : ContextFrame}

def grow (t : ContextTree) (q : ℕ) (f : ContextFrame) : ContextTree where
  contextMap n :=
    if n = t.idCounter then { frame := f, parent := some q }
    else if n = q then
      { t.contextMap q with children := (t.contextMap q).children ++ [t.idCounter] }
    else t.contextMap n
  idCounter := t.idCounter + 1

theorem addContext_cases (t : ContextTree) (f : ContextFrame) (hq : q < t.idCounter) :
    (∃ c ∈ (t.contextMap q).children, (t.contextMap c).frame = f ∧ t.addContext q f = (t, c)) ∨
      t.addContext q f = (t.grow q f, t.idCounter) := by
  unfold addContext
  cases hfind : t.findChild q f with
  | some c =>
    have hmem := List.mem_of_find?_eq_some hfind
    have heq := List.find?_some hfind
    exact .inl ⟨c, hmem, contextRefEqual_iff.mp heq, rfl⟩
  | none =>
    right
    simp only [addChild, grow, Prod.mk.injEq, and_true, ContextTree.mk.injEq]
    funext n
    have hne : q ≠ t.idCounter := by omega
    by_cases hn : n = t.idCounter
    · subst hn
      simp [Function.update, hne.symm]
    · by_cases hnq : n = q
      · subst hnq
        simp [Function.update, hn]
      · simp [Function.update, hn, hnq]

theorem grow_new : (t.grow q f).contextMap t.idCounter = { frame := f, parent := some q } :=
  if_pos rfl

theorem grow_parent (hq : q < t.idCounter) : (t.grow q f).contextMap q =
    { t.contextMap q with children := (t.contextMap q).children ++ [t.idCounter] } := by
  have hne : q ≠ t.idCounter := by omega
  simp [grow, hne]

theorem grow_other (hn : n < t.idCounter) (hnq : n ≠ q) :
    (t.grow q f).contextMap n = t.contextMap n := by
  have hne : n ≠ t.idCounter := by omega
  simp [grow, hne, hnq]

theorem grow_old (hn : n < t.idCounter) :
    ((t.grow q f).contextMap n).frame = (t.contextMap n).frame ∧
      ((t.grow q f).contextMap n).metrics = (t.contextMap n).metrics ∧
      ((t.grow q f).contextMap n).parent = (t.contextMap n).parent := by
  by_cases hnq : n = q
  · subst hnq
    rw [grow_parent hn]
    exact ⟨rfl, rfl, rfl⟩
  · rw [grow_other hn hnq]
    exact ⟨rfl, rfl, rfl⟩

theorem mem_grow_children (hq : q < t.idCounter) {c : ℕ} (hn : n < t.idCounter + 1) :
    c ∈ ((t.grow q f).contextMap n).children ↔
      (n < t.idCounter ∧ c ∈ (t.contextMap n).children) ∨ (n = q ∧ c = t.idCounter) := by
  by_cases hnew : n = t.idCounter
  · subst hnew
    rw [grow_new]
    have hne : t.idCounter ≠ q := by omega
    simp [hne]
  · have hlt : n < t.idCounter := by omega
    by_cases hnq : n = q
    · subst hnq
      rw [grow_parent hlt]
      simp [hlt]
    · rw [grow_other hlt hnq]
      simp [hlt, hnq]

/-! ## Links -/

structure Linked (t : ContextTree) : Prop where
  root : 0 < t.idCounter
  rootParent : (t.contextMap 0).parent = none
  parent : ∀ n, 0 < n → n < t.idCounter →
    ∃ q < n, (t.contextMap n).parent = some q ∧ n ∈ (t.contextMap q).children
  child : ∀ q < t.idCounter, ∀ c ∈ (t.contextMap q).children,
    0 < c ∧ c < t.idCounter ∧ (t.contextMap c).parent = some q
  nodup : ∀ q < t.idCounter, (t.contextMap q).children.Nodup

theorem linked_new : ContextTree.new.Linked := by
  refine ⟨by decide, rfl, ?_, ?_, ?_⟩
  · intro n hpos hlt
    exact absurd (show n < 1 from hlt) (by omega)
  · intro q _ c hc
    cases hc
  · intro q _
    exact List.nodup_nil

theorem Linked.grow (h : t.Linked) (hq : q < t.idCounter) : (t.grow q f).Linked := by
  have hcount : (t.grow q f).idCounter = t.idCounter + 1 := rfl
  refine ⟨Nat.succ_pos _, ?_, ?_, ?_, ?_⟩
  · rw [(grow_old h.root).2.2, h.rootParent]
  · intro n hpos hlt
    by_cases hnew : n = t.idCounter
    · subst hnew
      refine ⟨q, hq, by rw [grow_new], ?_⟩
      rw [mem_grow_children hq (by omega)]
      exact .inr ⟨rfl, rfl⟩
    · have hold : n < t.idCounter := by omega
      obtain ⟨p, hp, hparent, hmem⟩ := h.parent n hpos hold
      refine ⟨p, hp, by rw [(grow_old hold).2.2, hparent], ?_⟩
      rw [mem_grow_children hq (by omega)]
      exact .inl ⟨by omega, hmem⟩
  · intro p hp c hc
    rw [mem_grow_children hq (by omega)] at hc
    obtain ⟨hp, hc⟩ | ⟨rfl, rfl⟩ := hc
    · obtain ⟨hpos, hlt, hparent⟩ := h.child p hp c hc
      exact ⟨hpos, by omega, by rw [(grow_old hlt).2.2, hparent]⟩
    · exact ⟨by omega, by omega, by rw [grow_new]⟩
  · intro p hp
    by_cases hnew : p = t.idCounter
    · subst hnew
      rw [grow_new]
      exact List.nodup_nil
    · have hold : p < t.idCounter := by omega
      by_cases hpq : p = q
      · subst hpq
        rw [grow_parent hold]
        refine List.nodup_append.mpr ⟨h.nodup p hold, List.nodup_singleton _, ?_⟩
        rintro c hc d hd rfl
        obtain rfl := List.mem_singleton.mp hd
        exact absurd (h.child p hold _ hc).2.1 (lt_irrefl _)
      · rw [grow_other hold hpq]
        exact h.nodup p hold

theorem addContext_ensures {P : ContextTree → Prop}
    (hgrow : ∀ t q f, P t → q < t.idCounter → P (t.grow q f))
    (hlinked : ∀ t, P t → t.Linked) (h : P t) (hq : q < t.idCounter) :
    P (t.addContext q f).1 ∧ t.idCounter ≤ (t.addContext q f).1.idCounter ∧
      (t.addContext q f).2 < (t.addContext q f).1.idCounter := by
  obtain ⟨c, hc, -, hadd⟩ | hadd := addContext_cases t f hq
  · rw [hadd]
    exact ⟨h, le_rfl, ((hlinked t h).child q hq c hc).2.1⟩
  · rw [hadd]
    exact ⟨hgrow t q f h hq, Nat.le_succ _, Nat.lt_succ_self _⟩

theorem addPath_ensures {P : ContextTree → Prop}
    (hgrow : ∀ t q f, P t → q < t.idCounter → P (t.grow q f))
    (hlinked : ∀ t, P t → t.Linked) (fs : List ContextFrame) (h : P t) (hq : q < t.idCounter) :
    P (t.addPath q fs).1 := by
  induction fs generalizing t q with
  | nil => exact h
  | cons f fs ih =>
    obtain ⟨h', -, hlt⟩ := addContext_ensures (f := f) hgrow hlinked h hq
    exact ih h' hlt

theorem Linked.setMetrics (h : t.Linked) (ctxt : ℕ)
    (m : ContextMetrics) : (t.setMetrics ctxt m).Linked := by
  have hold : ∀ n, ((t.setMetrics ctxt m).contextMap n).parent = (t.contextMap n).parent ∧
      ((t.setMetrics ctxt m).contextMap n).children = (t.contextMap n).children := by
    intro n
    by_cases hn : n = ctxt
    · subst hn
      simp [ContextTree.setMetrics]
    · simp [ContextTree.setMetrics, Function.update_of_ne hn]
  refine ⟨h.root, ?_, ?_, ?_, ?_⟩
  · rw [(hold 0).1, h.rootParent]
  · intro n hpos hlt
    obtain ⟨q, hq, hparent, hmem⟩ := h.parent n hpos hlt
    exact ⟨q, hq, by rw [(hold n).1, hparent], by rwa [(hold q).2]⟩
  · intro q hq c hc
    rw [(hold q).2] at hc
    rw [(hold c).1]
    exact h.child q hq c hc
  · intro q hq
    rw [(hold q).2]
    exact h.nodup q hq

theorem Linked.constructContext (h : t.Linked) (trace : CallTrace)
    (ip methodId : UInt64) (methodVersion : UInt32) (callee : ContextFrame) :
    (Profiler.constructContext t trace ip methodId methodVersion callee).1.Linked :=
  addPath_ensures (fun _ _ _ h hq => h.grow hq) (fun _ h => h) _ h h.root

end ContextTree
end Trace4J.Profiler
