import Mathlib.Algebra.Group.Basic
import Mathlib.Tactic.Abel

/-!
# Counting along nested calls

A trigger carries the amount that was counted since the trigger before it. In
`CallStack` every trigger adds its amount to all open calls, so a call that
returns has counted everything between its entry and its return. `Flush` is the
cheaper machine with one pending amount: it is paid into the innermost call when
that call calls or returns, and on a return into the caller as well. The two
differ by what a callee had counted when its own last callee returned.
-/

namespace Trace4J.Library

inductive Trigger (M : Type*)
  | branch (δ : M)
  | call (δ : M)
  | ret (δ : M)

structure Call (M : Type*) where
  total : M
  inner : M
  lost : M

structure CallStack (M : Type*) where
  opened : List (Call M)
  closed : List (Call M)

structure Flush (M : Type*) where
  counts : List M
  pending : M
  recorded : List M

section Machines
variable {M : Type*} [AddCommGroup M]

def Call.count (δ : M) (k : Call M) : Call M := { k with total := k.total + δ }

def Call.entered : Call M := ⟨0, 0, 0⟩

def Call.resume (callee k : Call M) : Call M :=
  { k with inner := k.total, lost := k.lost + callee.inner }

def Call.kept (k : Call M) : M := k.total - k.lost

namespace CallStack

def pop : List (Call M) → List (Call M) → CallStack M
  | [], closed => ⟨[], closed⟩
  | [k], closed => ⟨[], k :: closed⟩
  | k :: k' :: ks, closed => ⟨k.resume k' :: ks, k :: closed⟩

def next : Trigger M → CallStack M → CallStack M
  | .branch δ, c => ⟨c.opened.map (Call.count δ), c.closed⟩
  | .call δ, c => ⟨.entered :: c.opened.map (Call.count δ), c.closed⟩
  | .ret δ, c => pop (c.opened.map (Call.count δ)) c.closed

def start : CallStack M := ⟨[.entered], []⟩

end CallStack

namespace Flush

def pay (f : Flush M) (δ : M) : Flush M := { f with pending := f.pending + δ }

def onCall (f : Flush M) : Flush M :=
  match f.counts with
  | [] => f
  | c :: cs => { f with counts := 0 :: (c + f.pending) :: cs, pending := 0 }

def onReturn (f : Flush M) : Flush M :=
  match f.counts with
  | [] => f
  | [c] => ⟨[], 0, (c + f.pending) :: f.recorded⟩
  | c :: c' :: cs => ⟨(c' + f.pending) :: cs, 0, (c + f.pending) :: f.recorded⟩

def next : Trigger M → Flush M → Flush M
  | .branch δ, f => f.pay δ
  | .call δ, f => (f.pay δ).onCall
  | .ret δ, f => (f.pay δ).onReturn

def start : Flush M := ⟨[0], 0, []⟩

end Flush

def outerCounts : M → List (Call M) → List M
  | _, [] => []
  | t, k :: ks => (k.total - t - k.lost) :: outerCounts k.total ks

structure Matches (f : Flush M) (c : CallStack M) : Prop where
  recorded : f.recorded = c.closed.map Call.kept
  empty : c.opened = [] → f.counts = []
  pending : ∀ k ks, c.opened = k :: ks → f.pending = k.total - k.inner
  counts : ∀ k ks, c.opened = k :: ks → f.counts = (k.inner - k.lost) :: outerCounts k.total ks

variable {f : Flush M} {c : CallStack M} {δ t : M} {k : Call M} {ks : List (Call M)}

theorem outerCounts_count :
    outerCounts (t + δ) (ks.map (Call.count δ)) = outerCounts t ks := by
  induction ks generalizing t with
  | nil => rfl
  | cons k ks ih =>
    simp only [List.map_cons, outerCounts, Call.count, add_sub_add_right_eq_sub]
    rw [ih]

theorem matches_start : Matches (Flush.start : Flush M) CallStack.start where
  recorded := rfl
  empty h := by cases h
  pending k ks h := by
    cases h
    simp [Flush.start, Call.entered]
  counts k ks h := by
    cases h
    simp [Flush.start, Call.entered, outerCounts]

theorem Matches.pay (h : Matches f c) (δ : M) :
    Matches (f.pay δ) ⟨c.opened.map (Call.count δ), c.closed⟩ where
  recorded := h.recorded
  empty ho := h.empty (List.map_eq_nil_iff.mp ho)
  pending k' ks' ho := by
    obtain ⟨k, ks, hk, rfl, rfl⟩ := List.map_eq_cons_iff.mp ho
    simp only [Flush.pay, h.pending k ks hk, Call.count]
    abel
  counts k' ks' ho := by
    obtain ⟨k, ks, hk, rfl, rfl⟩ := List.map_eq_cons_iff.mp ho
    simp only [Flush.pay, h.counts k ks hk, Call.count, outerCounts_count]

theorem Matches.onCall (h : Matches f c) (ho : c.opened ≠ []) :
    Matches f.onCall ⟨.entered :: c.opened, c.closed⟩ := by
  obtain ⟨k, ks, hk⟩ := List.exists_cons_of_ne_nil ho
  have hf : f.onCall = ⟨0 :: (k.inner - k.lost + f.pending) :: outerCounts k.total ks, 0,
      f.recorded⟩ := by
    simp only [Flush.onCall, h.counts k ks hk]
  rw [hf, hk, h.pending k ks hk]
  refine ⟨h.recorded, by simp, ?_, ?_⟩
  · rintro k' ks' ⟨⟩
    simp [Call.entered]
  · rintro k' ks' ⟨⟩
    simp only [Call.entered, outerCounts, sub_zero]
    congr 2
    abel

theorem Matches.onReturn (h : Matches f c) : Matches f.onReturn (.pop c.opened c.closed) := by
  rcases hk : c.opened with - | ⟨k, - | ⟨k', ks⟩⟩
  · have hf : f.onReturn = f := by simp only [Flush.onReturn, h.empty hk]
    rw [hf]
    exact ⟨h.recorded, fun _ => h.empty hk, by simp [CallStack.pop], by simp [CallStack.pop]⟩
  · have hf : f.onReturn = ⟨[], 0, (k.inner - k.lost + f.pending) :: f.recorded⟩ := by
      simp only [Flush.onReturn, h.counts k [] hk, outerCounts]
    rw [hf, h.pending k [] hk, h.recorded]
    refine ⟨?_, fun _ => rfl, by simp [CallStack.pop], by simp [CallStack.pop]⟩
    simp only [CallStack.pop, List.map_cons, Call.kept]
    congr 1
    abel
  · have hf : f.onReturn = ⟨(k'.total - k.total - k'.lost + f.pending) :: outerCounts k'.total ks, 0,
        (k.inner - k.lost + f.pending) :: f.recorded⟩ := by
      simp only [Flush.onReturn, h.counts k (k' :: ks) hk, outerCounts]
    rw [hf, h.pending k (k' :: ks) hk, h.recorded]
    refine ⟨?_, by simp [CallStack.pop], ?_, ?_⟩
    · simp only [CallStack.pop, List.map_cons, Call.kept]
      congr 1
      abel
    · rintro k'' ks'' ⟨⟩
      simp [Call.resume]
    · rintro k'' ks'' ⟨⟩
      simp only [Call.resume]
      congr 1
      abel

theorem Matches.next (h : Matches f c) (ho : c.opened ≠ []) (tr : Trigger M) :
    Matches (f.next tr) (c.next tr) := by
  cases tr with
  | branch δ => exact h.pay δ
  | call δ => exact (h.pay δ).onCall (by simpa using ho)
  | ret δ => exact (h.pay δ).onReturn

/-- The flush machine records the true totals exactly when no callee had counted
anything at the return of its own last callee. -/
theorem Matches.recorded_eq_totals (h : Matches f c) :
    f.recorded = c.closed.map Call.total ↔ ∀ k ∈ c.closed, k.lost = 0 := by
  rw [h.recorded, List.map_inj_left]
  simp only [Call.kept, sub_eq_self]

end Machines
end Trace4J.Library
