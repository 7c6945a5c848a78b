import Mathlib.Logic.Relation
import Mathlib.Order.Lattice

/-!
# Chains that only go forward

A step that has one successor at most, which lies further on. What is reached from one start is
reached in order, so a chain may be picked up at any of its places, and a place behind that one
has the same predecessor in it.
-/

namespace Trace4J.Library
open Relation

variable {α β : Type*} [LinearOrder β] {pos : α → β} {r : α → α → Prop} {s a b c p : α}

structure Forward (pos : α → β) (r : α → α → Prop) : Prop where
  injective : Function.Injective pos
  unique : Relator.RightUnique r
  lt : ∀ a b, r a b → pos a < pos b

namespace Forward

theorem le (h : Forward pos r) (hab : ReflTransGen r a b) : pos a ≤ pos b := by
  induction hab with
  | refl => exact le_rfl
  | tail _ hstep ih => exact ih.trans (h.lt _ _ hstep).le

theorem reaches_of_le (h : Forward pos r) (ha : ReflTransGen r s a) (hb : ReflTransGen r s b)
    (hle : pos a ≤ pos b) : ReflTransGen r a b := by
  obtain hab | hba := ReflTransGen.total_of_right_unique h.unique ha hb
  · exact hab
  · rw [h.injective (hle.antisymm (h.le hba))]

theorem exists_last (h : Forward pos r) (ha : ReflTransGen r s a) (hc : ReflTransGen r s c)
    (hlt : pos a < pos c) : ∃ p, ReflTransGen r a p ∧ r p c := by
  have hac := h.reaches_of_le ha hc hlt.le
  obtain heq | ⟨p, hap, hpc⟩ := ReflTransGen.cases_tail hac
  · rw [heq] at hlt
    exact absurd hlt (lt_irrefl _)
  · exact ⟨p, hap, hpc⟩

theorem le_last (h : Forward pos r) (hp : ReflTransGen r s p) (hpc : r p c)
    (ha : ReflTransGen r s a) (hac : pos a < pos c) : pos a ≤ pos p := by
  by_contra hlt
  have hpa := h.reaches_of_le hp ha (not_le.mp hlt).le
  obtain heq | ⟨q, hpq, hqa⟩ := ReflTransGen.cases_head hpa
  · rw [heq] at hlt
    exact hlt le_rfl
  · rw [h.unique hpq hpc] at hqa
    exact hac.not_ge (h.le hqa)

end Forward
end Trace4J.Library
