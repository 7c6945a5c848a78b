import Mathlib.Order.Basic
import Mathlib.Tactic.Common

/-!
# Laminar intervals

Intervals of an ordered type, and the two ways in which the intervals of a call
tree may lie to each other: apart up to a shared endpoint, or one within the other.
-/

namespace Trace4J.Library

structure Extent (α : Type*) where
  start : α
  stop : α
deriving DecidableEq, Repr

namespace Extent
variable {α : Type*} [LE α] {a b : Extent α}

def Apart (a b : Extent α) : Prop := a.stop ≤ b.start ∨ b.stop ≤ a.start

def Within (a b : Extent α) : Prop := b.start ≤ a.start ∧ a.stop ≤ b.stop

def Laminar (a b : Extent α) : Prop := Apart a b ∨ Within a b ∨ Within b a

theorem Apart.symm (h : Apart a b) : Apart b a := Or.symm h

theorem Laminar.symm (h : Laminar a b) : Laminar b a :=
  h.imp Apart.symm Or.symm

section Decide
variable [DecidableRel fun x y : α => x ≤ y]

instance : Decidable (Apart a b) := inferInstanceAs (Decidable (_ ∨ _))
instance : Decidable (Within a b) := inferInstanceAs (Decidable (_ ∧ _))
instance : Decidable (Laminar a b) := inferInstanceAs (Decidable (_ ∨ _ ∨ _))

end Decide
end Extent
end Trace4J.Library
