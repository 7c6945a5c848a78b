import Mathlib.Data.Fintype.Order
import Mathlib.Logic.Relation

/-!
# Halting on a finite state space

A process whose states are finitely many halts from a state, on every path, exactly when
no cycle can be reached from it. Halting is accessibility: `r b a` reads "`b` is a
successor of `a`".
-/

namespace Trace4J.Library
open Relation

variable {α : Type*} {r : α → α → Prop} {a b : α}

theorem acc_of_reachable (h : Acc r a) (hb : ReflTransGen r b a) : Acc r b := by
  induction hb using ReflTransGen.head_induction_on with
  | refl => exact h
  | head hstep _ ih => exact ih.inv hstep

theorem not_transGen_self (h : Acc r a) : ¬TransGen r a a := by
  intro hcycle
  have hacc := h.transGen
  induction hacc with
  | intro a _ ih => exact ih a hcycle h hcycle

theorem acc_of_no_cycle [Finite α] (h : ∀ b, ReflTransGen r b a → ¬TransGen r b b) : Acc r a := by
  let reached := {b // ReflTransGen r b a}
  let before : reached → reached → Prop := fun x y => TransGen r x.1 y.1
  have htrans : IsTrans reached before := ⟨fun _ _ _ => TransGen.trans⟩
  have hirrefl : Std.Irrefl before := ⟨fun x => h x.1 x.2⟩
  have hwf : WellFounded before := Finite.wellFounded_of_trans_of_irrefl before
  suffices hall : ∀ x : reached, Acc r x.1 from hall ⟨a, .refl⟩
  intro x
  induction x using hwf.induction with
  | h x ih =>
    constructor
    intro b hb
    exact ih ⟨b, .head hb x.2⟩ (.single hb)

theorem acc_iff_no_cycle [Finite α] :
    Acc r a ↔ ¬∃ b, ReflTransGen r b a ∧ TransGen r b b := by
  constructor
  · rintro h ⟨b, hb, hcycle⟩
    exact not_transGen_self (acc_of_reachable h hb) hcycle
  · intro h
    exact acc_of_no_cycle fun b hb hcycle => h ⟨b, hb, hcycle⟩

end Trace4J.Library
