import Mathlib.Data.List.Basic
import Mathlib.Tactic.Common

/-!
# Hash sets with a hash and an equality of their own

A set of elements that are told apart by `eq` and looked up only among those with the
hash of the probe. When equal elements hash alike the hash has no say in what is found.
-/

namespace Trace4J.Library
variable {α β : Type*} [DecidableEq β]

def bucketFind (hash : α → β) (eq : α → α → Bool) (elems : List α) (probe : α) : Option α :=
  (elems.filter fun a => hash a = hash probe).find? fun a => eq a probe

/-- An element equal to one that is there is not inserted. -/
def bucketInsert (hash : α → β) (eq : α → α → Bool) (elems : List α) (a : α) : List α :=
  match bucketFind hash eq elems a with
  | some _ => elems
  | none => elems ++ [a]

variable {hash : α → β} {eq : α → α → Bool} {elems : List α} {a probe : α}

theorem bucketFind_eq_find (h : ∀ a ∈ elems, eq a probe = true → hash a = hash probe) :
    bucketFind hash eq elems probe = elems.find? fun a => eq a probe := by
  rw [bucketFind, List.find?_filter]
  induction elems with
  | nil => rfl
  | cons a elems ih =>
    obtain ⟨ha, helems⟩ := List.forall_mem_cons.mp h
    by_cases he : eq a probe = true
    · simp [he, ha he]
    · simp only [List.find?_cons, Bool.eq_false_iff.mpr he, Bool.false_eq_true, and_false,
        decide_false]
      exact ih helems

theorem bucketInsert_of_find (h : bucketFind hash eq elems a = none) :
    bucketInsert hash eq elems a = elems ++ [a] := by
  rw [bucketInsert, h]

end Trace4J.Library
