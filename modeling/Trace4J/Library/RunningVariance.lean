import Mathlib.Algebra.BigOperators.Group.List.Basic
import Mathlib.Algebra.Field.Basic
import Mathlib.Tactic.FieldSimp
import Mathlib.Tactic.Ring

/-!
# Running mean and variance

The mean of a list and the sum of the squared deviations from it, and how both change
when a value comes last.
-/

namespace Trace4J.Library.RunningVariance
variable {K : Type*} [Field K]

def mean (xs : List K) : K := xs.sum / xs.length

def sqDev (xs : List K) : K := (xs.map fun x => (x - mean xs) ^ 2).sum

def variance (xs : List K) : K := if xs.length < 2 then 0 else sqDev xs / (xs.length - 1)

theorem sum_sub_sq (xs : List K) (m : K) :
    (xs.map fun x => (x - m) ^ 2).sum =
      (xs.map fun x => x ^ 2).sum - 2 * m * xs.sum + xs.length * m ^ 2 := by
  induction xs with
  | nil => simp
  | cons x xs ih =>
    simp only [List.map_cons, List.sum_cons, List.length_cons, ih]
    push_cast
    ring

variable [CharZero K]

theorem sum_eq (xs : List K) : xs.sum = xs.length * mean xs := by
  cases xs with
  | nil => simp
  | cons x xs =>
    have hn : ((x :: xs).length : K) ≠ 0 := Nat.cast_ne_zero.mpr (Nat.succ_ne_zero _)
    rw [mean, mul_div_cancel₀ _ hn]

theorem sqDev_eq (xs : List K) :
    sqDev xs = (xs.map fun x => x ^ 2).sum - xs.length * mean xs ^ 2 := by
  rw [sqDev, sum_sub_sq, sum_eq xs]
  ring

theorem mean_append (xs : List K) (x : K) :
    mean (xs ++ [x]) = mean xs + (x - mean xs) / (xs.length + 1) := by
  have hn : (xs.length + 1 : K) ≠ 0 := Nat.cast_add_one_ne_zero _
  rw [mean, List.sum_append, sum_eq xs]
  simp only [List.length_append, List.length_singleton, List.sum_singleton]
  push_cast
  field_simp
  ring

theorem sqDev_append (xs : List K) (x : K) :
    sqDev (xs ++ [x]) = sqDev xs + (x - mean xs) * (x - mean (xs ++ [x])) := by
  have hn : (xs.length + 1 : K) ≠ 0 := Nat.cast_add_one_ne_zero _
  rw [sqDev_eq, sqDev_eq, mean_append]
  simp only [List.length_append, List.length_singleton, List.map_append, List.sum_append,
    List.map_singleton, List.sum_singleton]
  push_cast
  field_simp
  ring

end Trace4J.Library.RunningVariance
