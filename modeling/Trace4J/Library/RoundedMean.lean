import Mathlib.Algebra.Order.Field.Basic
import Mathlib.Data.Nat.Cast.Order.Ring
import Mathlib.Tactic.FieldSimp
import Mathlib.Tactic.Linarith
import Mathlib.Tactic.Positivity
import Mathlib.Tactic.Ring

/-!
# Running means that are rounded

The running mean of a list of natural numbers when every operation is rounded. It stays
between the values that came, and its distance from the exact mean grows with the number
of the values only.
-/

namespace Trace4J.Library.RoundedMean

/-- The number that a fold gives to its last value. -/
theorem foldl_numbered {α β : Type*} (f : ℕ → α → β → β) (xs : List α) (s : ℕ × β) :
    (xs.foldl (fun (s : ℕ × β) x => (s.1 + 1, f (s.1 + 1) x s.2)) s).1 = s.1 + xs.length := by
  induction xs generalizing s with
  | nil => rfl
  | cons x xs ih =>
    rw [List.foldl_cons, ih, List.length_cons]
    omega

section Definitions
variable {K : Type*} [Field K] (fl : K → K)

def step (n x : ℕ) (mean : K) : K :=
  if n < 2 then fl x else fl (mean + fl (fl (fl x - mean) / fl n))

def runningMean (xs : List ℕ) : K :=
  (xs.foldl (fun (s : ℕ × K) x => (s.1 + 1, step fl (s.1 + 1) x s.2)) (0, 0)).2

theorem runningMean_append (xs : List ℕ) (x : ℕ) :
    runningMean fl (xs ++ [x]) = step fl (xs.length + 1) x (runningMean fl xs) := by
  have hcount := foldl_numbered (step fl) xs (0, 0)
  rw [zero_add] at hcount
  rw [runningMean, List.foldl_append, List.foldl_cons, List.foldl_nil, hcount]
  rfl

end Definitions

variable {K : Type*} [Field K] [LinearOrder K] [IsStrictOrderedRing K]

/-- `fl` rounds with relative error `u`, and keeps the order of what is not negative. -/
structure Rounds (fl : K → K) (u : K) : Prop where
  error : ∀ x, |fl x - x| ≤ u * |x|
  mono : ∀ x y, 0 ≤ x → x ≤ y → fl x ≤ fl y
  small : u ≤ 1 / 1000

namespace Rounds
variable {fl : K → K} {u m x X d S B : K} {n N : ℕ} {xs : List ℕ}

theorem unit_nonneg (h : Rounds fl u) : 0 ≤ u := by
  have herror := (abs_nonneg _).trans (h.error 1)
  rwa [abs_one, mul_one] at herror

theorem nonneg (h : Rounds fl u) (hx : 0 ≤ x) : 0 ≤ fl x := by
  have herror := (abs_le.mp (h.error x)).1
  have hsmall := h.small
  rw [abs_of_nonneg hx] at herror
  nlinarith

theorem nonpos (h : Rounds fl u) (hx : x ≤ 0) : fl x ≤ 0 := by
  have herror := (abs_le.mp (h.error x)).2
  have hsmall := h.small
  rw [abs_of_nonpos hx] at herror
  nlinarith

theorem abs_le_mul (h : Rounds fl u) (x : K) : |fl x| ≤ (1 + u) * |x| := by
  calc |fl x| = |(fl x - x) + x| := by rw [sub_add_cancel]
    _ ≤ |fl x - x| + |x| := abs_add_le _ _
    _ ≤ u * |x| + |x| := by linarith [h.error x]
    _ = (1 + u) * |x| := by ring

theorem abs_mul_sub_le (h : Rounds fl u) (hd : 0 ≤ d) (x : K) :
    |d * fl x - d * x| ≤ u * |d * x| := by
  calc |d * fl x - d * x| = d * |fl x - x| := by rw [← mul_sub, abs_mul, abs_of_nonneg hd]
    _ ≤ d * (u * |x|) := mul_le_mul_of_nonneg_left (h.error x) hd
    _ = u * |d * x| := by
      rw [abs_mul, abs_of_nonneg hd]
      ring

/-! ## Between the values -/

theorem abs_correction_le (h : Rounds fl u) (hd : 2 ≤ d) : |fl (fl x / d)| ≤ |x| := by
  have hu := h.unit_nonneg
  have hsmall := h.small
  have hx := abs_nonneg x
  have hquot : |fl x / d| ≤ (1 + u) * |x| / 2 := by
    rw [abs_div, abs_of_pos (by linarith : 0 < d)]
    apply div_le_div₀ (by positivity) (h.abs_le_mul x) two_pos hd
  calc |fl (fl x / d)| ≤ (1 + u) * |fl x / d| := h.abs_le_mul _
    _ ≤ (1 + u) * ((1 + u) * |x| / 2) := mul_le_mul_of_nonneg_left hquot (by linarith)
    _ = (1 + u) * (1 + u) / 2 * |x| := by ring
    _ ≤ 1 * |x| := by
      apply mul_le_mul_of_nonneg_right _ hx
      nlinarith
    _ = |x| := one_mul _

theorem step_between (h : Rounds fl u) (hd : 2 ≤ d) (hm : 0 ≤ m) (hmB : m ≤ B) (hX : 0 ≤ X)
    (hXB : X ≤ B) : 0 ≤ m + fl (fl (X - m) / d) ∧ m + fl (fl (X - m) / d) ≤ B := by
  have hcorrection := h.abs_correction_le (x := X - m) hd
  have hd0 : 0 ≤ d := by linarith
  obtain hle | hlt := le_or_gt m X
  · have hpos : 0 ≤ fl (fl (X - m) / d) :=
      h.nonneg (div_nonneg (h.nonneg (sub_nonneg.mpr hle)) hd0)
    rw [abs_of_nonneg hpos, abs_of_nonneg (sub_nonneg.mpr hle)] at hcorrection
    constructor <;> linarith
  · have hneg : fl (fl (X - m) / d) ≤ 0 :=
      h.nonpos (div_nonpos_of_nonpos_of_nonneg (h.nonpos (sub_nonpos.mpr hlt.le)) hd0)
    rw [abs_of_nonpos hneg, abs_of_neg (sub_neg.mpr hlt)] at hcorrection
    constructor <;> linarith

theorem runningMean_between (h : Rounds fl u) (htwo : fl 2 = 2) (hB : fl B = B) (hB0 : 0 ≤ B)
    (hxs : ∀ x ∈ xs, (x : K) ≤ B) : 0 ≤ runningMean fl xs ∧ runningMean fl xs ≤ B := by
  have hle : ∀ x : K, 0 ≤ x → x ≤ B → fl x ≤ B := fun x hx hxB => hB ▸ h.mono x B hx hxB
  induction xs using List.reverseRecOn with
  | nil => exact ⟨le_rfl, hB0⟩
  | append_singleton xs x ih =>
    obtain ⟨hm, hmB⟩ := ih fun y hy => hxs y (List.mem_append_left _ hy)
    have hx : (0 : K) ≤ x := Nat.cast_nonneg x
    have hxB := hxs x (by simp)
    rw [runningMean_append, step]
    split_ifs with hfirst
    · exact ⟨h.nonneg hx, hle _ hx hxB⟩
    · have hd : 2 ≤ fl ((xs.length + 1 : ℕ) : K) := by
        have hcount : (2 : K) ≤ ((xs.length + 1 : ℕ) : K) := by
          exact_mod_cast not_lt.mp hfirst
        exact htwo ▸ h.mono _ _ zero_le_two hcount
      obtain ⟨hlo, hhi⟩ := h.step_between hd hm hmB (h.nonneg hx) (hle _ hx hxB)
      exact ⟨h.nonneg hlo, hle _ hlo hhi⟩

/-! ## The distance from the exact mean -/

theorem step_error (h : Rounds fl u) {k : K} (hk : 2 ≤ k) (hx : 0 ≤ x) (hm : 0 ≤ m) (hS : 0 ≤ S)
    (hmS : m ≤ 101 / 100 * S) (hprod : (k - 1) * m ≤ 101 / 100 * S)
    (herror : |(k - 1) * m - S| ≤ 4 * u * (k - 1) * S) :
    |k * fl (m + fl (fl (fl x - m) / k)) - (S + x)| ≤ 4 * u * k * (S + x) := by
  have hu := h.unit_nonneg
  have hsmall := h.small
  set X := fl x with hXdef
  set δ := fl (X - m) with hδdef
  set d := fl (δ / k) with hddef
  have hX : |X - x| ≤ u * x := by
    have he := h.error x
    rwa [abs_of_nonneg hx] at he
  have hX0 : 0 ≤ X := h.nonneg hx
  have hXle : X ≤ (1 + u) * x := by linarith [(abs_le.mp hX).2]
  have hA : |X - m| ≤ X + m := by
    rw [abs_le]
    constructor <;> linarith
  have hδ : |δ - (X - m)| ≤ u * |X - m| := h.error _
  have hδle : |δ| ≤ (1 + u) * |X - m| := h.abs_le_mul _
  have hk0 : 0 < k := by linarith
  have hkd : |k * d - δ| ≤ u * |δ| := by
    have he := h.abs_mul_sub_le hk0.le (δ / k)
    rwa [mul_div_cancel₀ _ hk0.ne'] at he
  -- all rounding errors against the distance of the new value from the old mean
  set A := |X - m| with hAdef
  have hA0 : 0 ≤ A := abs_nonneg _
  have hux : u * x ≤ 1 / 1000 * x := mul_le_mul_of_nonneg_right hsmall hx
  have hAle : A ≤ 1001 / 1000 * x + 101 / 100 * S := by linarith
  have huA : u * A ≤ 1 / 1000 * A := mul_le_mul_of_nonneg_right hsmall hA0
  have huuA : u * (u * A) ≤ 1 / 1000 * (u * A) :=
    mul_le_mul_of_nonneg_right hsmall (mul_nonneg hu hA0)
  have huδ : u * |δ| ≤ 1001 / 1000 * (u * A) := by
    have hle := mul_le_mul_of_nonneg_left hδle hu
    linarith
  have hsum : |k * m + k * d| ≤ 102 / 100 * S + 101 / 100 * x := by
    have hsplit : k * m + k * d = ((k - 1) * m + X) + (k * d - δ) + (δ - (X - m)) := by ring
    have hbase : |(k - 1) * m + X| = (k - 1) * m + X :=
      abs_of_nonneg (add_nonneg (mul_nonneg (by linarith) hm) hX0)
    calc |k * m + k * d| ≤ |(k - 1) * m + X| + |k * d - δ| + |δ - (X - m)| := by
          rw [hsplit]
          exact abs_add_three _ _ _
      _ ≤ ((k - 1) * m + X) + 1001 / 1000 * (u * A) + u * A := by
          rw [hbase]
          linarith
      _ ≤ 102 / 100 * S + 101 / 100 * x := by linarith
  have hlast : |k * fl (m + d) - (k * m + k * d)| ≤ u * (102 / 100 * S + 101 / 100 * x) := by
    have he := h.abs_mul_sub_le hk0.le (m + d)
    rw [mul_add] at he
    exact he.trans (mul_le_mul_of_nonneg_left hsum hu)
  have hparts : k * fl (m + d) - (S + x) = (k * fl (m + d) - (k * m + k * d)) + (k * d - δ) +
      (δ - (X - m)) + (X - x) + ((k - 1) * m - S) := by ring
  have htriangle : |k * fl (m + d) - (S + x)| ≤ |k * fl (m + d) - (k * m + k * d)| +
      |k * d - δ| + |δ - (X - m)| + |X - x| + |(k - 1) * m - S| := by
    rw [hparts]
    exact (abs_add_le _ _).trans (add_le_add_left ((abs_add_le _ _).trans
      (add_le_add_left (abs_add_three _ _ _) _)) _)
  have huAle : u * A ≤ u * (1001 / 1000 * x + 101 / 100 * S) := mul_le_mul_of_nonneg_left hAle hu
  have hux0 : 0 ≤ u * x := mul_nonneg hu hx
  have huS0 : 0 ≤ u * S := mul_nonneg hu hS
  have hukx : u * x * 2 ≤ u * x * k := mul_le_mul_of_nonneg_left hk hux0
  calc |k * fl (m + d) - (S + x)| ≤ u * (102 / 100 * S + 101 / 100 * x) +
        1001 / 1000 * (u * (1001 / 1000 * x + 101 / 100 * S)) +
        u * (1001 / 1000 * x + 101 / 100 * S) + u * x + 4 * u * (k - 1) * S := by linarith
    _ ≤ 4 * u * k * (S + x) := by linarith

/-- The mean of `n` values is off by at most `4 * n` units, relative to the exact mean. -/
theorem runningMean_error (h : Rounds fl u) (hexact : ∀ n ≤ N, fl (n : K) = n)
    (hN : 4 * u * N ≤ 1 / 100) (hlen : xs.length ≤ N) :
    |xs.length * runningMean fl xs - (xs.sum : ℕ)| ≤ 4 * u * xs.length * (xs.sum : ℕ) := by
  have hu := h.unit_nonneg
  induction xs using List.reverseRecOn with
  | nil => simp [runningMean]
  | append_singleton xs x ih =>
    rw [List.length_append, List.length_singleton] at hlen
    have herror := ih (by omega)
    have hx : (0 : K) ≤ x := Nat.cast_nonneg x
    have hS : (0 : K) ≤ (xs.sum : ℕ) := Nat.cast_nonneg _
    rw [runningMean_append, step, List.length_append, List.length_singleton, List.sum_append,
      List.sum_singleton]
    split_ifs with hfirst
    · obtain rfl : xs = [] := List.length_eq_zero_iff.mp (by omega)
      have he := h.error x
      rw [abs_of_nonneg hx] at he
      have hux : 0 ≤ u * x := mul_nonneg hu hx
      simp only [List.length_nil, zero_add, Nat.cast_one, one_mul, List.sum_nil, mul_one]
      linarith
    · have hn : (1 : K) ≤ xs.length := by exact_mod_cast (show 1 ≤ xs.length by omega)
      have hlenN : (xs.length : K) ≤ N := by exact_mod_cast (show xs.length ≤ N by omega)
      have hrel : 4 * u * xs.length ≤ 1 / 100 := by nlinarith
      have hbound : 4 * u * xs.length * (xs.sum : ℕ) ≤ 1 / 100 * (xs.sum : ℕ) :=
        mul_le_mul_of_nonneg_right hrel hS
      obtain ⟨hlo, hhi⟩ := abs_le.mp herror
      have hm : 0 ≤ runningMean fl xs := by
        apply nonneg_of_mul_nonneg_right _ (zero_lt_one.trans_le hn)
        linarith
      have hprod : xs.length * runningMean fl xs ≤ 101 / 100 * (xs.sum : ℕ) := by linarith
      have hmS : runningMean fl xs ≤ 101 / 100 * (xs.sum : ℕ) :=
        (le_mul_of_one_le_left hm hn).trans hprod
      have hcount : ((xs.length + 1 : ℕ) : K) - 1 = xs.length := by
        push_cast
        ring
      have htwo : (2 : K) ≤ ((xs.length + 1 : ℕ) : K) := by exact_mod_cast not_lt.mp hfirst
      have hstep := h.step_error htwo hx hm hS hmS (by rwa [hcount]) (by rwa [hcount])
      rw [hexact _ hlen, Nat.cast_add xs.sum x]
      exact hstep

end Rounds
end Trace4J.Library.RoundedMean
