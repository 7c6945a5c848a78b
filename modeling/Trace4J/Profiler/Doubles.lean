import Mathlib.Data.List.DropRight
import Mathlib.Data.Rat.Floor
import Mathlib.Tactic.NormNum
import Trace4J.Library.SignificantDigits
import Trace4J.Profiler.MetricsHistory

/-!
# Running means in double precision

`UpdateVarianceAndMean` as the machine computes it, every operation rounded to 53 binary
digits, and the text that an output stream makes of a `double`, which has six significant
decimal digits. The numbers here are far from the least and the greatest exponent.
-/

namespace Trace4J.Profiler
open Library SignificantDigits RoundedMean

def double (x : ℚ) : ℚ := roundTo 2 53 x

def updateDouble (sampleNum newValue : ℕ) (w : Welford) : Welford :=
  if sampleNum < 2 then ⟨double newValue, 0, 0⟩
  else
    let delta := double (double newValue - w.mean)
    let mean := double (w.mean + double (delta / double sampleNum))
    let delta2 := double (double newValue - mean)
    let m2 := double (w.m2 + double (delta * delta2))
    ⟨mean, double (m2 / double (sampleNum - 1 : ℕ)), m2⟩

/-! ## The text of a double -/

def sixDigits (x : ℚ) : ℕ × ℤ :=
  let m := (roundHalfEven (x / unit 10 6 x)).toNat
  if m = 10 ^ 6 then (10 ^ 5, Int.log 10 x + 1) else (m, Int.log 10 x)

def trimZeros (s : Text) : Text := s.rdropWhile (· = '0')

def pointed (whole frac : Text) : Text := if frac = [] then whole else whole ++ '.' :: frac

def exponentText (e : ℤ) : Text :=
  let digits := Nat.toDigits 10 e.natAbs
  'e' :: (if e < 0 then '-' else '+') :: if e.natAbs < 10 then '0' :: digits else digits

/-- The format `%g`. -/
def magnitudeText (x : ℚ) : Text :=
  let digits := Nat.toDigits 10 (sixDigits x).1
  let e := (sixDigits x).2
  if e < -4 ∨ 6 ≤ e then pointed (digits.take 1) (trimZeros (digits.drop 1)) ++ exponentText e
  else if e < 0 then pointed ['0'] (List.replicate (-e - 1).toNat '0' ++ trimZeros digits)
  else pointed (digits.take (e.toNat + 1)) (trimZeros (digits.drop (e.toNat + 1)))

/-- `os << x` -/
def doubleText (x : ℚ) : Text :=
  if x = 0 then ['0'] else if x < 0 then '-' :: magnitudeText (-x) else magnitudeText x

/-! ## Rounding -/

theorem rounds_double : Rounds double (1 / 2 ^ 53) where
  error x := by
    have herror := abs_roundTo_sub_le (b := 2) (p := 53) (by decide) x
    norm_num at herror ⊢
    exact herror
  mono x y hx hxy := roundTo_mono (by decide) (by decide) hx hxy
  small := by norm_num

theorem double_eq {x : ℚ} (h : Representable 2 53 x) : double x = x :=
  roundTo_of_representable (by decide) h

theorem double_natCast {n : ℕ} (h : n < 2 ^ 53) : double n = n := by
  refine double_eq ⟨n, 0, ?_, by simp⟩
  rw [Nat.abs_cast]
  exact_mod_cast h

theorem double_two_pow (k : ℕ) : double (2 ^ k) = 2 ^ k :=
  double_eq ⟨1, k, by norm_num, by simp⟩

/-! ## The mean of the recorded counts -/

variable {xs : List ℕ}

theorem updateDouble_mean (n x : ℕ) (w : Welford) :
    (updateDouble n x w).mean = RoundedMean.step double n x w.mean := by
  unfold updateDouble RoundedMean.step
  split_ifs <;> rfl

theorem runWelford_mean (xs : List ℕ) :
    (runWelford updateDouble xs).mean = runningMean double xs := by
  induction xs using List.reverseRecOn with
  | nil => rfl
  | append_singleton xs x ih => rw [runWelford_append, updateDouble_mean, ih, runningMean_append]

theorem runningMean_bounds (hxs : ∀ x ∈ xs, x < 2 ^ 64) :
    0 ≤ runningMean double xs ∧ runningMean double xs ≤ 2 ^ 64 := by
  have htwo : double 2 = 2 := by simpa using double_two_pow 1
  refine rounds_double.runningMean_between htwo (double_two_pow 64) (by positivity) ?_
  intro x hx
  exact_mod_cast (hxs x hx).le

/-- Far from the 53 binary digits: 21 of them are right after `2 ^ 30` values. -/
theorem runningMean_near (hlen : xs.length ≤ 2 ^ 30) {q : ℚ}
    (hsum : (xs.sum : ℚ) = xs.length * q) (hne : xs ≠ []) :
    |runningMean double xs - q| ≤ 1 / 2 ^ 21 * q := by
  have hn : (0 : ℚ) < xs.length := by exact_mod_cast List.length_pos_of_ne_nil hne
  have hnle : (xs.length : ℚ) ≤ 2 ^ 30 := by exact_mod_cast hlen
  have hq : 0 ≤ q := by
    apply nonneg_of_mul_nonneg_right _ hn
    rw [← hsum]
    exact Nat.cast_nonneg _
  have herror := rounds_double.runningMean_error (N := 2 ^ 30)
    (fun n hn => double_natCast (hn.trans_lt (by norm_num))) (by norm_num) hlen
  rw [hsum, ← mul_sub, abs_mul, abs_of_pos hn] at herror
  have hdiv : |runningMean double xs - q| ≤ 4 * (1 / 2 ^ 53) * xs.length * q := by
    apply le_of_mul_le_mul_left _ hn
    linarith
  refine hdiv.trans (mul_le_mul_of_nonneg_right ?_ hq)
  linarith

/-! ## Six digits -/

theorem sixDigits_spec {x : ℚ} (hx : 0 < x) :
    10 ^ 5 ≤ (sixDigits x).1 ∧ (sixDigits x).1 < 10 ^ 6 ∧
      ((sixDigits x).1 : ℚ) * 10 ^ ((sixDigits x).2 - 5) = roundTo 10 6 x := by
  have hunit : (unit 10 6 x : ℚ) = 10 ^ (Int.log 10 x - 5) := by
    have hexp : Int.log 10 x + 1 - (6 : ℕ) = Int.log 10 x - 5 := by omega
    rw [unit, abs_of_pos hx, hexp, Nat.cast_ofNat]
  have hu : (0 : ℚ) < unit 10 6 x := unit_pos (by decide)
  set z := roundHalfEven (x / unit 10 6 x) with hz
  have hlo : 10 ^ 5 ≤ z := by
    apply le_roundHalfEven
    rw [le_div_iff₀ hu, hunit]
    have hlog := Int.zpow_log_le_self (b := 10) (by decide) hx
    have hten : (10 : ℚ) ≠ 0 := by norm_num
    have hsplit : ((10 ^ 5 : ℤ) : ℚ) * 10 ^ (Int.log 10 x - 5) = (10 : ℕ) ^ Int.log 10 x := by
      rw [Int.cast_pow, Int.cast_ofNat, Nat.cast_ofNat, zpow_sub₀ hten, zpow_ofNat]
      exact mul_div_cancel₀ _ (pow_ne_zero 5 hten)
    rwa [hsplit]
  have hhi : z ≤ 10 ^ 6 := by
    have hle := (le_abs_self z).trans (abs_roundHalfEven_le (b := 10) (p := 6) (by decide))
    exact_mod_cast hle
  have hround : roundTo 10 6 x = z * 10 ^ (Int.log 10 x - 5) := by rw [roundTo, ← hz, hunit]
  obtain ⟨m, hm⟩ := Int.eq_ofNat_of_zero_le (show 0 ≤ z by omega)
  have hdigits : sixDigits x =
      if m = 10 ^ 6 then (10 ^ 5, Int.log 10 x + 1) else (m, Int.log 10 x) := by
    rw [sixDigits, ← hz, hm, Int.toNat_natCast]
  rw [hdigits]
  split_ifs with hcarry
  · refine ⟨le_rfl, by norm_num, ?_⟩
    rw [hround, hm, hcarry, show Int.log 10 x + 1 - 5 = (Int.log 10 x - 5) + 1 by ring,
      zpow_add_one₀ (by norm_num)]
    push_cast
    ring
  · refine ⟨by omega, by omega, ?_⟩
    rw [hround, hm]
    push_cast
    rfl

end Trace4J.Profiler
