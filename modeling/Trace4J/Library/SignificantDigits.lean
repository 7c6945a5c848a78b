import Mathlib.Algebra.Order.Floor.Ring
import Mathlib.Data.Int.Log
import Mathlib.Tactic.Linarith
import Mathlib.Tactic.Positivity
import Mathlib.Tactic.Ring

/-!
# Significant digits

Rounding to an integer with ties to the even one, and from it rounding to `p` significant
digits in base `b`. A representable number stays as it is, every other one moves by at most
half a unit of its last digit, and a number close to a representable one is rounded to it.
There are no least and no greatest exponents.
-/

namespace Trace4J.Library.SignificantDigits
variable {K : Type*} [Field K] [LinearOrder K] [IsStrictOrderedRing K] [FloorRing K]

/-! ## Integers -/

def roundHalfEven (x : K) : ℤ :=
  if x - ⌊x⌋ < 1 / 2 then ⌊x⌋
  else if 1 / 2 < x - ⌊x⌋ then ⌊x⌋ + 1
  else if Even ⌊x⌋ then ⌊x⌋ else ⌊x⌋ + 1

theorem abs_roundHalfEven_sub_le (x : K) : |(roundHalfEven x : K) - x| ≤ 1 / 2 := by
  have hfloor := Int.floor_le x
  have hlt := Int.lt_floor_add_one x
  rw [abs_le]
  unfold roundHalfEven
  split_ifs <;> push_cast <;> constructor <;> linarith

theorem roundHalfEven_of_abs_lt {x : K} {n : ℤ} (h : |x - n| < 1 / 2) : roundHalfEven x = n := by
  have hround := abs_roundHalfEven_sub_le x
  have hclose : |((roundHalfEven x - n : ℤ) : K)| < 1 := by
    calc |((roundHalfEven x - n : ℤ) : K)| = |((roundHalfEven x : K) - x) + (x - n)| := by
          push_cast
          ring_nf
      _ ≤ |(roundHalfEven x : K) - x| + |x - n| := abs_add_le _ _
      _ < 1 := by linarith
  have hint : |roundHalfEven x - n| < 1 := by exact_mod_cast hclose
  exact sub_eq_zero.mp (Int.abs_lt_one_iff.mp hint)

@[simp]
theorem roundHalfEven_intCast (n : ℤ) : roundHalfEven (n : K) = n :=
  roundHalfEven_of_abs_lt (by simp)

theorem roundHalfEven_mono {x y : K} (h : x ≤ y) : roundHalfEven x ≤ roundHalfEven y := by
  have hfloor : ⌊x⌋ ≤ ⌊y⌋ := Int.floor_mono h
  obtain heq | hlt := hfloor.eq_or_lt
  · unfold roundHalfEven
    rw [heq]
    split_ifs <;> first | omega | (exfalso; linarith)
  · calc roundHalfEven x ≤ ⌊x⌋ + 1 := by
          unfold roundHalfEven
          split_ifs <;> omega
      _ ≤ ⌊y⌋ := hlt
      _ ≤ roundHalfEven y := by
          unfold roundHalfEven
          split_ifs <;> omega

theorem le_roundHalfEven {x : K} {n : ℤ} (h : n ≤ x) : n ≤ roundHalfEven x := by
  rw [← roundHalfEven_intCast (K := K) n]
  exact roundHalfEven_mono h

theorem roundHalfEven_le {x : K} {n : ℤ} (h : x ≤ n) : roundHalfEven x ≤ n := by
  rw [← roundHalfEven_intCast (K := K) n]
  exact roundHalfEven_mono h

/-! ## Digits -/

variable {b p : ℕ} {x y q ε : K}

def unit (b p : ℕ) (x : K) : K := (b : K) ^ (Int.log b |x| + 1 - p)

def roundTo (b p : ℕ) (x : K) : K := roundHalfEven (x / unit b p x) * unit b p x

def Representable (b p : ℕ) (x : K) : Prop :=
  ∃ m k : ℤ, |m| < (b : ℤ) ^ p ∧ x = m * (b : K) ^ k

section Base
variable (hb : 1 < b)
include hb

theorem base_pos : (0 : K) < b := by exact_mod_cast zero_lt_one.trans hb

theorem unit_pos : 0 < unit b p x := zpow_pos (base_pos hb) _

theorem pow_mul_unit : (b : K) ^ p * unit b p x = (b : K) ^ (Int.log b |x| + 1) := by
  rw [unit, ← zpow_natCast, ← zpow_add₀ (base_pos hb).ne']
  congr 1
  omega

theorem abs_lt_pow_mul_unit : |x| < (b : K) ^ p * unit b p x := by
  rw [pow_mul_unit hb]
  exact Int.lt_zpow_succ_log_self hb |x|

theorem pow_mul_unit_le (hx : x ≠ 0) : (b : K) ^ p * unit b p x ≤ b * |x| := by
  rw [pow_mul_unit hb, zpow_add₀ (base_pos hb).ne', zpow_one, mul_comm]
  exact mul_le_mul_of_nonneg_left (Int.zpow_log_le_self hb (abs_pos.mpr hx)) (base_pos hb).le

theorem abs_roundTo_sub_le_unit : |roundTo b p x - x| ≤ unit b p x / 2 := by
  have hu : 0 < unit b p x := unit_pos hb
  have hround := abs_roundHalfEven_sub_le (x / unit b p x)
  calc |roundTo b p x - x| =
        |(roundHalfEven (x / unit b p x) : K) - x / unit b p x| * unit b p x := by
        rw [roundTo, ← abs_of_pos hu, ← abs_mul, abs_of_pos hu, sub_mul, div_mul_cancel₀ _ hu.ne']
    _ ≤ 1 / 2 * unit b p x := mul_le_mul_of_nonneg_right hround hu.le
    _ = unit b p x / 2 := by ring

theorem abs_roundTo_sub_le (x : K) : |roundTo b p x - x| ≤ b / (2 * (b : K) ^ p) * |x| := by
  by_cases hx : x = 0
  · have hzero : roundHalfEven (0 : K) = 0 := by exact_mod_cast roundHalfEven_intCast (K := K) 0
    simp [hx, roundTo, hzero]
  · have hpow : (0 : K) < (b : K) ^ p := pow_pos (base_pos hb) p
    have hunit : unit b p x ≤ b * |x| / (b : K) ^ p := by
      rw [le_div_iff₀ hpow, mul_comm]
      exact pow_mul_unit_le hb hx
    calc |roundTo b p x - x| ≤ unit b p x / 2 := abs_roundTo_sub_le_unit hb
      _ ≤ b * |x| / (b : K) ^ p / 2 := by linarith
      _ = b / (2 * (b : K) ^ p) * |x| := by ring

theorem roundTo_of_representable (h : Representable b p x) : roundTo b p x = x := by
  obtain ⟨m, k, hm, rfl⟩ := h
  by_cases hzero : m = 0
  · have hround : roundHalfEven (0 : K) = 0 := by exact_mod_cast roundHalfEven_intCast (K := K) 0
    simp [hzero, roundTo, hround]
  have hb0 := base_pos (K := K) hb
  set x : K := m * (b : K) ^ k with hx
  have habs : |x| < (b : K) ^ ((p : ℤ) + k) := by
    rw [hx, abs_mul, abs_of_pos (zpow_pos hb0 k), zpow_add₀ hb0.ne', zpow_natCast]
    apply mul_lt_mul_of_pos_right _ (zpow_pos hb0 k)
    exact_mod_cast hm
  have hpos : 0 < |x| := by
    rw [hx]
    exact abs_pos.mpr (mul_ne_zero (by exact_mod_cast hzero) (zpow_pos hb0 k).ne')
  have hlog : Int.log b |x| < p + k := (Int.lt_zpow_iff_log_lt hb hpos).mp habs
  obtain ⟨j, hj⟩ := Int.eq_ofNat_of_zero_le (show 0 ≤ k - (Int.log b |x| + 1 - p) by omega)
  have hquot : x / unit b p x = ((m * (b : ℤ) ^ j : ℤ) : K) := by
    rw [unit, div_eq_iff (zpow_pos hb0 _).ne']
    nth_rewrite 1 [hx]
    push_cast
    rw [mul_assoc, ← zpow_natCast, ← zpow_add₀ hb0.ne']
    congr 2
    omega
  rw [roundTo, hquot, roundHalfEven_intCast, ← hquot, div_mul_cancel₀ _ (unit_pos hb).ne']

/-- An integer with more than `p` digits ends in a zero. -/
theorem lt_or_dvd_of_representable {n : ℕ} (h : Representable b p (n : K)) :
    n < b ^ p ∨ b ∣ n := by
  obtain ⟨m, k, hm, hn⟩ := h
  have hb0 := base_pos (K := K) hb
  obtain hk | hk := le_or_gt k 0
  · obtain ⟨j, rfl⟩ := Int.exists_eq_neg_ofNat hk
    have hnat : (n : ℤ) * (b : ℤ) ^ j = m := by
      rw [zpow_neg, zpow_natCast, ← div_eq_mul_inv, eq_div_iff (pow_pos hb0 j).ne'] at hn
      exact_mod_cast hn
    have hone : (1 : ℤ) ≤ (b : ℤ) ^ j := one_le_pow₀ (by omega)
    have hle : (n : ℤ) ≤ |m| := by
      rw [← hnat, abs_of_nonneg (by positivity)]
      exact le_mul_of_one_le_right (Int.natCast_nonneg n) hone
    exact .inl (by exact_mod_cast hle.trans_lt hm)
  · obtain ⟨j, rfl⟩ := Int.exists_add_of_le (Int.add_one_le_of_lt hk)
    right
    have hint : (n : ℤ) = b * (m * (b : ℤ) ^ j) := by
      rw [zero_add, zpow_add₀ hb0.ne', zpow_one, zpow_natCast] at hn
      have hcast : ((n : ℤ) : K) = ((b * (m * (b : ℤ) ^ j) : ℤ) : K) := by
        push_cast
        rw [hn]
        ring
      exact_mod_cast hcast
    exact Int.natCast_dvd_natCast.mp ⟨_, hint⟩

theorem abs_roundHalfEven_le : |roundHalfEven (x / unit b p x)| ≤ (b : ℤ) ^ p := by
  have hu : 0 < unit b p x := unit_pos hb
  have hlt : |x / unit b p x| < (b : K) ^ p := by
    rw [abs_div, abs_of_pos hu, div_lt_iff₀ hu]
    exact abs_lt_pow_mul_unit hb
  obtain ⟨hlo, hhi⟩ := abs_lt.mp hlt
  rw [abs_le]
  constructor
  · apply le_roundHalfEven
    push_cast
    exact hlo.le
  · apply roundHalfEven_le
    push_cast
    exact hhi.le

theorem representable_roundTo (hp : 0 < p) : Representable b p (roundTo b p x) := by
  have hle := abs_roundHalfEven_le (x := x) (p := p) hb
  obtain hlt | heq := hle.lt_or_eq
  · exact ⟨_, _, hlt, rfl⟩
  · -- a carry through all the digits
    obtain ⟨p', rfl⟩ := Nat.exists_eq_succ_of_ne_zero hp.ne'
    have hb0 := base_pos (K := K) hb
    have hlt : ((b : ℤ) ^ p') < (b : ℤ) ^ (p' + 1) := by
      exact_mod_cast Nat.pow_lt_pow_right hb (Nat.lt_succ_self p')
    have hcarry : ((b : K) ^ (p' + 1)) * unit b (p' + 1) x =
        (b : K) ^ p' * (b : K) ^ (Int.log b |x| + 1 - (p' + 1 : ℕ) + 1) := by
      rw [unit, zpow_add_one₀ hb0.ne', pow_succ]
      ring
    obtain hpos | hneg := eq_or_eq_neg_of_abs_eq heq
    · refine ⟨(b : ℤ) ^ p', Int.log b |x| + 1 - (p' + 1 : ℕ) + 1, ?_, ?_⟩
      · rwa [abs_of_nonneg (by positivity)]
      · rw [roundTo, hpos, Int.cast_pow, Int.cast_pow, Int.cast_natCast]
        exact hcarry
    · refine ⟨-(b : ℤ) ^ p', Int.log b |x| + 1 - (p' + 1 : ℕ) + 1, ?_, ?_⟩
      · rwa [abs_neg, abs_of_nonneg (by positivity)]
      · rw [roundTo, hneg, Int.cast_neg, Int.cast_neg, Int.cast_pow, Int.cast_pow,
          Int.cast_natCast, neg_mul, neg_mul]
        exact congrArg _ hcarry

theorem roundTo_nonneg (hx : 0 ≤ x) : 0 ≤ roundTo b p x := by
  have hu : 0 < unit b p x := unit_pos hb
  have hround : 0 ≤ roundHalfEven (x / unit b p x) := by
    apply le_roundHalfEven
    rw [Int.cast_zero]
    exact div_nonneg hx hu.le
  exact mul_nonneg (by exact_mod_cast hround) hu.le

theorem roundTo_mono (hp : 0 < p) (hx : 0 ≤ x) (hxy : x ≤ y) : roundTo b p x ≤ roundTo b p y := by
  obtain rfl | hpos := hx.eq_or_lt
  · have hzero : roundHalfEven (0 : K) = 0 := by exact_mod_cast roundHalfEven_intCast (K := K) 0
    rw [roundTo, zero_div, hzero, Int.cast_zero, zero_mul]
    exact roundTo_nonneg hb hxy
  have hy := hpos.trans_le hxy
  have hux : 0 < unit b p x := unit_pos hb
  have huy : 0 < unit b p y := unit_pos hb
  have hlog : Int.log b |x| ≤ Int.log b |y| := by
    rw [abs_of_pos hpos, abs_of_pos hy]
    exact Int.log_mono_right hpos hxy
  obtain heq | hlt := hlog.eq_or_lt
  · have hunit : unit b p x = unit b p y := by rw [unit, heq, unit]
    rw [roundTo, roundTo, hunit]
    apply mul_le_mul_of_nonneg_right _ huy.le
    exact_mod_cast roundHalfEven_mono (div_le_div_of_nonneg_right hxy huy.le)
  · -- the next power of the base lies between
    have hb1 : (1 : K) ≤ b := by exact_mod_cast hb.le
    have hlow : roundTo b p x ≤ (b : K) ^ (Int.log b |x| + 1) := by
      rw [← pow_mul_unit hb]
      apply mul_le_mul_of_nonneg_right _ hux.le
      have hle := (le_abs_self _).trans (abs_roundHalfEven_le (x := x) (p := p) hb)
      exact_mod_cast hle
    have hmid : (b : K) ^ (Int.log b |x| + 1) ≤ (b : K) ^ Int.log b |y| :=
      zpow_le_zpow_right₀ hb1 hlt
    have hhigh : (b : K) ^ Int.log b |y| ≤ roundTo b p y := by
      obtain ⟨p', rfl⟩ := Nat.exists_eq_succ_of_ne_zero hp.ne'
      have hsplit : (b : K) ^ Int.log b |y| = (b : K) ^ p' * unit b (p' + 1) y := by
        rw [unit, ← zpow_natCast, ← zpow_add₀ (base_pos hb).ne']
        congr 1
        push_cast
        ring
      rw [hsplit]
      apply mul_le_mul_of_nonneg_right _ huy.le
      have hge : (((b : ℤ) ^ p' : ℤ) : K) ≤ y / unit b (p' + 1) y := by
        rw [le_div_iff₀ huy]
        push_cast
        rw [← hsplit, abs_of_pos hy]
        exact Int.zpow_log_le_self hb hy
      exact_mod_cast le_roundHalfEven hge
    exact hlow.trans (hmid.trans hhigh)

/-- Below a power of the base the digits are finer, so the bound is that of the finer ones. -/
theorem roundTo_of_near (hq : 0 < q) (hrep : Representable b p q) (hε : 0 ≤ ε)
    (hsmall : ε * (b : K) ^ p < 1 / 2) (hnear : |y - q| ≤ ε * q) : roundTo b p y = q := by
  obtain ⟨m, j, hm, hmj⟩ := hrep
  have hb0 := base_pos (K := K) hb
  have hj : 0 < (b : K) ^ j := zpow_pos hb0 j
  have hpow : (1 : K) ≤ (b : K) ^ p := one_le_pow₀ (by exact_mod_cast hb.le)
  have hhalf : ε < 1 / 2 := (le_mul_of_one_le_right hε hpow).trans_lt hsmall
  obtain ⟨hlo, hhi⟩ := abs_le.mp hnear
  have hy : 0 < y := by nlinarith
  set u := unit b p y with hudef
  have hu : 0 < u := unit_pos hb
  have hyu : y < (b : K) ^ p * u := by
    have hlt := abs_lt_pow_mul_unit (x := y) (p := p) hb
    rwa [abs_of_pos hy] at hlt
  have hmle : (m : K) ≤ (b : K) ^ p - 1 := by
    have hint : m ≤ (b : ℤ) ^ p - 1 := by
      have := (le_abs_self m).trans_lt hm
      omega
    exact_mod_cast hint
  have hexp : Int.log b |y| + 1 - p ≤ j := by
    by_contra hgt
    have hbig : (b : K) ^ p * (b : K) ^ j ≤ y := by
      rw [← zpow_natCast, ← zpow_add₀ hb0.ne']
      rw [abs_of_pos hy] at hgt
      have hle : (p : ℤ) + j ≤ Int.log b y := by omega
      exact (Int.zpow_le_iff_le_log hb hy).mpr hle
    have hqle : q ≤ (b : K) ^ p * (b : K) ^ j - (b : K) ^ j := by
      rw [hmj]
      nlinarith
    have hgap : (b : K) ^ j ≤ ε * q := by linarith
    have hlt : ε * q < (b : K) ^ j := by nlinarith
    exact absurd hgap (not_le.mpr hlt)
  obtain ⟨n, hn⟩ := Int.eq_ofNat_of_zero_le (show 0 ≤ j - (Int.log b |y| + 1 - p) by omega)
  obtain ⟨Q, hQ⟩ : ∃ Q : ℤ, q = Q * u := by
    refine ⟨m * (b : ℤ) ^ n, ?_⟩
    rw [hmj, hudef, unit]
    push_cast
    rw [mul_assoc, ← zpow_natCast, ← zpow_add₀ hb0.ne']
    congr 2
    omega
  have hQle : (Q : K) ≤ (b : K) ^ p := by
    have hqlt : ε * q < u := by nlinarith
    have hlt : (Q : K) * u < ((b : K) ^ p + 1) * u := by
      rw [← hQ]
      linarith
    have hint : (Q : K) < ((b : ℤ) ^ p + 1 : ℤ) := by
      push_cast
      exact lt_of_mul_lt_mul_right hlt hu.le
    have hle : Q ≤ (b : ℤ) ^ p := Int.lt_add_one_iff.mp (by exact_mod_cast hint)
    exact_mod_cast hle
  have hclose : |y / u - Q| < 1 / 2 := by
    have hquot : y / u - Q = (y - q) / u := by
      rw [hQ]
      field_simp
    rw [hquot, abs_div, abs_of_pos hu, div_lt_iff₀ hu]
    calc |y - q| ≤ ε * q := hnear
      _ = ε * Q * u := by
        rw [hQ]
        ring
      _ ≤ ε * (b : K) ^ p * u := by
        apply mul_le_mul_of_nonneg_right _ hu.le
        exact mul_le_mul_of_nonneg_left hQle hε
      _ < 1 / 2 * u := mul_lt_mul_of_pos_right hsmall hu
  rw [roundTo, ← hudef, roundHalfEven_of_abs_lt hclose, hQ]

end Base
end Trace4J.Library.SignificantDigits
