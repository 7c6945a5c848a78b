import Trace4J.Offline.OutputToFile
import Trace4J.Profiler.Doubles

/-!
# Floats of a string

`float(s)` for decimal numbers, and what the script makes of it: the integer `round(float(s))`
and the two decimals of a dispersion. A `double` that an output stream printed comes back as
its rounding to six significant digits.
-/

namespace Trace4J.Offline
open Library SignificantDigits
open Profiler (double sixDigits trimZeros pointed exponentText magnitudeText doubleText
  sixDigits_spec double_natCast double_eq)

/-! ## Reading -/

/-- Digits on one side of the point, which may be missing: the number and how many there are. -/
def readPart (s : Text) : Option (ℕ × ℕ) :=
  if s = [] then some (0, 0) else (readDigits 0 false s).map fun n => (n, s.countP Char.isDigit)

def readMantissa (s : Text) : Option ℚ :=
  let whole := s.takeWhile (· ≠ '.')
  let frac := (s.dropWhile (· ≠ '.')).drop 1
  if whole = [] ∧ frac = [] then none
  else do
    let (n, _) ← readPart whole
    let (f, k) ← readPart frac
    some (n + f / 10 ^ k)

def readExponent : Text → Option ℤ
  | '-' :: t => (readDigits 0 false t).map fun n : ℕ => -(n : ℤ)
  | '+' :: t => (readDigits 0 false t).map fun n : ℕ => (n : ℤ)
  | t => (readDigits 0 false t).map fun n : ℕ => (n : ℤ)

def readUnsigned (s : Text) : Option ℚ :=
  let mantissa := s.takeWhile fun c => c ≠ 'e' ∧ c ≠ 'E'
  match s.dropWhile fun c => c ≠ 'e' ∧ c ≠ 'E' with
  | [] => readMantissa mantissa
  | _ :: exponent => do
    let m ← readMantissa mantissa
    let e ← readExponent exponent
    some (m * 10 ^ e)

/-- `float(s)` for the ASCII digits. -/
def pyFloat (s : Text) : Option ℚ :=
  match strip s with
  | '-' :: t => (readUnsigned t).map fun x => -double x
  | '+' :: t => (readUnsigned t).map double
  | t => (readUnsigned t).map double

/-- `round(float(s))` -/
def pyRound (s : Text) : Option ℤ := (pyFloat s).map roundHalfEven

/-- `format(x, '.2f')` -/
def twoDecimals (x : ℚ) : Text :=
  let n := (roundHalfEven (100 * x)).natAbs
  let digits := Nat.toDigits 10 (n / 100) ++
    ['.', Nat.digitChar (n / 10 % 10), Nat.digitChar (n % 10)]
  if x < 0 then '-' :: digits else digits

/-- `format(round(float(s), 2), '.2f')` -/
def formatDispersion (s : Text) : Option Text := (pyFloat s).map twoDecimals

/-! ## Digits -/

def decimals (s : Text) : ℚ := Nat.ofDigitChars 10 s 0 / 10 ^ s.length

def AllDigits (s : Text) : Prop := ∀ c ∈ s, c.isDigit = true

section Digits
variable {s t whole frac : Text} {e : ℤ}

theorem AllDigits.append (hs : AllDigits s) (ht : AllDigits t) : AllDigits (s ++ t) := by
  intro c hc
  obtain hc | hc := List.mem_append.mp hc
  · exact hs c hc
  · exact ht c hc

theorem allDigits_toDigits (n : ℕ) : AllDigits (Nat.toDigits 10 n) := fun _ hc =>
  Nat.isDigit_of_mem_toDigits (by decide) le_rfl hc

theorem allDigits_zeros (k : ℕ) : AllDigits (List.replicate k '0') := by
  intro c hc
  rw [List.eq_of_mem_replicate hc]
  decide

theorem decimals_nil : decimals [] = 0 := by simp [decimals]

theorem decimals_append (s t : Text) :
    decimals (s ++ t) = decimals s + decimals t / 10 ^ s.length := by
  have hpow : (10 : ℚ) ^ t.length ≠ 0 := by positivity
  have hpow' : (10 : ℚ) ^ s.length ≠ 0 := by positivity
  rw [decimals, decimals, decimals, Nat.ofDigitChars_append,
    Nat.ofDigitChars_eq_ofDigitChars_zero, List.length_append, pow_add]
  push_cast
  field_simp

theorem decimals_zeros (k : ℕ) : decimals (List.replicate k '0') = 0 := by
  rw [decimals, Nat.ofDigitChars_replicate_zero]
  simp

theorem decimals_trimZeros (s : Text) : decimals (trimZeros s) = decimals s := by
  induction s using List.reverseRecOn with
  | nil => rfl
  | append_singleton s c ih =>
    by_cases hc : c = '0'
    · have hzero : decimals [c] = 0 := hc ▸ decimals_zeros 1
      rw [trimZeros, List.rdropWhile_concat_pos _ _ _ (by simpa using hc), decimals_append, hzero,
        zero_div, add_zero]
      exact ih
    · rw [trimZeros, List.rdropWhile_concat_neg _ _ _ (by simpa using hc)]

theorem readPart_eq (hs : AllDigits s) : readPart s = some (Nat.ofDigitChars 10 s 0, s.length) := by
  by_cases hne : s = []
  · subst hne
    rfl
  · rw [readPart, if_neg hne, readDigits_eq hs _ _ (.inl hne), Option.map_some,
      List.countP_eq_length.mpr hs]

theorem readMantissa_pointed (hwhole : AllDigits whole) (hne : whole ≠ [])
    (hfrac : AllDigits frac) :
    readMantissa (pointed whole frac) = some (Nat.ofDigitChars 10 whole 0 + decimals frac) := by
  have hpoint : ∀ c ∈ whole, decide (c ≠ '.') = true := by
    intro c hc
    rw [decide_eq_true_eq]
    rintro rfl
    exact absurd (hwhole _ hc) (by decide)
  rw [pointed]
  split_ifs with hempty
  · subst hempty
    have htake : whole.takeWhile (· ≠ '.') = whole := List.takeWhile_eq_self_iff.mpr hpoint
    have hdrop : whole.dropWhile (· ≠ '.') = [] := List.dropWhile_eq_nil_iff.mpr hpoint
    simp only [readMantissa, htake, hdrop, List.drop_nil, hne, false_and, if_false,
      readPart_eq hwhole]
    simp [readPart, decimals_nil]
  · have htake : (whole ++ '.' :: frac).takeWhile (· ≠ '.') = whole := by
      rw [List.takeWhile_append_of_pos hpoint]
      simp
    have hdrop : (whole ++ '.' :: frac).dropWhile (· ≠ '.') = '.' :: frac := by
      rw [List.dropWhile_append_of_pos hpoint]
      simp
    simp only [readMantissa, htake, hdrop, List.drop_one, List.tail_cons, hne, false_and, if_false,
      readPart_eq hwhole, readPart_eq hfrac]
    rfl

theorem readExponent_exponentText (e : ℤ) :
    ∃ t, exponentText e = 'e' :: t ∧ readExponent t = some e := by
  have hdigits := allDigits_toDigits e.natAbs
  have hread : readDigits 0 false (if e.natAbs < 10 then '0' :: Nat.toDigits 10 e.natAbs
      else Nat.toDigits 10 e.natAbs) = some e.natAbs := by
    split_ifs
    · rw [readDigits_eq (List.forall_mem_cons.mpr ⟨by decide, hdigits⟩) _ _ (.inl (by simp)),
        Nat.ofDigitChars_cons]
      simp [Nat.ofDigitChars_ten_toDigits]
    · rw [readDigits_eq hdigits _ _ (.inl Nat.toDigits_ne_nil), Nat.ofDigitChars_ten_toDigits]
  refine ⟨_, rfl, ?_⟩
  by_cases hneg : e < 0
  · rw [if_pos hneg, readExponent, hread, Option.map_some]
    congr 1
    omega
  · rw [if_neg hneg, readExponent, hread, Option.map_some]
    congr 1
    omega

theorem mem_pointed {c : Char} (hwhole : AllDigits whole) (hfrac : AllDigits frac)
    (hc : c ∈ pointed whole frac) : c.isDigit = true ∨ c = '.' := by
  rw [pointed] at hc
  split_ifs at hc
  · exact .inl (hwhole c hc)
  · obtain hc | hc := List.mem_append.mp hc
    · exact .inl (hwhole c hc)
    · obtain rfl | hc := List.mem_cons.mp hc
      · exact .inr rfl
      · exact .inl (hfrac c hc)

theorem readUnsigned_pointed (hwhole : AllDigits whole) (hne : whole ≠ [])
    (hfrac : AllDigits frac) :
    readUnsigned (pointed whole frac) = some (Nat.ofDigitChars 10 whole 0 + decimals frac) ∧
      readUnsigned (pointed whole frac ++ exponentText e) =
        some ((Nat.ofDigitChars 10 whole 0 + decimals frac) * 10 ^ e) := by
  have hmantissa : ∀ c ∈ pointed whole frac, decide (c ≠ 'e' ∧ c ≠ 'E') = true := by
    intro c hc
    rw [decide_eq_true_eq]
    refine ⟨?_, ?_⟩
    all_goals
      rintro rfl
      exact absurd (mem_pointed hwhole hfrac hc) (by decide)
  have hread := readMantissa_pointed hwhole hne hfrac
  refine ⟨?_, ?_⟩
  · have htake := List.takeWhile_eq_self_iff.mpr hmantissa
    have hdrop := List.dropWhile_eq_nil_iff.mpr hmantissa
    simp only [readUnsigned, htake, hdrop, hread]
  · obtain ⟨t, ht, hexp⟩ := readExponent_exponentText e
    have htake : (pointed whole frac ++ 'e' :: t).takeWhile (fun c => c ≠ 'e' ∧ c ≠ 'E') =
        pointed whole frac := by
      rw [List.takeWhile_append_of_pos hmantissa, List.takeWhile_cons_of_neg (by decide),
        List.append_nil]
    have hdrop : (pointed whole frac ++ 'e' :: t).dropWhile (fun c => c ≠ 'e' ∧ c ≠ 'E') =
        'e' :: t := by
      rw [List.dropWhile_append_of_pos hmantissa, List.dropWhile_cons_of_neg (by decide)]
    simp only [readUnsigned, ht, htake, hdrop, hread, hexp]
    rfl

end Digits

/-! ## What was printed -/

section Printed
variable {x : ℚ}

/-- Cutting the digits of `m` behind the `k`-th one scales it. -/
theorem take_add_drop {m k : ℕ} (hlo : 10 ^ 5 ≤ m) (hhi : m < 10 ^ 6) (hk : k ≤ 6) :
    (Nat.ofDigitChars 10 ((Nat.toDigits 10 m).take k) 0 : ℚ) +
      decimals ((Nat.toDigits 10 m).drop k) = m * 10 ^ ((k : ℤ) - 6) := by
  have hlen : (Nat.toDigits 10 m).length = 6 := by
    have hle := (Nat.length_toDigits_le_iff (b := 10) (k := 6) (by decide) (by decide)).mpr hhi
    have hgt := mt (Nat.length_toDigits_le_iff (b := 10) (n := m) (k := 5) (by decide)
      (by decide)).mp (by omega)
    omega
  have htake : ((Nat.toDigits 10 m).take k).length = k := by
    rw [List.length_take, hlen, min_eq_left hk]
  have hpow : (10 : ℚ) ^ k ≠ 0 := by positivity
  have hall : decimals (Nat.toDigits 10 m) = m / 10 ^ 6 := by
    rw [decimals, Nat.ofDigitChars_ten_toDigits, hlen]
  have hsplit := decimals_append ((Nat.toDigits 10 m).take k) ((Nat.toDigits 10 m).drop k)
  rw [List.take_append_drop, hall, decimals, htake] at hsplit
  rw [zpow_sub₀ (by norm_num), zpow_natCast, zpow_ofNat]
  field_simp at hsplit ⊢
  linarith

theorem magnitudeText_shape (hx : 0 < x) : ∃ whole frac, AllDigits whole ∧ whole ≠ [] ∧
    AllDigits frac ∧
      (magnitudeText x = pointed whole frac ∧
          (Nat.ofDigitChars 10 whole 0 + decimals frac : ℚ) = roundTo 10 6 x ∨
        ∃ e, magnitudeText x = pointed whole frac ++ exponentText e ∧
          (Nat.ofDigitChars 10 whole 0 + decimals frac : ℚ) * 10 ^ e = roundTo 10 6 x) := by
  obtain ⟨hlo, hhi, hround⟩ := sixDigits_spec hx
  set m := (sixDigits x).1 with hm
  set e := (sixDigits x).2 with he
  have hdigits := allDigits_toDigits m
  have hne : ∀ k, 0 < k → (Nat.toDigits 10 m).take k ≠ [] := by
    intro k hk
    simp [List.take_eq_nil_iff, hk.ne']
  have htake : ∀ k, AllDigits ((Nat.toDigits 10 m).take k) := fun k c hc =>
    hdigits c (List.mem_of_mem_take hc)
  have htrim : ∀ s, AllDigits s → AllDigits (trimZeros s) := fun s hs c hc =>
    hs c ((List.rdropWhile_prefix _ _).subset hc)
  have hdrop : ∀ k, AllDigits ((Nat.toDigits 10 m).drop k) := fun k c hc =>
    hdigits c (List.mem_of_mem_drop hc)
  have hten : (10 : ℚ) ≠ 0 := by norm_num
  by_cases hsci : e < -4 ∨ 6 ≤ e
  · refine ⟨_, _, htake 1, hne 1 one_pos, htrim _ (hdrop 1), .inr ⟨e, ?_, ?_⟩⟩
    · simp only [magnitudeText, ← hm, ← he, if_pos hsci]
    · have hexp : ((1 : ℕ) : ℤ) - 6 + e = e - 5 := by omega
      rw [decimals_trimZeros, take_add_drop hlo hhi (by decide), ← hround, mul_assoc,
        ← zpow_add₀ hten, hexp]
  by_cases hneg : e < 0
  · refine ⟨['0'], List.replicate (-e - 1).toNat '0' ++ trimZeros (Nat.toDigits 10 m),
      allDigits_zeros 1, by simp, (allDigits_zeros _).append (htrim _ hdigits), .inl ⟨?_, ?_⟩⟩
    · simp only [magnitudeText, ← hm, ← he, if_neg hsci, if_pos hneg]
    · have hzero : Nat.ofDigitChars 10 ['0'] 0 = 0 := rfl
      have hall := take_add_drop hlo hhi (Nat.zero_le 6)
      rw [List.take_zero, List.drop_zero, Nat.ofDigitChars_nil, Nat.cast_zero, zero_add] at hall
      have hexp : ((0 : ℕ) : ℤ) - 6 + -((-e - 1).toNat : ℤ) = e - 5 := by omega
      rw [hzero, Nat.cast_zero, zero_add, decimals_append, decimals_zeros, zero_add,
        decimals_trimZeros, hall, List.length_replicate, ← hround, div_eq_mul_inv, ← zpow_natCast,
        ← zpow_neg, mul_assoc, ← zpow_add₀ hten, hexp]
  · refine ⟨_, _, htake (e.toNat + 1), hne _ (Nat.succ_pos _), htrim _ (hdrop (e.toNat + 1)),
      .inl ⟨?_, ?_⟩⟩
    · simp only [magnitudeText, ← hm, ← he, if_neg hsci, if_neg hneg]
    · rw [decimals_trimZeros, take_add_drop hlo hhi (by omega), ← hround,
        show ((e.toNat + 1 : ℕ) : ℤ) - 6 = e - 5 by omega]

theorem readUnsigned_magnitudeText (hx : 0 < x) :
    readUnsigned (magnitudeText x) = some (roundTo 10 6 x) := by
  obtain ⟨whole, frac, hwhole, hne, hfrac, ⟨htext, hvalue⟩ | ⟨e, htext, hvalue⟩⟩ :=
    magnitudeText_shape hx
  · rw [htext, ← hvalue, (readUnsigned_pointed (e := 0) hwhole hne hfrac).1]
  · rw [htext, ← hvalue, (readUnsigned_pointed hwhole hne hfrac).2]

theorem head_magnitudeText (hx : 0 < x) : ∃ c t, magnitudeText x = c :: t ∧ c.isDigit = true := by
  obtain ⟨whole, frac, hwhole, hne, -, htext⟩ := magnitudeText_shape hx
  obtain ⟨c, whole, rfl⟩ := List.exists_cons_of_ne_nil hne
  have hhead : ∃ t, pointed (c :: whole) frac = c :: t := by
    rw [pointed]
    split_ifs
    · exact ⟨_, rfl⟩
    · exact ⟨_, rfl⟩
  obtain ⟨t, ht⟩ := hhead
  have hc := hwhole c List.mem_cons_self
  obtain ⟨htext, -⟩ | ⟨e, htext, -⟩ := htext
  · exact ⟨c, t, htext.trans ht, hc⟩
  · exact ⟨c, t ++ exponentText e, by rw [htext, ht, List.cons_append], hc⟩

theorem isSpace_magnitudeText (hx : 0 < x) : ∀ c ∈ magnitudeText x, isSpace c = false := by
  obtain ⟨whole, frac, hwhole, -, hfrac, htext⟩ := magnitudeText_shape hx
  have hpointed : ∀ c ∈ pointed whole frac, isSpace c = false := by
    intro c hc
    obtain hc | rfl := mem_pointed hwhole hfrac hc
    · exact isSpace_of_isDigit hc
    · rfl
  have hexponent : ∀ e, ∀ c ∈ exponentText e, isSpace c = false := by
    intro e c hc
    have hdigits : ∀ c ∈ Nat.toDigits 10 e.natAbs, isSpace c = false := fun c hc =>
      isSpace_of_isDigit (allDigits_toDigits _ c hc)
    rw [exponentText] at hc
    obtain rfl | hc := List.mem_cons.mp hc
    · rfl
    obtain rfl | hc := List.mem_cons.mp hc
    · split_ifs <;> rfl
    · split_ifs at hc
      · obtain rfl | hc := List.mem_cons.mp hc
        · rfl
        · exact hdigits c hc
      · exact hdigits c hc
  intro c hc
  obtain ⟨htext, -⟩ | ⟨e, htext, -⟩ := htext
  · rw [htext] at hc
    exact hpointed c hc
  · rw [htext] at hc
    obtain hc | hc := List.mem_append.mp hc
    · exact hpointed c hc
    · exact hexponent e c hc

theorem pyFloat_of_digit {c : Char} {t : Text} (hc : c.isDigit = true)
    (hspace : ∀ d ∈ c :: t, isSpace d = false) :
    pyFloat (c :: t) = (readUnsigned (c :: t)).map double := by
  rw [pyFloat, strip_of_no_space hspace]
  split
  · next heq =>
    rw [List.cons.injEq] at heq
    exact absurd hc (by rw [heq.1]; decide)
  · next heq =>
    rw [List.cons.injEq] at heq
    exact absurd hc (by rw [heq.1]; decide)
  · rfl

theorem pyFloat_doubleText (hx : 0 ≤ x) :
    pyFloat (doubleText x) = some (double (roundTo 10 6 x)) := by
  obtain rfl | hpos := hx.eq_or_lt
  · have hdigit : AllDigits ['0'] := allDigits_zeros 1
    have hnone : AllDigits [] := by simp [AllDigits]
    have hread := (readUnsigned_pointed (e := 0) hdigit (by simp) hnone).1
    have hround : roundTo 10 6 (0 : ℚ) = 0 :=
      roundTo_of_representable (by decide) ⟨0, 0, by simp⟩
    rw [doubleText, if_pos rfl, pyFloat_of_digit (by decide) (by simp [isSpace]), hround]
    have hvalue : Nat.ofDigitChars 10 ['0'] 0 = 0 := rfl
    rw [pointed, if_pos rfl, decimals_nil, hvalue, Nat.cast_zero, add_zero] at hread
    rw [hread, Option.map_some]
  · obtain ⟨c, t, htext, hc⟩ := head_magnitudeText hpos
    have hread := readUnsigned_magnitudeText hpos
    have hspace := isSpace_magnitudeText hpos
    rw [doubleText, if_neg hpos.ne', if_neg hpos.not_gt]
    rw [htext] at hread hspace ⊢
    rw [pyFloat_of_digit hc hspace, hread, Option.map_some]

theorem isSome_pyFloat_doubleText (x : ℚ) : (pyFloat (doubleText x)).isSome := by
  by_cases hx : 0 ≤ x
  · rw [pyFloat_doubleText hx]
    rfl
  · have hneg : 0 < -x := by linarith
    have hspace : ∀ c ∈ '-' :: magnitudeText (-x), isSpace c = false :=
      List.forall_mem_cons.mpr ⟨rfl, isSpace_magnitudeText hneg⟩
    rw [pyFloat, doubleText, if_neg (by linarith), if_pos (by linarith), strip_of_no_space hspace]
    simp [readUnsigned_magnitudeText hneg]

theorem isSome_formatDispersion_doubleText (x : ℚ) : (formatDispersion (doubleText x)).isSome := by
  rw [formatDispersion, Option.isSome_map]
  exact isSome_pyFloat_doubleText x

/-! ## Integers that come back -/

theorem pyRound_doubleText (hx : 0 ≤ x) :
    pyRound (doubleText x) = some (roundHalfEven (double (roundTo 10 6 x))) := by
  rw [pyRound, pyFloat_doubleText hx, Option.map_some]

theorem roundTo_integer (hlo : 10 ^ 6 ≤ x) (hhi : x ≤ 2 ^ 64) :
    ∃ n : ℕ, roundTo 10 6 x = n ∧ double n = n := by
  have hx : 0 < x := by linarith
  have hlog : 6 ≤ Int.log 10 x := by
    rw [← Int.zpow_le_iff_le_log (by decide) hx]
    exact_mod_cast hlo
  have hlog' : Int.log 10 x < 20 := by
    rw [← Int.lt_zpow_iff_log_lt (by decide) hx]
    exact hhi.trans_lt (by norm_num)
  obtain ⟨j, hj⟩ := Int.eq_ofNat_of_zero_le (show 0 ≤ Int.log 10 x + 1 - (6 : ℕ) by omega)
  have hunit : unit 10 6 x = 10 ^ j := by
    rw [unit, abs_of_pos hx, hj, Nat.cast_ofNat]
    exact zpow_natCast _ _
  have hnonneg : 0 ≤ roundHalfEven (x / unit 10 6 x) := by
    apply le_roundHalfEven
    rw [Int.cast_zero, hunit]
    positivity
  obtain ⟨m, hm⟩ := Int.eq_ofNat_of_zero_le hnonneg
  have hmle : m ≤ 10 ^ 6 := by
    have hle := abs_roundHalfEven_le (x := x) (b := 10) (p := 6) (by decide)
    rw [hm, Nat.abs_cast] at hle
    exact_mod_cast hle
  refine ⟨m * 10 ^ j, ?_, ?_⟩
  · rw [roundTo, hm, hunit]
    push_cast
    rfl
  · refine double_eq ⟨(m * 5 ^ j : ℕ), j, ?_, ?_⟩
    · have hpow : 5 ^ j ≤ 5 ^ 14 := Nat.pow_le_pow_right (by decide) (by omega)
      have hbound : m * 5 ^ j < 2 ^ 53 := (Nat.mul_le_mul hmle hpow).trans_lt (by norm_num)
      rw [Nat.abs_cast]
      exact_mod_cast hbound
    · rw [show (10 : ℕ) = 5 * 2 by rfl, mul_pow]
      push_cast
      rw [zpow_natCast, mul_assoc]

theorem representable_million : Representable 10 6 (10 ^ 6 : ℚ) := ⟨1, 6, by norm_num, by norm_num⟩

theorem representable_natCast {n : ℕ} (h : n ≤ 10 ^ 6) : Representable 10 6 (n : ℚ) := by
  obtain hlt | rfl := h.lt_or_eq
  · refine ⟨n, 0, ?_, by simp⟩
    rw [Nat.abs_cast]
    exact_mod_cast hlt
  · exact_mod_cast representable_million

theorem representable_roundHalfEven (hx : 0 ≤ x) (hhi : x ≤ 2 ^ 64) :
    Representable 10 6 (roundHalfEven (double (roundTo 10 6 x)) : ℚ) := by
  obtain hlt | hge := lt_or_ge x (10 ^ 6)
  · have hlow : 0 ≤ double (roundTo 10 6 x) :=
      roundTo_nonneg (by decide) (roundTo_nonneg (by decide) hx)
    have hmono := roundTo_mono (b := 10) (p := 6) (by decide) (by decide) hx hlt.le
    have hdouble : double (10 ^ 6) = 10 ^ 6 := by
      exact_mod_cast double_natCast (n := 10 ^ 6) (by norm_num)
    rw [roundTo_of_representable (by decide) representable_million] at hmono
    have hhigh : double (roundTo 10 6 x) ≤ 10 ^ 6 := by
      rw [← hdouble]
      exact roundTo_mono (by decide) (by decide) (roundTo_nonneg (by decide) hx) hmono
    have hz0 := le_roundHalfEven (n := 0) (by exact_mod_cast hlow)
    have hz1 := roundHalfEven_le (n := 10 ^ 6) (by exact_mod_cast hhigh)
    obtain ⟨n, hn⟩ := Int.eq_ofNat_of_zero_le hz0
    rw [hn] at hz1 ⊢
    exact_mod_cast representable_natCast (n := n) (by exact_mod_cast hz1)
  · obtain ⟨n, hn, hdouble⟩ := roundTo_integer hge hhi
    have hround : roundHalfEven (n : ℚ) = n := by exact_mod_cast roundHalfEven_intCast (n : ℤ)
    rw [hn, hdouble, hround, Int.cast_natCast, ← hn]
    exact representable_roundTo (by decide) (by decide)

theorem double_of_six_digits {n : ℕ} (hn : n ≤ 2 ^ 64) (h : Representable 10 6 (n : ℚ)) :
    double n = n := by
  obtain hlt | hge := lt_or_ge n (10 ^ 6)
  · exact double_natCast (hlt.trans (by norm_num))
  · obtain ⟨m, hm, hdouble⟩ := roundTo_integer (x := n) (by exact_mod_cast hge)
      (by exact_mod_cast hn)
    rw [roundTo_of_representable (by decide) h] at hm
    rw [hm, hdouble]

theorem pyRound_eq_of_roundTo {n : ℕ} (hx : 0 ≤ x) (hn : n ≤ 2 ^ 64)
    (h : Representable 10 6 (n : ℚ)) (hround : roundTo 10 6 x = n) : pyRound (doubleText x) = some (n : ℤ) := by
  rw [pyRound_doubleText hx, hround, double_of_six_digits hn h]
  exact congrArg some (by exact_mod_cast roundHalfEven_intCast (n : ℤ))

theorem representable_of_pyRound {z : ℤ} (hx : 0 ≤ x) (hhi : x ≤ 2 ^ 64)
    (h : pyRound (doubleText x) = some z) : Representable 10 6 (z : ℚ) := by
  rw [pyRound_doubleText hx, Option.some.injEq] at h
  rw [← h]
  exact representable_roundHalfEven hx hhi

theorem pyRound_natCast_iff {n : ℕ} (hn : n ≤ 2 ^ 64) :
    pyRound (doubleText n) = some (n : ℤ) ↔ Representable 10 6 (n : ℚ) := by
  constructor
  · intro h
    exact_mod_cast representable_of_pyRound (Nat.cast_nonneg n) (by exact_mod_cast hn) h
  · intro h
    exact pyRound_eq_of_roundTo (Nat.cast_nonneg n) hn h (roundTo_of_representable (by decide) h)

end Printed
end Trace4J.Offline
