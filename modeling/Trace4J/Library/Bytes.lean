import Mathlib.Data.List.Basic
import Mathlib.Data.Nat.Bitwise
import Mathlib.Tactic.Ring

/-!
# Bytes of a circular store

Little-endian numbers, and the stretch of a circular store that starts at a running
position. A stretch no longer than the store is copied out in at most two pieces.
-/

namespace Trace4J.Library

/-! ## Little-endian numbers -/

def leBytes : ℕ → ℕ → List UInt8
  | 0, _ => []
  | k + 1, n => UInt8.ofNat n :: leBytes k (n / 256)

def leNat : List UInt8 → ℕ
  | [] => 0
  | b :: bs => b.toNat + 256 * leNat bs

@[simp] theorem length_leBytes (k n : ℕ) : (leBytes k n).length = k := by
  induction k generalizing n with
  | zero => rfl
  | succ k ih => simp [leBytes, ih]

theorem leNat_leBytes (k n : ℕ) : leNat (leBytes k n) = n % 256 ^ k := by
  induction k generalizing n with
  | zero => simp [leBytes, leNat, Nat.mod_one]
  | succ k ih =>
    have hb : (UInt8.ofNat n).toNat = n % 256 := rfl
    rw [leBytes, leNat, ih, hb, pow_succ', Nat.mod_mul]

theorem leNat_leBytes_of_lt {k n : ℕ} (h : n < 256 ^ k) : leNat (leBytes k n) = n := by
  rw [leNat_leBytes, Nat.mod_eq_of_lt h]

theorem leNat_lt (bs : List UInt8) : leNat bs < 256 ^ bs.length := by
  induction bs with
  | nil => simp [leNat]
  | cons b bs ih =>
    have hb : b.toNat < 256 := b.toNat_lt
    rw [leNat, List.length_cons, pow_succ']
    omega

theorem leBytes_add (j k n : ℕ) :
    leBytes (j + k) n = leBytes j n ++ leBytes k (n / 256 ^ j) := by
  induction j generalizing n with
  | zero => simp [leBytes]
  | succ j ih =>
    rw [Nat.succ_add, leBytes, leBytes, ih, List.cons_append, Nat.div_div_eq_div_mul, pow_succ']

/-! ## A stretch of a circular store -/

section Circular
variable {α : Type*} {data : ℕ → α} {size tail n : ℕ} {xs ys : List α}

def Window (data : ℕ → α) (size tail : ℕ) (xs : List α) : Prop :=
  ∀ j x, xs[j]? = some x → data ((tail + j) % size) = x

/-- `n` cells from `tail` on: up to the right edge, then from the left edge. -/
def copyOut (data : ℕ → α) (size tail n : ℕ) : List α :=
  let offset := tail % size
  let right := if size - offset < n then size - offset else n
  (List.range right).map (fun j => data (offset + j)) ++
    (List.range (n - right)).map data

@[simp] theorem length_copyOut : (copyOut data size tail n).length = n := by
  unfold copyOut
  simp only [List.length_append, List.length_map, List.length_range]
  split_ifs <;> omega

theorem getElem?_copyOut (hn : n ≤ size) {j : ℕ} (hj : j < n) :
    (copyOut data size tail n)[j]? = some (data ((tail + j) % size)) := by
  have hsize : 0 < size := by omega
  have hoff : tail % size < size := Nat.mod_lt _ hsize
  have hmod : (tail + j) % size =
      if tail % size + j < size then tail % size + j else tail % size + j - size := by
    rw [Nat.add_mod, Nat.mod_eq_of_lt (show j < size by omega)]
    split_ifs with h
    · exact Nat.mod_eq_of_lt h
    · rw [Nat.mod_eq_sub_mod (by omega), Nat.mod_eq_of_lt (by omega)]
  rw [hmod]
  unfold copyOut
  simp only
  by_cases hright : size - tail % size < n
  · rw [if_pos hright]
    by_cases hedge : j < size - tail % size
    · rw [List.getElem?_append_left (by simpa using hedge), if_pos (by omega)]
      simp [hedge]
    · rw [List.getElem?_append_right (by simpa using hedge), if_neg (by omega)]
      have hback : j - (size - tail % size) = tail % size + j - size := by omega
      have hlt : tail % size + j - size < n - (size - tail % size) := by omega
      simp [hback, hlt]
  · rw [if_neg hright, List.getElem?_append_left (by simpa using hj), if_pos (by omega)]
    simp [hj]

theorem Window.copyOut_eq (h : Window data size tail xs) (hn : n ≤ xs.length)
    (hsize : xs.length ≤ size) : copyOut data size tail n = xs.take n := by
  apply List.ext_getElem?
  intro j
  by_cases hj : j < n
  · rw [getElem?_copyOut (by omega) hj, List.getElem?_take_of_lt hj]
    have hx : xs[j]? = some xs[j] := List.getElem?_eq_getElem (by omega)
    rw [hx, h j _ hx]
  · rw [List.getElem?_eq_none (by simpa using hj), List.getElem?_eq_none (by simp; omega)]

theorem Window.drop (h : Window data size tail xs) (n : ℕ) :
    Window data size (tail + n) (xs.drop n) := by
  intro j x hx
  rw [List.getElem?_drop] at hx
  rw [Nat.add_assoc]
  exact h _ x hx

/-- Only the place of the tail in the store counts. -/
theorem Window.congr {tail' : ℕ} (h : Window data size tail xs)
    (htail : tail' % size = tail % size) : Window data size tail' xs := by
  intro j x hx
  rw [Nat.add_mod, htail, ← Nat.add_mod]
  exact h j x hx

def storeAt (data : ℕ → α) (size pos : ℕ) (ys : List α) (k : ℕ) : α :=
  (ys[(k + size - pos % size) % size]?).getD (data k)

theorem place_eq (hsize : 0 < size) (pos j : ℕ) :
    ((pos + j) % size + size - pos % size) % size = j % size := by
  have hpos : pos % size < size := Nat.mod_lt pos hsize
  have hj : j % size < size := Nat.mod_lt j hsize
  rw [Nat.add_mod]
  by_cases hwrap : pos % size + j % size < size
  · rw [Nat.mod_eq_of_lt hwrap,
      show pos % size + j % size + size - pos % size = j % size + size by omega,
      Nat.add_mod_right, Nat.mod_mod]
  · have hmod : (pos % size + j % size) % size = pos % size + j % size - size := by
      rw [Nat.mod_eq_sub_mod (by omega)]
      exact Nat.mod_eq_of_lt (by omega)
    rw [hmod, show pos % size + j % size - size + size - pos % size = j % size by omega,
      Nat.mod_mod]

theorem Window.store (h : Window data size tail xs) (hroom : xs.length + ys.length ≤ size) :
    Window (storeAt data size (tail + xs.length) ys) size tail (xs ++ ys) := by
  intro j x hx
  obtain ⟨hj, -⟩ := List.getElem?_eq_some_iff.mp hx
  rw [List.length_append] at hj
  have hsize : 0 < size := by omega
  unfold storeAt
  by_cases hold : j < xs.length
  · rw [List.getElem?_append_left hold] at hx
    have hplace : ((tail + j) % size + size - (tail + xs.length) % size) % size =
        (j + size - xs.length) % size := by
      have hmod := place_eq hsize (tail + xs.length) (j + size - xs.length)
      rwa [show tail + xs.length + (j + size - xs.length) = tail + j + size by omega,
        Nat.add_mod_right] at hmod
    rw [hplace, Nat.mod_eq_of_lt (by omega), List.getElem?_eq_none (by omega), Option.getD_none]
    exact h j x hx
  · rw [List.getElem?_append_right (by omega)] at hx
    have hplace := place_eq hsize (tail + xs.length) (j - xs.length)
    rw [show tail + xs.length + (j - xs.length) = tail + j by omega,
      Nat.mod_eq_of_lt (show j - xs.length < size by omega)] at hplace
    rw [hplace, hx, Option.getD_some]

end Circular
end Trace4J.Library
