import Mathlib.Data.Nat.Basic
import Mathlib.Tactic.Ring
import Mathlib.Tactic.Linarith

/-!
# Long division

A digit of a quotient is found from the leading digits.  The base is `B`, the divisor begins
with the digits `v1`, `v0`, and the dividend with `N`, `u`, where `N` has two digits.

* `test_iff`: the test of the estimate decides whether it is too large for the leading digits.
* `corrected`: an estimate that is at most two too large is right after two tests.
* `le_digits_add_two`: a quotient by the first digit alone is at most two too large.
* `digit_le`, `le_digit_succ`: the quotient of the leading digits is the digit of the quotient,
  or one more.
-/

namespace LongDivision

variable {B N u q r v1 v0 U V W w P v' : ℕ}

/-! ## Tests -/

/-- What is compared is what is left over, so no product of the whole divisor is needed. -/
theorem test_iff (h : N = q * v1 + r) : r * B + u < q * v0 ↔ N * B + u < q * (v1 * B + v0) := by
  have hN : N * B + u = q * v1 * B + (r * B + u) := by rw [h]; ring
  have hq : q * (v1 * B + v0) = q * v1 * B + q * v0 := by ring
  rw [hN, hq]
  omega

/-- When more than a digit is left over, the estimate is not too large. -/
theorem test_of_le (hr : B ≤ r) (hq : q * v0 ≤ B * B) : ¬ r * B + u < q * v0 := by
  have hle : B * B ≤ r * B := Nat.mul_le_mul_right B hr
  omega

def tested (U V q : ℕ) : ℕ := if U < q * V then q - 1 else q

theorem tested_eq_div (hV : 0 < V) (hle : U / V ≤ q) (h : q ≤ U / V + 1) :
    tested U V q = U / V := by
  have hlt : U < (U / V + 1) * V := (Nat.div_lt_iff_lt_mul hV).1 (Nat.lt_succ_self _)
  have hge : U / V * V ≤ U := Nat.div_mul_le_self U V
  obtain rfl | rfl : q = U / V ∨ q = U / V + 1 := by omega
  · rw [tested, if_neg (by omega)]
  · rw [tested, if_pos hlt, Nat.add_sub_cancel]

theorem tested_of_two (hV : 0 < V) (hle : U / V ≤ q) (h : q ≤ U / V + 2) :
    U / V ≤ tested U V q ∧ tested U V q ≤ U / V + 1 := by
  have hge : U / V * V ≤ U := Nat.div_mul_le_self U V
  rw [tested]
  split
  case isTrue hlt =>
    have hne : q ≠ U / V := by rintro rfl; omega
    exact ⟨Nat.le_sub_one_of_lt (lt_of_le_of_ne hle hne.symm), Nat.sub_le_iff_le_add.2 h⟩
  case isFalse hnot =>
    have hqle : q ≤ U / V := (Nat.le_div_iff_mul_le hV).2 (by omega)
    omega

/-- **Two tests** are enough for an estimate that is at most two too large. -/
theorem corrected (hV : 0 < V) (hle : U / V ≤ q) (h : q ≤ U / V + 2) :
    tested U V (tested U V q) = U / V :=
  tested_eq_div hV (tested_of_two hV hle h).1 (tested_of_two hV hle h).2

/-- The estimate is a digit, so it can only be too small at the last one. -/
theorem corrected_min (hV : 0 < V) (hle : min (B - 1) (U / V) ≤ q) (hq : q ≤ B - 1)
    (h : q ≤ U / V + 2) : tested U V (tested U V q) = min (B - 1) (U / V) := by
  by_cases hdiv : U / V ≤ q
  · rw [corrected hV hdiv h, min_eq_right (hdiv.trans hq)]
  · have hnot : ¬ U < q * V := by
      rw [Nat.not_lt]
      exact (Nat.le_div_iff_mul_le hV).1 (Nat.le_of_not_le hdiv)
    rw [tested, tested, if_neg hnot, if_neg hnot]
    omega

/-! ## Two digits by one -/

theorem digits_le (hv : 0 < v1) (hu : u < B) : (N * B + u) / (v1 * B + v0) ≤ N / v1 := by
  have hB : 0 < v1 * B := Nat.mul_pos hv (by omega)
  have hcut : (N * B + u) / B = N := by
    rw [Nat.add_comm, Nat.add_mul_div_right _ _ (by omega), Nat.div_eq_of_lt hu, Nat.zero_add]
  calc (N * B + u) / (v1 * B + v0) ≤ (N * B + u) / (v1 * B) :=
        Nat.div_le_div_left (Nat.le_add_right _ _) hB
    _ = N / v1 := by rw [Nat.mul_comm v1 B, ← Nat.div_div_eq_div_mul, hcut]

/-- Where the first digit of the divisor is large, the digits that were left out matter little. -/
theorem le_digits_add_two (hV : 0 < v1 * B + v0) (hq : q * v1 ≤ N)
    (hn : q * v0 ≤ 2 * (v1 * B + v0)) : q ≤ (N * B + u) / (v1 * B + v0) + 2 := by
  have hle : (q - 2) * (v1 * B + v0) ≤ N * B + u := by
    have hN : q * v1 * B ≤ N * B := Nat.mul_le_mul_right B hq
    have hmul : q * (v1 * B + v0) = q * v1 * B + q * v0 := by ring
    rw [Nat.sub_mul]
    omega
  have := (Nat.le_div_iff_mul_le hV).2 hle
  omega

/-! ## All digits -/

theorem digit_le (hV : 0 < V) (hP : 0 < P) (hw : w < P) (hW : (U * P + w) / (V * P + v') < B) :
    (U * P + w) / (V * P + v') ≤ min (B - 1) (U / V) := by
  have hVP : 0 < V * P := Nat.mul_pos hV hP
  have hcut : (U * P + w) / P = U := by
    rw [Nat.add_comm, Nat.add_mul_div_right _ _ hP, Nat.div_eq_of_lt hw, Nat.zero_add]
  have hle : (U * P + w) / (V * P + v') ≤ U / V :=
    calc (U * P + w) / (V * P + v') ≤ (U * P + w) / (V * P) :=
          Nat.div_le_div_left (Nat.le_add_right _ _) hVP
      _ = U / V := by rw [Nat.mul_comm V P, ← Nat.div_div_eq_div_mul, hcut]
  omega

/-- The quotient of the leading digits is at most one too large. -/
theorem le_digit_succ (hV : B ≤ V) (hv' : v' < P) :
    min (B - 1) (U / V) ≤ (U * P + w) / (V * P + v') + 1 := by
  obtain hB | hB := Nat.eq_zero_or_pos B
  · simp [hB]
  have hpos : 0 < V * P + v' := by
    have hVP : 0 < V * P := Nat.mul_pos (by omega) (by omega)
    omega
  let q := min (B - 1) (U / V)
  have hqU : q * V ≤ U :=
    (Nat.mul_le_mul_right V (min_le_right _ _)).trans (Nat.div_mul_le_self U V)
  have hqB : q ≤ B := (min_le_left _ _).trans (Nat.sub_le B 1)
  -- the digits that were left out of the divisor make up less than one divisor
  have hrest : q * v' ≤ V * P + v' := by
    calc q * v' ≤ V * P := Nat.mul_le_mul (hqB.trans hV) hv'.le
      _ ≤ V * P + v' := Nat.le_add_right _ _
  have hle : (q - 1) * (V * P + v') ≤ U * P + w := by
    have hqP : q * V * P ≤ U * P := Nat.mul_le_mul_right P hqU
    have hmul : q * (V * P + v') = q * V * P + q * v' := by ring
    rw [Nat.sub_mul]
    omega
  have := (Nat.le_div_iff_mul_le hpos).2 hle
  omega

end LongDivision
