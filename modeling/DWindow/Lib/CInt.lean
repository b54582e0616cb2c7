import Mathlib.Data.Int.DivMod
import Mathlib.Tactic.NormNum

/-!
# Casts between C integers

A value of a C integer type is a Lean `Int` or `Nat`; a cast, or arithmetic that
wraps, reduces it to the range of the type.
-/

namespace CInt

/-- The value an `(int)` cast leaves. -/
def toInt32 (n : Int) : Int := n.bmod (2 ^ 32)

/-- The value an `(__int64)` cast leaves. -/
def toInt64 (n : Int) : Int := n.bmod (2 ^ 64)

/-- The value a `(DWORD)` cast leaves. -/
def toDWORD (n : Int) : Nat := (n % 2 ^ 32).toNat

/-- The value of a byte that stores sign and magnitude. -/
def signMagnitude (b : UInt8) : Int :=
  if b &&& 0x80 ≠ 0 then -((b &&& 0x7f).toNat : Int) else (b &&& 0x7f).toNat

theorem toInt32_of_lt {n : Int} (h0 : -2 ^ 31 ≤ n) (h : n < 2 ^ 31) : toInt32 n = n :=
  Int.bmod_eq_of_le (by norm_num; omega) (by norm_num; omega)

theorem toInt64_of_lt {n : Int} (h0 : -2 ^ 63 ≤ n) (h : n < 2 ^ 63) : toInt64 n = n :=
  Int.bmod_eq_of_le (by norm_num; omega) (by norm_num; omega)

/-- A sum of two `__int64`s that is too large is a negative one. -/
theorem toInt64_of_ge {n : Int} (h : 2 ^ 63 ≤ n) (hlt : n < 2 ^ 64 + 2 ^ 63) :
    toInt64 n = n - 2 ^ 64 := by
  have hwrap : toInt64 (n - 2 ^ 64) = toInt64 n := by
    rw [toInt64, toInt64, show n - 2 ^ 64 = n - 1 * ((2 ^ 64 : Nat) : Int) by norm_num,
      Int.sub_mul_bmod_self_right]
  rw [← hwrap, toInt64_of_lt (by omega) (by omega)]

/-- A difference of two `__int64`s that is too small comes out large. -/
theorem toInt64_of_lt_neg {n : Int} (h : n < -2 ^ 63) (hge : -2 ^ 64 - 2 ^ 63 ≤ n) :
    toInt64 n = n + 2 ^ 64 := by
  have hwrap : toInt64 (n + 2 ^ 64) = toInt64 n := by
    rw [toInt64, toInt64, show n + 2 ^ 64 = n + 1 * ((2 ^ 64 : Nat) : Int) by norm_num,
      Int.add_mul_bmod_self_right]
  rw [← hwrap, toInt64_of_lt (by omega) (by omega)]

theorem toDWORD_of_lt {n : Int} (h0 : 0 ≤ n) (h : n < 2 ^ 32) : (toDWORD n : Int) = n := by
  rw [toDWORD, Int.emod_eq_of_lt h0 h, Int.toNat_of_nonneg h0]

theorem toInt32_range (n : Int) : -2147483648 ≤ toInt32 n ∧ toInt32 n < 2147483648 := by
  have hle : -(((2 ^ 32 : Nat) : Int) / 2) ≤ toInt32 n := Int.le_bmod (by norm_num)
  have hlt : toInt32 n < (((2 ^ 32 : Nat) : Int) + 1) / 2 := Int.bmod_lt (by norm_num)
  norm_num at hle hlt
  exact ⟨hle, hlt⟩

/-- A number too large for an `int` wraps to a smaller one. -/
theorem toInt32_le_sub {n : Int} (h : 2 ^ 31 ≤ n) : toInt32 n ≤ n - 2 ^ 32 := by
  obtain ⟨k, hk⟩ := Int.dvd_self_sub_bmod (x := n) (m := 2 ^ 32)
  have hlt := (toInt32_range n).2
  change n - toInt32 n = _ at hk
  push_cast at hk
  omega

theorem toInt32_le {n : Int} (h : 0 ≤ n) : toInt32 n ≤ n := by
  by_cases hlt : n < 2 ^ 31
  · exact (toInt32_of_lt (by omega) hlt).le
  · have := toInt32_le_sub (Int.not_lt.mp hlt)
    omega

/-- Two numbers are one `int` when they differ by a multiple of its range. -/
theorem toInt32_eq_iff {a b : Int} : toInt32 a = toInt32 b ↔ (2 : Int) ^ 32 ∣ a - b := by
  rw [Int.dvd_iff_emod_eq_zero, ← Int.emod_eq_emod_iff_emod_sub_eq_zero]
  constructor
  · intro h
    have hmod := congrArg (· % ((2 ^ 32 : Nat) : Int)) h
    simp only [toInt32, Int.bmod_emod] at hmod
    exact hmod
  · intro h
    rw [toInt32, toInt32, ← Int.emod_bmod a, ← Int.emod_bmod b]
    exact congrArg (Int.bmod · (2 ^ 32)) h

theorem dvd_toInt32_iff {n : Int} : (2 : Int) ^ 32 ∣ toInt32 n ↔ (2 : Int) ^ 32 ∣ n := by
  rw [Int.dvd_iff_emod_eq_zero, Int.dvd_iff_emod_eq_zero]
  have hmod : toInt32 n % ((2 ^ 32 : Nat) : Int) = n % ((2 ^ 32 : Nat) : Int) := Int.bmod_emod
  exact ⟨fun h => hmod.symm.trans h, fun h => hmod.trans h⟩

end CInt
