import DWindow.Checksum.BigNumber

/-!
# Shifts

`BigNumberShiftLeft` and `BigNumberShiftRight` of `basicRSA.cpp` move the bits that leave a word
with a mask, which a loop makes.  A division shifts by what the high bit of its divisor lacks.

* `bigNumberShiftLeft_eq`: the product with a power of 2, with the bits that are left over.
* `bigNumberShiftRight_eq`: the quotient by one.
* `highBit_spec`: the shift of a division brings a bit to the top.
-/

namespace DWindow.Checksum

open Words

/-! ## To the left -/

/-- The mask of `BigNumberShiftLeft`. -/
def shiftLeftMask (x : ℕ) : DWORD :=
  if x = 0 then 0 else (fun mask : DWORD => (mask >>> 1) ||| mask)^[x - 1] hiBitMask

/-- The loop of `BigNumberShiftLeft`, from the carry. -/
def shiftLeftLoop (x : ℕ) (carry : DWORD) : List DWORD → List DWORD × DWORD
  | [] => ([], carry)
  | b :: bs =>
    let nextcarry := (b &&& shiftLeftMask x) >>> UInt32.ofNat (32 - x)
    let rest := shiftLeftLoop x nextcarry bs
    ((b <<< UInt32.ofNat x ||| carry) :: rest.1, rest.2)

/-- `BigNumberShiftLeft`, of the words `b` to the words `a`. -/
def bigNumberShiftLeft (a b : List DWORD) (x : ℕ) : List DWORD × DWORD :=
  if 32 ≤ x then (a, 0) else shiftLeftLoop x 0 b

theorem shiftLeftMask_shiftRight : ∀ x < 32, (shiftLeftMask x).toNat >>> (32 - x) = 2 ^ x - 1 := by
  decide

theorem toNat_ofNat_mod {x : ℕ} (h : x < 32) : (UInt32.ofNat x).toNat % 32 = x := by
  rw [UInt32.toNat_ofNat']
  omega

theorem toNat_and_shiftLeftMask {x : ℕ} (hx : x < 32) (b : DWORD) :
    ((b &&& shiftLeftMask x) >>> UInt32.ofNat (32 - x)).toNat = b.toNat / 2 ^ (32 - x) := by
  have hb := b.toNat_lt
  obtain rfl | hpos := Nat.eq_zero_or_pos x
  · rw [show shiftLeftMask 0 = 0 from rfl, UInt32.and_zero, UInt32.zero_shiftRight, toNat_zero]
    exact (Nat.div_eq_of_lt hb).symm
  · have hlt : b.toNat >>> (32 - x) < 2 ^ x := by
      rw [Nat.shiftRight_eq_div_pow]
      apply Nat.div_lt_of_lt_mul
      rw [← pow_add, Nat.sub_add_cancel hx.le]
      exact hb
    rw [UInt32.toNat_shiftRight, toNat_ofNat_mod (by omega), UInt32.toNat_and,
      Nat.shiftRight_and_distrib, shiftLeftMask_shiftRight x hx,
      Nat.and_two_pow_sub_one_of_lt_two_pow hlt, Nat.shiftRight_eq_div_pow]

theorem shiftLeft_word {x : ℕ} (hx : x < 32) (b : DWORD) {carry : DWORD}
    (hc : carry.toNat < 2 ^ x) :
    (b <<< UInt32.ofNat x ||| carry).toNat + radix * (b.toNat / 2 ^ (32 - x)) =
      b.toNat * 2 ^ x + carry.toNat := by
  have hpow : 2 ^ (32 - x) * 2 ^ x = radix := by rw [← pow_add, Nat.sub_add_cancel hx.le]; rfl
  have hword : (b <<< UInt32.ofNat x).toNat = 2 ^ x * (b.toNat % 2 ^ (32 - x)) := by
    rw [UInt32.toNat_shiftLeft, toNat_ofNat_mod hx, Nat.shiftLeft_eq]
    change b.toNat * 2 ^ x % radix = _
    rw [← hpow, Nat.mul_mod_mul_right, Nat.mul_comm]
  rw [toNat_or_of_lt hword hc, hword]
  have hdm := Nat.div_add_mod b.toNat (2 ^ (32 - x))
  linear_combination 2 ^ x * hdm - b.toNat / 2 ^ (32 - x) * hpow

theorem shiftLeftLoop_eq {x : ℕ} (hx : x < 32) : ∀ (bs : List DWORD) {carry : DWORD},
    carry.toNat < 2 ^ x →
    (shiftLeftLoop x carry bs).1.length = bs.length ∧
      value (shiftLeftLoop x carry bs).1 +
          radix ^ bs.length * (shiftLeftLoop x carry bs).2.toNat =
        value bs * 2 ^ x + carry.toNat ∧
      (shiftLeftLoop x carry bs).2.toNat < 2 ^ x
  | [], carry, hc => by simpa [shiftLeftLoop] using hc
  | b :: bs, carry, hc => by
    have hnext := toNat_and_shiftLeftMask hx b
    have hword := shiftLeft_word hx b hc
    have hlt : b.toNat / 2 ^ (32 - x) < 2 ^ x := by
      apply Nat.div_lt_of_lt_mul
      rw [← pow_add, Nat.sub_add_cancel hx.le]
      exact b.toNat_lt
    obtain ⟨hlength, hrest, hcarry⟩ := shiftLeftLoop_eq hx bs (by rw [hnext]; exact hlt)
    refine ⟨by simp [shiftLeftLoop, hlength], ?_, hcarry⟩
    rw [hnext] at hrest
    simp only [shiftLeftLoop, value_cons, List.length_cons, pow_succ]
    linear_combination hword + radix * hrest

/-- **The product** with a power of 2. -/
theorem bigNumberShiftLeft_eq (a b : List DWORD) {x : ℕ} (hx : x < 32) :
    (bigNumberShiftLeft a b x).1.length = b.length ∧
      value (bigNumberShiftLeft a b x).1 + radix ^ b.length * (bigNumberShiftLeft a b x).2.toNat =
        value b * 2 ^ x ∧
      (bigNumberShiftLeft a b x).2.toNat < 2 ^ x := by
  rw [bigNumberShiftLeft, if_neg (by omega)]
  exact shiftLeftLoop_eq hx b (by rw [toNat_zero]; exact Nat.two_pow_pos x)

/-! ## To the right -/

/-- The mask of `BigNumberShiftRight`. -/
def shiftRightMask (x : ℕ) : DWORD :=
  if x = 0 then 0 else (fun mask : DWORD => (mask <<< 1) ||| mask)^[x - 1] 1

/-- The loop of `BigNumberShiftRight`, which starts at the last word. -/
def shiftRightLoop (x : ℕ) : List DWORD → List DWORD × DWORD
  | [] => ([], 0)
  | b :: bs =>
    let rest := shiftRightLoop x bs
    ((b >>> UInt32.ofNat x ||| rest.2) :: rest.1,
      (b &&& shiftRightMask x) <<< UInt32.ofNat (32 - x))

/-- `BigNumberShiftRight`, of the words `b` to the words `a`. -/
def bigNumberShiftRight (a b : List DWORD) (x : ℕ) : List DWORD × DWORD :=
  if 32 ≤ x then (a, 0) else shiftRightLoop x b

theorem toNat_shiftRightMask : ∀ x < 32, (shiftRightMask x).toNat = 2 ^ x - 1 := by decide

theorem toNat_and_shiftRightMask {x : ℕ} (hx : x < 32) (b : DWORD) :
    ((b &&& shiftRightMask x) <<< UInt32.ofNat (32 - x)).toNat =
      2 ^ (32 - x) * (b.toNat % 2 ^ x) := by
  have hpow : 2 ^ (32 - x) * 2 ^ x = radix := by rw [← pow_add, Nat.sub_add_cancel hx.le]; rfl
  obtain rfl | hpos := Nat.eq_zero_or_pos x
  · rw [show shiftRightMask 0 = 0 from rfl, UInt32.and_zero, UInt32.zero_shiftLeft, toNat_zero,
      pow_zero, Nat.mod_one, Nat.mul_zero]
  · rw [UInt32.toNat_shiftLeft, toNat_ofNat_mod (by omega), UInt32.toNat_and,
      toNat_shiftRightMask x hx, Nat.and_two_pow_sub_one_eq_mod, Nat.shiftLeft_eq, Nat.mul_comm]
    apply Nat.mod_eq_of_lt
    calc 2 ^ (32 - x) * (b.toNat % 2 ^ x) < 2 ^ (32 - x) * 2 ^ x :=
          Nat.mul_lt_mul_of_pos_left (Nat.mod_lt _ (Nat.two_pow_pos x)) (Nat.two_pow_pos _)
      _ = 2 ^ 32 := hpow

theorem shiftRight_word {x r : ℕ} (hx : x < 32) (b : DWORD) {carry : DWORD}
    (hc : carry.toNat = 2 ^ (32 - x) * r) :
    (b >>> UInt32.ofNat x ||| carry).toNat = b.toNat / 2 ^ x + 2 ^ (32 - x) * r := by
  have hword : (b >>> UInt32.ofNat x).toNat = b.toNat / 2 ^ x := by
    rw [UInt32.toNat_shiftRight, toNat_ofNat_mod hx, Nat.shiftRight_eq_div_pow]
  have hlt : b.toNat / 2 ^ x < 2 ^ (32 - x) := by
    apply Nat.div_lt_of_lt_mul
    rw [← pow_add, Nat.add_sub_cancel' hx.le]
    exact b.toNat_lt
  rw [UInt32.or_comm, toNat_or_of_lt hc (by rw [hword]; exact hlt), hc, hword, Nat.add_comm]

theorem shiftRightLoop_eq {x : ℕ} (hx : x < 32) : ∀ bs : List DWORD,
    (shiftRightLoop x bs).1.length = bs.length ∧
      value (shiftRightLoop x bs).1 = value bs / 2 ^ x ∧
      (shiftRightLoop x bs).2.toNat = 2 ^ (32 - x) * (value bs % 2 ^ x)
  | [] => by simp [shiftRightLoop]
  | b :: bs => by
    obtain ⟨hlength, hrest, hcarry⟩ := shiftRightLoop_eq hx bs
    have hpow : 2 ^ (32 - x) * 2 ^ x = radix := by rw [← pow_add, Nat.sub_add_cancel hx.le]; rfl
    have hdm := Nat.div_add_mod (value bs) (2 ^ x)
    -- what is above the word falls on the bits of the word, and on a multiple of the power
    have hvalue : b.toNat + radix * value bs =
        b.toNat + 2 ^ x * (radix * (value bs / 2 ^ x) + 2 ^ (32 - x) * (value bs % 2 ^ x)) := by
      linear_combination radix * hdm.symm + (value bs % 2 ^ x) * hpow.symm
    refine ⟨by simp [shiftRightLoop, hlength], ?_, ?_⟩
    · simp only [shiftRightLoop, value_cons]
      rw [shiftRight_word hx b hcarry, hrest, hvalue,
        Nat.add_mul_div_left _ _ (Nat.two_pow_pos x)]
      ring
    · simp only [shiftRightLoop, value_cons]
      rw [toNat_and_shiftRightMask hx, hvalue, Nat.add_mul_mod_self_left]

/-- **The quotient** by a power of 2. -/
theorem bigNumberShiftRight_eq (a b : List DWORD) {x : ℕ} (hx : x < 32) :
    (bigNumberShiftRight a b x).1.length = b.length ∧
      value (bigNumberShiftRight a b x).1 = value b / 2 ^ x := by
  rw [bigNumberShiftRight, if_neg (by omega)]
  exact ⟨(shiftRightLoop_eq hx b).1, (shiftRightLoop_eq hx b).2.1⟩

/-! ## The high bit -/

/-- The loop that looks for the high bit, with `n` bits of the mask left. -/
def highBitLoop (v : DWORD) : ℕ → DWORD → ℕ
  | 0, _ => 0
  | n + 1, bitmask => if v &&& bitmask ≠ 0 then 0 else highBitLoop v n (bitmask >>> 1) + 1

/-- The `shift` of a divisor. -/
def highBit (v : DWORD) : ℕ := highBitLoop v 32 hiBitMask

theorem and_two_pow_ne_zero {v mask : DWORD} {n : ℕ} (hv : v.toNat < 2 ^ (n + 1))
    (hm : mask.toNat = 2 ^ n) : v &&& mask ≠ 0 ↔ 2 ^ n ≤ v.toNat := by
  rw [Ne, ← toNat_eq_zero, UInt32.toNat_and, hm, Nat.and_two_pow,
    Nat.testBit_eq_decide_div_mod_eq]
  have hpow := Nat.two_pow_pos n
  rw [pow_succ] at hv
  have hlt : v.toNat / 2 ^ n < 2 := Nat.div_lt_of_lt_mul hv
  by_cases hle : 2 ^ n ≤ v.toNat
  · have hdiv : v.toNat / 2 ^ n = 1 := by
      have := Nat.div_pos hle hpow
      omega
    simp [hdiv, hle]
  · have hdiv : v.toNat / 2 ^ n = 0 := Nat.div_eq_of_lt (by omega)
    simp [hdiv, hle]

theorem toNat_shiftRight_one {mask : DWORD} {n : ℕ} (h : mask.toNat = 2 ^ (n + 1)) :
    (mask >>> 1).toNat = 2 ^ n := by
  rw [UInt32.toNat_shiftRight, h, Nat.shiftRight_eq_div_pow]
  change 2 ^ (n + 1) / 2 ^ 1 = 2 ^ n
  rw [pow_succ, pow_one, Nat.mul_div_cancel _ (by omega)]

theorem highBitLoop_spec {v : DWORD} (h0 : 0 < v.toNat) : ∀ {n : ℕ} (bitmask : DWORD), n ≤ 31 →
    v.toNat < 2 ^ (n + 1) → bitmask.toNat = 2 ^ n →
    highBitLoop v (n + 1) bitmask ≤ n ∧
      2 ^ n ≤ v.toNat * 2 ^ highBitLoop v (n + 1) bitmask ∧
      v.toNat * 2 ^ highBitLoop v (n + 1) bitmask < 2 ^ (n + 1)
  | n, bitmask, hn, hv, hm => by
    rw [highBitLoop]
    split
    case isTrue hbit =>
      rw [and_two_pow_ne_zero hv hm] at hbit
      simpa using ⟨hbit, hv⟩
    case isFalse hbit =>
      rw [and_two_pow_ne_zero hv hm] at hbit
      cases n with
      | zero => omega
      | succ n =>
        obtain ⟨hle, hlow, hhigh⟩ :=
          highBitLoop_spec h0 _ (by omega) (by omega) (toNat_shiftRight_one hm)
        have hshift : v.toNat * 2 ^ (highBitLoop v (n + 1) (bitmask >>> 1) + 1) =
            2 * (v.toNat * 2 ^ highBitLoop v (n + 1) (bitmask >>> 1)) := by ring
        rw [hshift, pow_succ 2 n, pow_succ 2 (n + 1)]
        omega

/-- **The shift** brings a bit of the word to the top. -/
theorem highBit_spec {v : DWORD} (h : v ≠ 0) :
    highBit v < 32 ∧ radix ≤ 2 * (v.toNat * 2 ^ highBit v) ∧ v.toNat * 2 ^ highBit v < radix := by
  obtain ⟨hle, hlow, hhigh⟩ := highBitLoop_spec (toNat_pos h) hiBitMask (n := 31)
    le_rfl v.toNat_lt rfl
  change highBit v ≤ 31 at hle
  change 2 ^ 31 ≤ v.toNat * 2 ^ highBit v at hlow
  change v.toNat * 2 ^ highBit v < 2 ^ 32 at hhigh
  rw [radix_eq]
  omega

end DWindow.Checksum
