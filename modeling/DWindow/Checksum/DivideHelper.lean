import DWindow.Checksum.Shift
import DWindow.Lib.LongDivision

/-!
# Division by a word

`BigNumberDivideHelper` of `basicRSA.cpp` divides two words by one whose high bit is set, in two
steps for the halves of the quotient.  A step estimates its half from the high half of the
divisor and tests it twice; the carry that `BigNumberMultSubHelper` loses is never missed, as
the half is then right.

* `divideHalf_eq`: a step.
* `bigNumberDivideHelper_of_lt`, `bigNumberDivideHelper_of_eq`: the quotient, and the answer that
  it does not fit into a word.
* `bigNumberDividedw_eq`: a number divided by a word.
-/

namespace DWindow.Checksum

open Words LongDivision

/-! ## Halves -/

def loHalf (x : DWORD) : DWORD := x &&& 0xffff

def hiHalf (x : DWORD) : DWORD := (x >>> 16) &&& 0xffff

def toHigh (x : DWORD) : DWORD := x <<< 16

/-- `_MAXHALFNR_ + 1`. -/
def halfRadix : DWORD := 0x10000

theorem toNat_loHalf (x : DWORD) : (loHalf x).toNat = x.toNat % 65536 := by
  rw [loHalf, UInt32.toNat_and]
  exact Nat.and_two_pow_sub_one_eq_mod x.toNat 16

theorem toNat_hiHalf (x : DWORD) : (hiHalf x).toNat = x.toNat / 65536 := by
  have hx := x.toNat_lt
  have hlt : x.toNat >>> 16 < 2 ^ 16 := by
    rw [Nat.shiftRight_eq_div_pow]
    omega
  rw [hiHalf, UInt32.toNat_and, UInt32.toNat_shiftRight]
  change x.toNat >>> 16 &&& (2 ^ 16 - 1) = _
  rw [Nat.and_two_pow_sub_one_of_lt_two_pow hlt, Nat.shiftRight_eq_div_pow]

theorem toNat_toHigh {x : DWORD} (h : x.toNat < 65536) : (toHigh x).toNat = x.toNat * 65536 := by
  rw [toHigh, UInt32.toNat_shiftLeft, Nat.shiftLeft_eq]
  change x.toNat * 65536 % 4294967296 = _
  omega

theorem toNat_toHigh_or {x y : DWORD} (hx : x.toNat < 65536) (hy : y.toNat < 65536) :
    (toHigh x ||| y).toNat = x.toNat * 65536 + y.toNat := by
  rw [toNat_or_of_lt (k := 16) (c := x.toNat) (by rw [toNat_toHigh hx, Nat.mul_comm]; rfl) hy,
    toNat_toHigh hx]

/-! ## A step -/

def bigNumberMultSubHelper (uu : DWORD × DWORD) (qhat v1 v0 : DWORD) : DWORD × DWORD :=
  let p0 := qhat * v0
  let p1 := qhat * v1
  let t := p0 + toHigh (loHalf p1)
  let uu0 := uu.1 - t
  let uu1 := if uu0 > maximumNr - t then uu.2 - 1 else uu.2
  (uu0, uu1 - hiHalf p1)

/-- The two tests of the estimate `t / v1`, with the next half `u` of the dividend. -/
def estimateHalf (t v1 v0 u : DWORD) : DWORD :=
  let qhat := t / v1
  let rhat := t - qhat * v1
  if qhat = halfRadix ∨ qhat * v0 > (toHigh rhat ||| u) then
    let qhat := qhat - 1
    let rhat := rhat + v1
    if rhat < halfRadix ∧ qhat * v0 > (toHigh rhat ||| u) then qhat - 1 else qhat
  else qhat

/-- A half of the quotient and what `uu[0]` is then. -/
def divideHalf (uu0 v v1 v0 u : DWORD) : DWORD × DWORD :=
  let qhat := estimateHalf uu0 v1 v0 u
  let uu := bigNumberMultSubHelper (toHigh (loHalf uu0) ||| u, hiHalf uu0) qhat v1 v0
  if hiHalf uu.2 ≠ 0 then (qhat - 1, uu.1 + v) else (qhat, uu.1)

theorem toNat_mul_half {q x : DWORD} (hq : q.toNat ≤ 65537) (hx : x.toNat < 65536) :
    (q * x).toNat = q.toNat * x.toNat := by
  rw [UInt32.toNat_mul]
  apply Nat.mod_eq_of_lt
  calc q.toNat * x.toNat ≤ 65537 * 65535 := Nat.mul_le_mul hq (by omega)
    _ < 2 ^ 32 := by norm_num

/-- **What is left** is right in `uu[0]`; a carry that is lost only shows in `uu[1]`. -/
theorem bigNumberMultSubHelper_eq (uu : DWORD × DWORD) (qhat : DWORD) {v1 v0 : DWORD}
    (hq : qhat.toNat < 65536) (hv1 : v1.toNat < 65536) (hv0 : v0.toNat < 65536) {d : ℕ}
    (hd : d < radix) (h : pair uu = qhat.toNat * (v1.toNat * 65536 + v0.toNat) + d) :
    (bigNumberMultSubHelper uu qhat v1 v0).1.toNat = d ∧
      (bigNumberMultSubHelper uu qhat v1 v0).2.toNat ≤ 1 := by
  have hp0 : (qhat * v0).toNat = qhat.toNat * v0.toNat := toNat_mul_half (by omega) hv0
  have hp1 : (qhat * v1).toNat = qhat.toNat * v1.toNat := toNat_mul_half (by omega) hv1
  let t := qhat * v0 + toHigh (loHalf (qhat * v1))
  have hlow : (toHigh (loHalf (qhat * v1))).toNat = (qhat * v1).toNat % 65536 * 65536 := by
    rw [toNat_toHigh, toNat_loHalf]
    rw [toNat_loHalf]
    omega
  have ht : t.toNat =
      (qhat.toNat * v0.toNat + (qhat.toNat * v1.toNat) % 65536 * 65536) % 4294967296 := by
    rw [UInt32.toNat_add, hlow, hp0, hp1]
  have hhigh : (hiHalf (qhat * v1)).toNat = qhat.toNat * v1.toNat / 65536 := by
    rw [toNat_hiHalf, hp1]
  have hlt0 : qhat.toNat * v0.toNat < 4294967296 := by rw [← hp0]; exact toNat_lt _
  have hlt1 : qhat.toNat * v1.toNat < 4294967296 := by rw [← hp1]; exact toNat_lt _
  have hall : uu.1.toNat + 4294967296 * uu.2.toNat =
      qhat.toNat * v1.toNat * 65536 + qhat.toNat * v0.toNat + d := by
    rw [← radix_eq]
    rw [pair] at h
    rw [h]
    ring
  rw [radix_eq] at hd
  -- the carry that is lost
  obtain ⟨c, hc, hsum⟩ : ∃ c ≤ 1, qhat.toNat * v0.toNat +
      (qhat.toNat * v1.toNat) % 65536 * 65536 = t.toNat + 4294967296 * c :=
    ⟨(qhat.toNat * v0.toNat + (qhat.toNat * v1.toNat) % 65536 * 65536) / 4294967296,
      by omega, by omega⟩
  have hu' := uu.2.toNat_lt
  have hlt := (uu.1 - t).toNat_lt
  change (uu.1 - t).toNat = d ∧
    ((if uu.1 - t > maximumNr - t then uu.2 - 1 else uu.2) - hiHalf (qhat * v1)).toNat ≤ 1
  have hone : (uu.2 - 1).toNat = (4294967295 + uu.2.toNat) % 4294967296 := UInt32.toNat_sub _ _
  rw [UInt32.toNat_sub _ (hiHalf _), hhigh]
  split
  case isTrue hborrow =>
    have hsub := toNat_sub_of_lt hborrow
    rw [radix_eq] at hsub
    have habove : uu.2.toNat = qhat.toNat * v1.toNat / 65536 + c + 1 :=
      above_unique (x := (uu.1 - t).toNat) hlt hd (by omega)
    rw [hone]
    omega
  case isFalse hborrow =>
    have hsub := toNat_sub_of_not_lt hborrow
    have habove : uu.2.toNat = qhat.toNat * v1.toNat / 65536 + c :=
      above_unique (x := (uu.1 - t).toNat) hlt hd (by omega)
    omega

theorem mul_gt_iff {q r v1 v0 u : DWORD} {N : ℕ} (hq : q.toNat ≤ 65537) (hr : r.toNat < 65536)
    (hv0 : v0.toNat < 65536) (hu : u.toNat < 65536) (hN : N = q.toNat * v1.toNat + r.toNat) :
    q * v0 > (toHigh r ||| u) ↔
      N * 65536 + u.toNat < q.toNat * (v1.toNat * 65536 + v0.toNat) := by
  rw [gt_iff_lt, UInt32.lt_iff_toNat_lt, toNat_toHigh_or hr hu, toNat_mul_half hq hv0]
  exact test_iff hN

/-- **The estimate** of a half is right after its tests. -/
theorem toNat_estimateHalf {t v1 v0 u : DWORD}
    (hn : radix ≤ 2 * (v1.toNat * 65536 + v0.toNat)) (hv1 : v1.toNat < 65536)
    (hv0 : v0.toNat < 65536) (hu : u.toNat < 65536)
    (ht : t.toNat < v1.toNat * 65536 + v0.toNat) :
    (estimateHalf t v1 v0 u).toNat =
      (t.toNat * 65536 + u.toNat) / (v1.toNat * 65536 + v0.toNat) := by
  rw [radix_eq] at hn
  have hdiv : t.toNat / v1.toNat < 65538 := by
    rw [Nat.div_lt_iff_lt_mul (by omega)]
    omega
  have hdm := Nat.div_add_mod t.toNat v1.toNat
  have hmod : t.toNat % v1.toNat < v1.toNat := Nat.mod_lt _ (by omega)
  let q := t / v1
  let r := t - q * v1
  have hq : q.toNat = t.toNat / v1.toNat := UInt32.toNat_div t v1
  have hqle : q.toNat ≤ 65537 := by
    rw [hq]
    exact Nat.le_of_lt_succ hdiv
  have hr : r.toNat = t.toNat % v1.toNat := by
    have ht' := t.toNat_lt
    have hmul : (q * v1).toNat = v1.toNat * (t.toNat / v1.toNat) := by
      rw [toNat_mul_half hqle hv1, hq, Nat.mul_comm]
    rw [UInt32.toNat_sub, hmul]
    omega
  have hN : t.toNat = q.toNat * v1.toNat + r.toNat := by
    rw [hq, hr, Nat.mul_comm, hdm]
  let U := t.toNat * 65536 + u.toNat
  let V := v1.toNat * 65536 + v0.toNat
  have hV : 0 < V := by omega
  have hUV : U < 65536 * V := by omega
  -- the first test
  have hfirst : (q = halfRadix ∨ q * v0 > (toHigh r ||| u)) ↔ U < q.toNat * V := by
    rw [mul_gt_iff hqle (by omega) hv0 hu hN]
    refine or_iff_right_of_imp fun hB => ?_
    rw [hB]
    exact hUV
  have hle : U / V ≤ q.toNat := by
    rw [hq]
    exact digits_le (by omega) hu
  have hle2 : q.toNat ≤ U / V + 2 := by
    refine @le_digits_add_two 65536 t.toNat u.toNat q.toNat v1.toNat v0.toNat hV (by omega) ?_
    have hmul := Nat.mul_le_mul hqle (Nat.le_of_lt_succ (show v0.toNat < 65535 + 1 from hv0))
    omega
  rw [← corrected hV hle hle2]
  change (if q = halfRadix ∨ q * v0 > (toHigh r ||| u) then
    if r + v1 < halfRadix ∧ (q - 1) * v0 > (toHigh (r + v1) ||| u) then q - 1 - 1 else q - 1
    else q).toNat = _
  by_cases hlt : U < q.toNat * V
  · rw [if_pos (hfirst.2 hlt)]
    have hq0 : q ≠ 0 := by
      intro h0
      rw [h0, toNat_zero, Nat.zero_mul] at hlt
      omega
    have hq1 : (q - 1).toNat = q.toNat - 1 := toNat_sub_one hq0
    have hr1 : (r + v1).toNat = r.toNat + v1.toNat := toNat_add_of_sum_lt (by rw [radix_eq]; omega)
    have hN1 : t.toNat = (q - 1).toNat * v1.toNat + (r + v1).toNat := by
      obtain ⟨p, hp⟩ : ∃ p, q.toNat = p + 1 := ⟨q.toNat - 1, by have := toNat_pos hq0; omega⟩
      rw [hq1, hr1, hN, hp, Nat.add_sub_cancel]
      ring
    -- the second test, which is left out where more than a half is left over
    have hsecond : (r + v1 < halfRadix ∧ (q - 1) * v0 > (toHigh (r + v1) ||| u)) ↔
        U < (q.toNat - 1) * V := by
      rw [UInt32.lt_iff_toNat_lt, ← hq1, ← test_iff hN1]
      change (r + v1).toNat < 65536 ∧ _ ↔ _
      by_cases hB : (r + v1).toNat < 65536
      · rw [mul_gt_iff (by omega) hB hv0 hu hN1, test_iff hN1]
        exact and_iff_right hB
      · have hnot : ¬ (r + v1).toNat * 65536 + u.toNat < (q - 1).toNat * v0.toNat :=
          test_of_le (Nat.le_of_not_lt hB) (Nat.mul_le_mul (by omega) (by omega))
        exact ⟨fun h => absurd h.1 hB, fun h => absurd h hnot⟩
    rw [tested, tested, if_pos hlt]
    by_cases hlt1 : U < (q.toNat - 1) * V
    · have hq1' : q - 1 ≠ 0 := by
        intro h0
        rw [← hq1, h0, toNat_zero, Nat.zero_mul] at hlt1
        omega
      rw [if_pos (hsecond.2 hlt1), if_pos hlt1, toNat_sub_one hq1', hq1]
    · rw [if_neg (mt hsecond.1 hlt1), if_neg hlt1, hq1]
  · rw [if_neg (mt hfirst.1 hlt), tested, tested, if_neg hlt, if_neg hlt]

theorem divideHalf_eq {uu0 v v1 v0 u : DWORD} (hv : v.toNat = v1.toNat * 65536 + v0.toNat)
    (hn : radix ≤ 2 * v.toNat) (hv0 : v0.toNat < 65536) (hu : u.toNat < 65536)
    (ht : uu0.toNat < v.toNat) :
    (divideHalf uu0 v v1 v0 u).1.toNat = (uu0.toNat * 65536 + u.toNat) / v.toNat ∧
      (divideHalf uu0 v v1 v0 u).2.toNat = (uu0.toNat * 65536 + u.toNat) % v.toNat := by
  have hvlt := v.toNat_lt
  have huu := uu0.toNat_lt
  have hv1 : v1.toNat < 65536 := by omega
  have hq : (estimateHalf uu0 v1 v0 u).toNat = (uu0.toNat * 65536 + u.toNat) / v.toNat := by
    rw [hv] at hn ht ⊢
    exact toNat_estimateHalf hn hv1 hv0 hu ht
  have hqlt : (estimateHalf uu0 v1 v0 u).toNat < 65536 := by
    rw [hq, Nat.div_lt_iff_lt_mul (by omega)]
    omega
  have hmod : (uu0.toNat * 65536 + u.toNat) % v.toNat < radix :=
    (Nat.mod_lt _ (by omega)).trans (toNat_lt v)
  have hlow : (loHalf uu0).toNat < 65536 := by rw [toNat_loHalf]; omega
  have hpair : pair (toHigh (loHalf uu0) ||| u, hiHalf uu0) =
      (estimateHalf uu0 v1 v0 u).toNat * (v1.toNat * 65536 + v0.toNat) +
        (uu0.toNat * 65536 + u.toNat) % v.toNat := by
    have hdm := Nat.div_add_mod (uu0.toNat * 65536 + u.toNat) v.toNat
    rw [hq, ← hv, Nat.mul_comm, hdm, pair, toNat_toHigh_or hlow hu, toNat_loHalf, toNat_hiHalf,
      radix_eq]
    omega
  obtain ⟨hrest, habove⟩ := bigNumberMultSubHelper_eq _ _ hqlt hv1 hv0 hmod hpair
  have hnot : ¬ hiHalf (bigNumberMultSubHelper (toHigh (loHalf uu0) ||| u, hiHalf uu0)
      (estimateHalf uu0 v1 v0 u) v1 v0).2 ≠ 0 := by
    rw [not_not, ← toNat_eq_zero, toNat_hiHalf]
    omega
  rw [divideHalf, if_neg hnot]
  exact ⟨hq, hrest⟩

/-! ## Two words by one -/

/-- The first half of `q2`, that is set where the quotient does not fit into a word. -/
def estimateTop (u3 u2 v1 v0 : DWORD) : DWORD :=
  let qhat : DWORD := if u3 < v1 then 0 else 1
  if qhat > 0 then
    let rhat := u3 - v1
    if v0 > (toHigh rhat ||| u2) then qhat - 1 else qhat
  else qhat

/-- `q2` and what `uu[0]` is then. -/
def divideTop (u1 v : DWORD) : DWORD × DWORD :=
  let qhat := estimateTop (hiHalf u1) (loHalf u1) (hiHalf v) (loHalf v)
  if qhat > 0 then
    let uu := bigNumberMultSubHelper (u1, 0) qhat (hiHalf v) (loHalf v)
    if hiHalf uu.2 ≠ 0 then (qhat - 1, uu.1 + v) else (qhat, uu.1)
  else (qhat, u1)

/-- The low half of the quotient under the high one, and what is left. -/
def divideLow (high : DWORD × DWORD) (u v : DWORD) : DWORD × DWORD :=
  (toHigh high.1 ||| loHalf (divideHalf high.2 v (hiHalf v) (loHalf v) (loHalf u)).1,
    (divideHalf high.2 v (hiHalf v) (loHalf v) (loHalf u)).2)

/-- `BigNumberDivideHelper`: its answer, the quotient and the remainder. -/
def bigNumberDivideHelper (u : DWORD × DWORD) (v : DWORD) : DWORD × DWORD × DWORD :=
  if v &&& hiBitMask = 0 then (maximumNr, 0, 0)
  else ((divideTop u.2 v).1,
    divideLow (divideHalf (divideTop u.2 v).2 v (hiHalf v) (loHalf v) (hiHalf u.1)) u.1 v)

theorem toNat_halves (v : DWORD) : v.toNat = (hiHalf v).toNat * 65536 + (loHalf v).toNat := by
  rw [toNat_hiHalf, toNat_loHalf]
  omega

theorem toNat_loHalf_lt (v : DWORD) : (loHalf v).toNat < 65536 := by
  rw [toNat_loHalf]
  exact Nat.mod_lt _ (by omega)

theorem toNat_hiHalf_lt (v : DWORD) : (hiHalf v).toNat < 65536 := by
  have hv := v.toNat_lt
  rw [toNat_hiHalf]
  omega

theorem and_hiBitMask_ne_zero {v : DWORD} (hn : radix ≤ 2 * v.toNat) : v &&& hiBitMask ≠ 0 := by
  rw [radix_eq] at hn
  rw [and_two_pow_ne_zero (n := 31) v.toNat_lt rfl]
  omega

theorem estimateTop_of_lt {u3 u2 v1 v0 : DWORD} (hu2 : u2.toNat < 65536) (hv0 : v0.toNat < 65536)
    (h : u3.toNat * 65536 + u2.toNat < v1.toNat * 65536 + v0.toNat) :
    estimateTop u3 u2 v1 v0 = 0 := by
  rw [estimateTop]
  by_cases hhigh : u3 < v1
  · rw [if_pos hhigh]
    exact if_neg (by decide)
  · have heq : u3 = v1 := by
      rw [UInt32.lt_iff_toNat_lt] at hhigh
      apply UInt32.toNat_inj.1
      omega
    subst heq
    have hgt : v0 > (toHigh (u3 - u3) ||| u2) := by
      rw [UInt32.sub_self, gt_iff_lt, UInt32.lt_iff_toNat_lt,
        toNat_toHigh_or (by rw [toNat_zero]; omega) hu2, toNat_zero, Nat.zero_mul, Nat.zero_add]
      exact Nat.lt_of_add_lt_add_left h
    rw [if_neg hhigh, if_pos (by decide), if_pos hgt]
    exact UInt32.sub_self 1

theorem estimateTop_self {v1 v0 : DWORD} (hv0 : v0.toNat < 65536) :
    estimateTop v1 v0 v1 v0 = 1 := by
  have hnot : ¬ v0 > (toHigh (v1 - v1) ||| v0) := by
    rw [UInt32.sub_self, gt_iff_lt, UInt32.lt_iff_toNat_lt,
      toNat_toHigh_or (by rw [toNat_zero]; omega) hv0, toNat_zero, Nat.zero_mul, Nat.zero_add]
    exact Nat.lt_irrefl _
  rw [estimateTop, if_neg (UInt32.lt_irrefl _), if_pos (by decide), if_neg hnot]

/-- Where the high word is below the divisor, the quotient is a word. -/
theorem divideTop_of_lt {u1 v : DWORD} (h : u1 < v) : divideTop u1 v = (0, u1) := by
  have hlt := UInt32.lt_iff_toNat_lt.1 h
  rw [toNat_halves u1, toNat_halves v] at hlt
  rw [divideTop, estimateTop_of_lt (toNat_loHalf_lt u1) (toNat_loHalf_lt v) hlt]
  exact if_neg (by decide)

theorem divideTop_self (v : DWORD) : (divideTop v v).1 = 1 := by
  obtain ⟨_, habove⟩ := bigNumberMultSubHelper_eq (v, 0) 1 (d := 0)
    (by rw [toNat_one]; omega) (toNat_hiHalf_lt v) (toNat_loHalf_lt v) radix_pos
    (by rw [pair, toNat_one, toNat_zero, ← toNat_halves]; ring)
  have hnot : ¬ hiHalf (bigNumberMultSubHelper (v, 0) 1 (hiHalf v) (loHalf v)).2 ≠ 0 := by
    rw [not_not, ← toNat_eq_zero, toNat_hiHalf]
    exact Nat.div_eq_of_lt (habove.trans_lt (by omega))
  have hpos : (1 : DWORD) > 0 := by decide
  rw [divideTop, estimateTop_self (toNat_loHalf_lt v)]
  dsimp only
  rw [if_pos hpos, if_neg hnot]

theorem divideLow_eq {top u v : DWORD} (hn : radix ≤ 2 * v.toNat) (ht : top.toNat < v.toNat)
    {high : DWORD × DWORD} (hhigh : high = divideHalf top v (hiHalf v) (loHalf v) (hiHalf u)) :
    (divideLow high u v).1.toNat = pair (u, top) / v.toNat ∧
      (divideLow high u v).2.toNat = pair (u, top) % v.toNat := by
  have hpos : 0 < v.toNat := by omega
  have hu := toNat_halves u
  have hu1 := toNat_hiHalf_lt u
  have hu0 := toNat_loHalf_lt u
  obtain ⟨hqa, hra⟩ := divideHalf_eq (toNat_halves v) hn (toNat_loHalf_lt v) hu1 ht
  rw [← hhigh] at hqa hra
  have hra_lt : high.2.toNat < v.toNat := by
    rw [hra]
    exact Nat.mod_lt _ hpos
  obtain ⟨hqb, hrb⟩ := divideHalf_eq (toNat_halves v) hn (toNat_loHalf_lt v) hu0 hra_lt
  rw [divideLow]
  generalize divideHalf high.2 v (hiHalf v) (loHalf v) (loHalf u) = low at hqb hrb ⊢
  obtain ⟨ql, rl⟩ := low
  dsimp only at hqb hrb ⊢
  have hqa_lt : high.1.toNat < 65536 := by
    rw [hqa, Nat.div_lt_iff_lt_mul hpos]
    omega
  have hqb_lt : ql.toNat < 65536 := by
    rw [hqb, Nat.div_lt_iff_lt_mul hpos]
    omega
  have hquot : (toHigh high.1 ||| loHalf ql).toNat = high.1.toNat * 65536 + ql.toNat := by
    rw [toNat_toHigh_or hqa_lt (toNat_loHalf_lt _), toNat_loHalf, Nat.mod_eq_of_lt hqb_lt]
  -- the remainder of the high half is the head of the rest
  have hall : pair (u, top) = rl.toNat + v.toNat * (high.1.toNat * 65536 + ql.toNat) := by
    have hdma := Nat.div_add_mod (top.toNat * 65536 + (hiHalf u).toNat) v.toNat
    have hdmb := Nat.div_add_mod (high.2.toNat * 65536 + (loHalf u).toNat) v.toNat
    rw [← hqa, ← hra] at hdma
    rw [← hqb, ← hrb] at hdmb
    rw [pair, radix_eq]
    linear_combination hu + 65536 * hdma.symm + hdmb.symm
  have hrl : rl.toNat < v.toNat := by
    rw [hrb]
    exact Nat.mod_lt _ hpos
  have hunique := (Nat.div_mod_unique hpos).2 ⟨hall.symm, hrl⟩
  exact ⟨hquot.trans hunique.1.symm, hunique.2.symm⟩

/-- **The quotient of two words** by one whose high bit is set. -/
theorem bigNumberDivideHelper_of_lt {u : DWORD × DWORD} {v : DWORD} (hn : radix ≤ 2 * v.toNat)
    (h : u.2 < v) :
    (bigNumberDivideHelper u v).1 = 0 ∧
      (bigNumberDivideHelper u v).2.1.toNat = pair u / v.toNat ∧
      (bigNumberDivideHelper u v).2.2.toNat = pair u % v.toNat := by
  rw [bigNumberDivideHelper, if_neg (and_hiBitMask_ne_zero hn), divideTop_of_lt h]
  exact ⟨rfl, divideLow_eq hn (UInt32.lt_iff_toNat_lt.1 h) rfl⟩

theorem bigNumberDivideHelper_of_eq {u : DWORD × DWORD} {v : DWORD} (hn : radix ≤ 2 * v.toNat)
    (h : u.2 = v) : (bigNumberDivideHelper u v).1 = 1 := by
  rw [bigNumberDivideHelper, if_neg (and_hiBitMask_ne_zero hn), h]
  exact divideTop_self v

/-! ## A number by a word -/

/-- The loop of `BigNumberDividedw`, which starts at the last word: the quotient and `r`. -/
def dividedwLoop (v : DWORD) : List DWORD → DWORD → List DWORD × DWORD
  | [], r => ([], r)
  | u :: us, r =>
    let above := dividedwLoop v us r
    let p := bigNumberDivideHelper (u, above.2) v
    (p.2.1 :: above.1, p.2.2)

/-- `BigNumberDividedw`: the array `q` and the remainder. -/
def bigNumberDividedw (q u : List DWORD) (v : DWORD) : List DWORD × DWORD :=
  if u.length = 0 then (q, 0)
  else if v = 0 then (q, 0)
  else
    match dividedwLoop (v <<< UInt32.ofNat (highBit v)) (bigNumberShiftLeft q u (highBit v)).1
      (bigNumberShiftLeft q u (highBit v)).2 with
    | (q, r) => (q, r >>> UInt32.ofNat (highBit v))

theorem dividedwLoop_eq {v : DWORD} (hn : radix ≤ 2 * v.toNat) : ∀ (us : List DWORD) {r : DWORD},
    r < v →
    (dividedwLoop v us r).1.length = us.length ∧ (dividedwLoop v us r).2 < v ∧
      value us + radix ^ us.length * r.toNat =
        value (dividedwLoop v us r).1 * v.toNat + (dividedwLoop v us r).2.toNat
  | [], r, hr => by simpa [dividedwLoop] using hr
  | u :: us, r, hr => by
    obtain ⟨hlength, hlt, hvalue⟩ := dividedwLoop_eq hn us hr
    obtain ⟨-, hq, hrem⟩ := bigNumberDivideHelper_of_lt (u := (u, (dividedwLoop v us r).2)) hn hlt
    have hdm := Nat.div_add_mod (pair (u, (dividedwLoop v us r).2)) v.toNat
    rw [← hq, ← hrem, pair] at hdm
    refine ⟨by simp [dividedwLoop, hlength], ?_, ?_⟩
    · rw [UInt32.lt_iff_toNat_lt] at hlt ⊢
      refine hrem.trans_lt (Nat.mod_lt _ ?_)
      omega
    · simp only [dividedwLoop, value_cons, List.length_cons, pow_succ]
      linear_combination radix * hvalue + hdm.symm

/-- A divisor that is shifted has its high bit set, and what leaves the dividend is less. -/
theorem dividedw_start (q u : List DWORD) {v : DWORD} (hv : v ≠ 0) :
    radix ≤ 2 * (v <<< UInt32.ofNat (highBit v)).toNat ∧
      (bigNumberShiftLeft q u (highBit v)).2 < v <<< UInt32.ofNat (highBit v) ∧
      (v <<< UInt32.ofNat (highBit v)).toNat = v.toNat * 2 ^ highBit v := by
  obtain ⟨hshift, hn, hlt⟩ := highBit_spec hv
  have hvs : (v <<< UInt32.ofNat (highBit v)).toNat = v.toNat * 2 ^ highBit v := by
    rw [UInt32.toNat_shiftLeft, toNat_ofNat_mod hshift, Nat.shiftLeft_eq]
    exact Nat.mod_eq_of_lt hlt
  obtain ⟨-, -, hover⟩ := bigNumberShiftLeft_eq q u hshift
  refine ⟨by rwa [hvs], ?_, hvs⟩
  rw [UInt32.lt_iff_toNat_lt, hvs]
  exact hover.trans_le (Nat.le_mul_of_pos_left _ (toNat_pos hv))

/-- **A number divided by a word.** -/
theorem bigNumberDividedw_eq {q u : List DWORD} {v : DWORD} (hu : u ≠ []) (hv : v ≠ 0) :
    (bigNumberDividedw q u v).1.length = u.length ∧
      value (bigNumberDividedw q u v).1 = value u / v.toNat ∧
      (bigNumberDividedw q u v).2.toNat = value u % v.toNat := by
  obtain ⟨hshift, -, -⟩ := highBit_spec hv
  obtain ⟨hn, hr, hvs⟩ := dividedw_start q u hv
  obtain ⟨hlength, hvalue, -⟩ := bigNumberShiftLeft_eq q u hshift
  obtain ⟨hlength', hrem, heq⟩ := dividedwLoop_eq hn (bigNumberShiftLeft q u (highBit v)).1 hr
  have hpow := Nat.two_pow_pos (highBit v)
  rw [hlength, hvalue, hvs] at heq
  rw [UInt32.lt_iff_toNat_lt, hvs] at hrem
  rw [bigNumberDividedw, if_neg (by simpa using hu), if_neg hv]
  generalize dividedwLoop (v <<< UInt32.ofNat (highBit v)) (bigNumberShiftLeft q u (highBit v)).1
    (bigNumberShiftLeft q u (highBit v)).2 = p at hlength' hrem heq ⊢
  obtain ⟨qs, r⟩ := p
  dsimp only at hlength' hrem heq ⊢
  -- the shift is taken back
  have hall : r.toNat + v.toNat * 2 ^ highBit v * value qs = value u * 2 ^ highBit v := by
    rw [heq]
    ring
  have hunique := (Nat.div_mod_unique (Nat.mul_pos (toNat_pos hv) hpow)).2 ⟨hall, hrem⟩
  rw [Nat.mul_div_mul_right _ _ hpow, Nat.mul_mod_mul_right] at hunique
  refine ⟨by rw [hlength', hlength], hunique.1.symm, ?_⟩
  rw [UInt32.toNat_shiftRight, toNat_ofNat_mod hshift, Nat.shiftRight_eq_div_pow, ← hunique.2,
    Nat.mul_div_cancel _ hpow]

end DWindow.Checksum
