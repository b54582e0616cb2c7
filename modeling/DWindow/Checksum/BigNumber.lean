import DWindow.Lib.Words
import Mathlib.Tactic.LinearCombination
import Mathlib.Tactic.Linarith

/-!
# Numbers of `DWORD`s

The arithmetic of `basicRSA.cpp` on arrays of words, the lowest first.  An array is a list of
`UInt32`, the loops over its index are recursions on it, and a count of words is a natural
number, as no array of an address space has too many of them for a `UINT`.

* `bigNumberAdd_eq`, `bigNumberMultSub_eq`: the sum with its carry, and a multiple of a number
  subtracted from another.
* `bigNumberShiftLeft_eq`, `bigNumberShiftRight_eq`: a product with, and a quotient by, a power
  of 2.
* `value_bigNumberMultiply`: the product has all its words right.
-/

namespace DWindow.Checksum

open Words

abbrev DWORD := UInt32

def maximumNr : DWORD := 0xffffffff

def hiBitMask : DWORD := 0x80000000

/-! ## Words -/

/-- `BigNumberMultiplyHelper`: the signed product wraps, and its two words are those of the
unsigned one. -/
def bigNumberMultiplyHelper (x y : DWORD) : DWORD × DWORD :=
  let o : UInt64 := x.toUInt64 * y.toUInt64
  ((o &&& 0xffffffff).toUInt32, ((o &&& 0xffffffff00000000) >>> 32).toUInt32)

def pair (p : DWORD × DWORD) : ℕ := p.1.toNat + radix * p.2.toNat

theorem toNat_mul_lt (x y : DWORD) : x.toNat * y.toNat ≤ (radix - 1) * (radix - 1) :=
  Nat.mul_le_mul (Nat.le_sub_one_of_lt (toNat_lt x)) (Nat.le_sub_one_of_lt (toNat_lt y))

theorem pair_bigNumberMultiplyHelper (x y : DWORD) :
    pair (bigNumberMultiplyHelper x y) = x.toNat * y.toNat := by
  have hle := toNat_mul_lt x y
  rw [radix_eq] at hle
  let o : UInt64 := x.toUInt64 * y.toUInt64
  have ho : o.toNat = x.toNat * y.toNat := by
    rw [UInt64.toNat_mul, UInt32.toNat_toUInt64, UInt32.toNat_toUInt64]
    omega
  have hlow : (o &&& 0xffffffff).toNat = o.toNat % 2 ^ 32 := by
    rw [UInt64.toNat_and]
    exact Nat.and_two_pow_sub_one_eq_mod o.toNat 32
  have hhigh : ((o &&& 0xffffffff00000000) >>> 32).toNat = o.toNat / 2 ^ 32 := by
    have hlt : o.toNat >>> 32 < 2 ^ 32 := by rw [Nat.shiftRight_eq_div_pow]; omega
    rw [UInt64.toNat_shiftRight, UInt64.toNat_and]
    change (o.toNat &&& 0xffffffff00000000) >>> 32 = _
    rw [Nat.shiftRight_and_distrib]
    change o.toNat >>> 32 &&& (2 ^ 32 - 1) = _
    rw [Nat.and_two_pow_sub_one_of_lt_two_pow hlt, Nat.shiftRight_eq_div_pow]
  change ((o &&& 0xffffffff).toUInt32).toNat +
    radix * (((o &&& 0xffffffff00000000) >>> 32).toUInt32).toNat = _
  rw [UInt64.toNat_toUInt32, UInt64.toNat_toUInt32, hlow, hhigh, ho, radix_eq]
  omega

/-- `p[0] += a; if (p[0] < a) p[1]++;`. -/
def addLow (p : DWORD × DWORD) (a : DWORD) : DWORD × DWORD :=
  (p.1 + a, if p.1 + a < a then p.2 + 1 else p.2)

theorem pair_addLow {p : DWORD × DWORD} {a : DWORD} (h : pair p + a.toNat < radix * radix) :
    pair (addLow p a) = pair p + a.toNat := by
  simp only [pair, addLow] at h ⊢
  split
  case isTrue hlt =>
    have hsum := toNat_add_of_lt hlt
    have hhigh : p.2.toNat + 1 < radix := by
      apply Nat.lt_of_mul_lt_mul_left (a := radix)
      rw [Nat.mul_add, Nat.mul_one]
      omega
    rw [toNat_succ hhigh, Nat.mul_add]
    omega
  case isFalse hlt =>
    rw [toNat_add_of_not_lt hlt]
    omega

/-! ## Sums -/

/-- A step of `BigNumberAdd`: the word and the next carry. -/
def addWord (k a b : DWORD) : DWORD × DWORD :=
  let c := a + k
  let k' : DWORD := if c ≥ k then 0 else 1
  (c + b, if c + b < b then k' + 1 else k')

/-- The loop of `BigNumberAdd`, from the carry `k`. -/
def bigNumberAddLoop (k : DWORD) : List DWORD → List DWORD → List DWORD × DWORD
  | a :: as, b :: bs =>
    let c := addWord k a b
    let rest := bigNumberAddLoop c.2 as bs
    (c.1 :: rest.1, rest.2)
  | _, _ => ([], k)

def bigNumberAdd (as bs : List DWORD) : List DWORD × DWORD :=
  bigNumberAddLoop 0 as bs

theorem pair_addWord {k : DWORD} (hk : k.toNat ≤ 1) (a b : DWORD) :
    pair (addWord k a b) = a.toNat + b.toNat + k.toNat ∧ (addWord k a b).2.toNat ≤ 1 := by
  have ha := toNat_lt a
  have hb := toNat_lt b
  simp only [addWord, pair, ge_iff_le, ← UInt32.not_lt, ite_not]
  by_cases h1 : a + k < k
  · -- the carry has wrapped the word to zero, and the sum cannot wrap again
    have hsum := toNat_add_of_lt h1
    have h0 : (a + k).toNat = 0 := by omega
    have hnot : ¬ a + k + b < b := by
      rw [toNat_eq_zero.1 h0, UInt32.zero_add]
      exact UInt32.lt_irrefl b
    rw [if_pos h1, if_neg hnot, toNat_add_of_not_lt hnot, toNat_one]
    omega
  · have hsum := toNat_add_of_not_lt h1
    rw [if_neg h1, UInt32.zero_add]
    by_cases h2 : a + k + b < b
    · have hwrap := toNat_add_of_lt h2
      rw [if_pos h2, toNat_one]
      omega
    · rw [if_neg h2, toNat_add_of_not_lt h2, toNat_zero]
      omega

theorem bigNumberAddLoop_eq : ∀ (as bs : List DWORD) {k : DWORD}, as.length = bs.length →
    k.toNat ≤ 1 →
    (bigNumberAddLoop k as bs).1.length = as.length ∧
      value (bigNumberAddLoop k as bs).1 +
          radix ^ as.length * (bigNumberAddLoop k as bs).2.toNat =
        value as + value bs + k.toNat
  | [], [], k, _, _ => by simp [bigNumberAddLoop]
  | a :: as, b :: bs, k, hlen, hk => by
    obtain ⟨hpair, hcarry⟩ := pair_addWord hk a b
    obtain ⟨hlength, hrest⟩ := bigNumberAddLoop_eq as bs (Nat.succ.inj hlen) hcarry
    rw [pair] at hpair
    refine ⟨by simp [bigNumberAddLoop, hlength], ?_⟩
    simp only [bigNumberAddLoop, value_cons, List.length_cons, pow_succ]
    linear_combination hpair + radix * hrest

/-- **The sum** of two numbers, with the carry that is left over. -/
theorem bigNumberAdd_eq {as bs : List DWORD} (hlen : as.length = bs.length) :
    (bigNumberAdd as bs).1.length = as.length ∧
      value (bigNumberAdd as bs).1 + radix ^ as.length * (bigNumberAdd as bs).2.toNat =
        value as + value bs :=
  bigNumberAddLoop_eq as bs hlen (by simp)

/-! ## Differences -/

/-- A step of `BigNumberMultSub`: the word and what the next one has to give. -/
def multSubWord (q v k w : DWORD) : DWORD × DWORD :=
  let t := bigNumberMultiplyHelper q v
  let w1 := w - k
  let k1 : DWORD := if w1 > maximumNr - k then 1 else 0
  let w2 := w1 - t.1
  let k2 := if w2 > maximumNr - t.1 then k1 + 1 else k1
  (w2, k2 + t.2)

/-- The loop of `BigNumberMultSub`, from the borrow `k`. -/
def multSubLoop (q k : DWORD) : List DWORD → List DWORD → List DWORD × DWORD
  | w :: ws, v :: vs =>
    let p := multSubWord q v k w
    let rest := multSubLoop q p.2 ws vs
    (p.1 :: rest.1, rest.2)
  | _, _ => ([], k)

/-- `BigNumberMultSub`: the words of `w`, and `wn`. -/
def bigNumberMultSub (wn : DWORD) (w v : List DWORD) (q : DWORD) : List DWORD × DWORD :=
  if q = 0 then (w, wn)
  else
    let p := multSubLoop q 0 w v
    (p.1, wn - p.2)

theorem toNat_borrow (a b k : DWORD) (hk : k.toNat + 1 < radix) :
    (a - b).toNat + b.toNat + radix * k.toNat =
      a.toNat + radix * (if a - b > maximumNr - b then k + 1 else k).toNat := by
  split
  case isTrue h =>
    rw [toNat_succ hk, toNat_sub_of_lt h]
    ring
  case isFalse h => rw [toNat_sub_of_not_lt h]

theorem toNat_ite_succ_le (p : Prop) [Decidable p] {k : DWORD} (hk : k.toNat + 1 < radix) :
    (if p then k + 1 else k).toNat ≤ k.toNat + 1 := by
  split
  case isTrue => exact (toNat_succ hk).le
  case isFalse => exact Nat.le_succ _

theorem multSubWord_eq (q v k w : DWORD) :
    (multSubWord q v k w).1.toNat + k.toNat + q.toNat * v.toNat =
      w.toNat + radix * (multSubWord q v k w).2.toNat := by
  let t := bigNumberMultiplyHelper q v
  let k1 : DWORD := if w - k > maximumNr - k then 1 else 0
  let k2 : DWORD := if w - k - t.1 > maximumNr - t.1 then k1 + 1 else k1
  change (w - k - t.1).toNat + k.toNat + q.toNat * v.toNat = w.toNat + radix * (k2 + t.2).toNat
  have ht : t.1.toNat + radix * t.2.toNat = q.toNat * v.toNat := pair_bigNumberMultiplyHelper q v
  have hk1 : k1.toNat + 1 < radix := by
    have hle : k1.toNat ≤ 0 + 1 := toNat_ite_succ_le (k := 0) _ (by rw [radix_eq]; decide)
    rw [radix_eq]
    omega
  have hfirst : (w - k).toNat + k.toNat = w.toNat + radix * k1.toNat := by
    have h := toNat_borrow w k 0 (by rw [radix_eq]; decide)
    rwa [toNat_zero, Nat.mul_zero, Nat.add_zero] at h
  have hsecond := toNat_borrow (w - k) t.1 k1 hk1
  have hall : (w - k - t.1).toNat + k.toNat + q.toNat * v.toNat =
      w.toNat + radix * (k2.toNat + t.2.toNat) := by
    linear_combination hfirst + hsecond - ht
  -- what has been taken is less than a square, so the next borrow is a word
  have hroom : k2.toNat + t.2.toNat < radix := by
    have hq := toNat_mul_lt q v
    have hw := toNat_lt (w - k - t.1)
    have hk := toNat_lt k
    rw [radix_eq] at *
    omega
  rw [toNat_add_of_sum_lt hroom, hall]

theorem multSubLoop_eq : ∀ (ws vs : List DWORD) {q k : DWORD}, ws.length = vs.length →
    (multSubLoop q k ws vs).1.length = ws.length ∧
      value (multSubLoop q k ws vs).1 + k.toNat + q.toNat * value vs =
        value ws + radix ^ ws.length * (multSubLoop q k ws vs).2.toNat
  | [], [], q, k, _ => by simp [multSubLoop]
  | w :: ws, v :: vs, q, k, hlen => by
    have hword := multSubWord_eq q v k w
    obtain ⟨hlength, hrest⟩ := multSubLoop_eq ws vs (q := q) (k := (multSubWord q v k w).2)
      (Nat.succ.inj hlen)
    refine ⟨by simp [multSubLoop, hlength], ?_⟩
    simp only [multSubLoop, value_cons, List.length_cons, pow_succ]
    linear_combination hword + radix * hrest

/-- A multiple that fits is subtracted, and nothing is left above. -/
theorem bigNumberMultSub_of_le {wn q : DWORD} {w v : List DWORD} (hlen : w.length = v.length)
    (hle : q.toNat * value v ≤ value w + radix ^ w.length * wn.toNat)
    (hlt : value w + radix ^ w.length * wn.toNat < q.toNat * value v + radix ^ w.length) :
    (bigNumberMultSub wn w v q).2 = 0 ∧
      value (bigNumberMultSub wn w v q).1 + q.toNat * value v =
        value w + radix ^ w.length * wn.toNat := by
  rw [bigNumberMultSub]
  split
  case isTrue hq =>
    rw [hq, toNat_zero, Nat.zero_mul, Nat.zero_add] at hlt
    have hwn : wn.toNat = 0 := by
      by_contra hne
      have := Nat.le_mul_of_pos_right (radix ^ w.length) (Nat.pos_of_ne_zero hne)
      omega
    exact ⟨toNat_eq_zero.1 hwn, by rw [hq, hwn, toNat_zero]; ring⟩
  case isFalse hq =>
    obtain ⟨hlength, heq⟩ := multSubLoop_eq w v (q := q) (k := 0) hlen
    have hw' := value_lt (multSubLoop q 0 w v).1
    rw [hlength] at hw'
    rw [toNat_zero, Nat.add_zero] at heq
    obtain ⟨d, hd⟩ := Nat.exists_eq_add_of_le hle
    have hk : wn.toNat = (multSubLoop q 0 w v).2.toNat :=
      above_unique hw' (by omega : d < radix ^ w.length) (by linear_combination heq + hd)
    refine ⟨?_, by rw [heq, hk]⟩
    rw [UInt32.toNat_inj.1 hk]
    exact UInt32.sub_self _

/-- A multiple that is too large leaves something above, and the number it wraps to. -/
theorem bigNumberMultSub_of_lt {wn q : DWORD} {w v : List DWORD} (hlen : w.length = v.length)
    (hlt : value w + radix ^ w.length * wn.toNat < q.toNat * value v)
    (hle : q.toNat * value v ≤ value w + radix ^ w.length * wn.toNat + radix ^ w.length) :
    (bigNumberMultSub wn w v q).2 ≠ 0 ∧
      value (bigNumberMultSub wn w v q).1 + q.toNat * value v =
        value w + radix ^ w.length * wn.toNat + radix ^ w.length := by
  have hq : q ≠ 0 := by
    rintro rfl
    rw [toNat_zero, Nat.zero_mul] at hlt
    omega
  rw [bigNumberMultSub, if_neg hq]
  obtain ⟨hlength, heq⟩ := multSubLoop_eq w v (q := q) (k := 0) hlen
  have hw' := value_lt (multSubLoop q 0 w v).1
  rw [hlength] at hw'
  rw [toNat_zero, Nat.add_zero] at heq
  obtain ⟨d, hd⟩ := Nat.exists_eq_add_of_le hle
  have hk : wn.toNat + 1 = (multSubLoop q 0 w v).2.toNat :=
    above_unique hw' (by omega : d < radix ^ w.length) (by linear_combination heq + hd)
  refine ⟨fun h0 => ?_, by rw [heq, ← hk]; ring⟩
  have hwn := wn.toNat_lt
  have hk' := (multSubLoop q 0 w v).2.toNat_lt
  have hsub := toNat_eq_zero.2 h0
  rw [UInt32.toNat_sub] at hsub
  omega

theorem length_bigNumberMultSub (wn q : DWORD) {w v : List DWORD} (hlen : w.length = v.length) :
    (bigNumberMultSub wn w v q).1.length = w.length := by
  rw [bigNumberMultSub]
  split
  case isTrue => rfl
  case isFalse => exact (multSubLoop_eq w v hlen).1

/-! ## Sizes -/

/-- `BigNumberCompare`, on the first `n` words. -/
def bigNumberCompare (a b : List DWORD) : ℕ → Int
  | 0 => 0
  | n + 1 =>
    if a.getD n 0 > b.getD n 0 then 1
    else if a.getD n 0 < b.getD n 0 then -1
    else bigNumberCompare a b n

/-- `BigNumberSizeof`, of the first `n` words. -/
def bigNumberSizeof (a : List DWORD) : ℕ → ℕ
  | 0 => 0
  | n + 1 => if a.getD n 0 ≠ 0 then n + 1 else bigNumberSizeof a n

theorem above_lt {P x y k l : ℕ} (hx : x < P) (h : k < l) : x + P * k < y + P * l := by
  have hle := Nat.mul_le_mul_left P h
  rw [Nat.mul_succ] at hle
  omega

theorem bigNumberCompare_eq {a b : List DWORD} : ∀ {n : ℕ}, n ≤ a.length → n ≤ b.length →
    bigNumberCompare a b n =
      if value (b.take n) < value (a.take n) then 1
      else if value (a.take n) < value (b.take n) then -1 else 0
  | 0, _, _ => by simp [bigNumberCompare]
  | n + 1, ha, hb => by
    have ih := bigNumberCompare_eq (a := a) (b := b) (n := n) (by omega) (by omega)
    rw [bigNumberCompare, value_take_succ a ha, value_take_succ b hb]
    have hna := value_take_lt a n
    have hnb := value_take_lt b n
    split
    case isTrue hgt =>
      rw [if_pos (above_lt hnb (UInt32.lt_iff_toNat_lt.1 hgt))]
    case isFalse hgt =>
      split
      case isTrue hlt =>
        have h := above_lt (y := value (b.take n)) hna (UInt32.lt_iff_toNat_lt.1 hlt)
        rw [if_neg h.le.not_gt, if_pos h]
      case isFalse hlt =>
        have heq : (a.getD n 0).toNat = (b.getD n 0).toNat := by
          rw [gt_iff_lt, UInt32.lt_iff_toNat_lt] at hgt
          rw [UInt32.lt_iff_toNat_lt] at hlt
          omega
        rw [ih, heq]
        simp only [Nat.add_lt_add_iff_right]

theorem bigNumberSizeof_le (a : List DWORD) : ∀ n, bigNumberSizeof a n ≤ n
  | 0 => le_rfl
  | n + 1 => by
    rw [bigNumberSizeof]
    split
    case isTrue => exact le_rfl
    case isFalse => exact (bigNumberSizeof_le a n).trans n.le_succ

theorem value_take_bigNumberSizeof {a : List DWORD} : ∀ {n}, n ≤ a.length →
    value (a.take (bigNumberSizeof a n)) = value (a.take n)
  | 0, _ => rfl
  | n + 1, h => by
    rw [bigNumberSizeof]
    split
    case isTrue => rfl
    case isFalse h0 =>
      rw [value_take_bigNumberSizeof (n := n) (by omega), value_take_succ a h, not_not.1 h0,
        toNat_zero, Nat.mul_zero, Nat.add_zero]

theorem getD_bigNumberSizeof (a : List DWORD) : ∀ {n}, bigNumberSizeof a n ≠ 0 →
    a.getD (bigNumberSizeof a n - 1) 0 ≠ 0
  | 0, h => absurd rfl h
  | n + 1, h => by
    rw [bigNumberSizeof] at h ⊢
    split at h
    case isTrue h0 => rwa [if_pos h0]
    case isFalse h0 =>
      rw [if_neg h0]
      exact getD_bigNumberSizeof a h

end DWindow.Checksum
