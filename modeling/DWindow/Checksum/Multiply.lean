import DWindow.Checksum.BigNumber

/-!
# Products

`BigNumberMultiply` and `BigNumberSquare` of `basicRSA.cpp` fill an array of `2 * nSize` words,
a row for each word of a factor.  The row of a square takes every mixed product twice, and can
leave a bit above its last word; it is added at `cpos` in the next row.

* `value_bigNumberMultiply`: the product.
* `value_bigNumberSquare`: the square.
-/

namespace DWindow.Checksum

open Words

/-! ## A product -/

/-- A row of `BigNumberMultiply`, on the words from `C[j]` on. -/
def multiplyRow (b : DWORD) (k : DWORD) : List DWORD → List DWORD → List DWORD
  | a :: as, c :: cs =>
    let tmp := addLow (addLow (bigNumberMultiplyHelper a b) k) c
    tmp.1 :: multiplyRow b tmp.2 as cs
  | [], _ :: cs => k :: cs
  | _, [] => []

/-- The loop of `BigNumberMultiply` over the words of `B`. -/
def multiplyLoop (A : List DWORD) (j : ℕ) : List DWORD → List DWORD → List DWORD
  | [], C => C
  | b :: bs, C =>
    multiplyLoop A (j + 1) bs
      (if b = 0 then C.set (j + A.length) 0 else C.take j ++ multiplyRow b 0 A (C.drop j))

def bigNumberMultiply (A B : List DWORD) : List DWORD :=
  multiplyLoop A 0 B (List.replicate (2 * A.length) 0)

theorem pair_multiplyRow (a b c k : DWORD) :
    pair (addLow (addLow (bigNumberMultiplyHelper a b) k) c) =
      a.toNat * b.toNat + k.toNat + c.toNat := by
  have hab := toNat_mul_lt a b
  have hc := toNat_lt c
  have hk := toNat_lt k
  have hmul := pair_bigNumberMultiplyHelper a b
  have hfirst : pair (addLow (bigNumberMultiplyHelper a b) k) = a.toNat * b.toNat + k.toNat := by
    rw [pair_addLow, hmul]
    rw [hmul]
    rw [radix_eq] at *
    omega
  rw [pair_addLow, hfirst]
  rw [hfirst]
  rw [radix_eq] at *
  omega

theorem multiplyRow_eq : ∀ (as cs : List DWORD) (b k d : DWORD) (rest : List DWORD),
    cs.length = as.length →
    ∃ ds : List DWORD, multiplyRow b k as (cs ++ d :: rest) = ds ++ rest ∧
      ds.length = as.length + 1 ∧ value ds = value cs + value as * b.toNat + k.toNat
  | [], [], b, k, d, rest, _ => ⟨[k], by simp [multiplyRow]⟩
  | a :: as, c :: cs, b, k, d, rest, hlen => by
    have hword := pair_multiplyRow a b c k
    obtain ⟨ds, hds, hlength, hvalue⟩ := multiplyRow_eq as cs b
      (addLow (addLow (bigNumberMultiplyHelper a b) k) c).2 d rest (Nat.succ.inj hlen)
    refine ⟨_ :: ds, by rw [List.cons_append, multiplyRow, hds, List.cons_append],
      by rw [List.length_cons, hlength, List.length_cons], ?_⟩
    rw [pair] at hword
    rw [value_cons, value_cons, value_cons]
    linear_combination hword + radix * hvalue

/-- A row for every word that is left of `B`, on an array whose other words are zero. -/
theorem multiplyLoop_eq (A : List DWORD) : ∀ (bs low : List DWORD) {j : ℕ},
    low.length = j + A.length →
    (multiplyLoop A j bs (low ++ List.replicate bs.length 0)).length = low.length + bs.length ∧
      value (multiplyLoop A j bs (low ++ List.replicate bs.length 0)) =
        value low + radix ^ j * (value A * value bs)
  | [], low, j, _ => by simp [multiplyLoop]
  | b :: bs, low, j, hlen => by
    -- the words that are written, and those that are still zero
    obtain ⟨low', hlow', hlength, hvalue⟩ : ∃ low' : List DWORD,
        (if b = 0 then (low ++ List.replicate (b :: bs).length 0).set (j + A.length) 0
          else (low ++ List.replicate (b :: bs).length 0).take j ++
            multiplyRow b 0 A ((low ++ List.replicate (b :: bs).length 0).drop j)) =
          low' ++ List.replicate bs.length 0 ∧ low'.length = low.length + 1 ∧
        value low' = value low + radix ^ j * (value A * b.toNat) := by
      rw [List.length_cons, List.replicate_succ]
      split
      case isTrue hb =>
        refine ⟨low ++ [0], ?_, by simp, by rw [value_concat, hb]; simp⟩
        rw [List.set_append_right _ _ hlen.le, hlen, Nat.sub_self]
        simp
      case isFalse hb =>
        obtain ⟨ds, hds, hlength, hvalue⟩ := multiplyRow_eq A (low.drop j) b 0 0
          (List.replicate bs.length 0) (by rw [List.length_drop]; omega)
        refine ⟨low.take j ++ ds, ?_, ?_, ?_⟩
        · rw [List.take_append_of_le_length (by omega), List.drop_append_of_le_length (by omega),
            hds, List.append_assoc]
        · rw [List.length_append, List.length_take_of_le (by omega)]
          omega
        · rw [value_append, List.length_take_of_le (by omega), hvalue, toNat_zero,
            value_take_add_drop low (show j ≤ low.length by omega)]
          ring
    have hrest := multiplyLoop_eq A bs low' (j := j + 1) (by omega)
    rw [multiplyLoop, hlow', hrest.1, hrest.2, hvalue, value_cons, List.length_cons]
    refine ⟨by omega, ?_⟩
    rw [pow_succ]
    ring

theorem length_bigNumberMultiply {A B : List DWORD} (h : A.length = B.length) :
    (bigNumberMultiply A B).length = 2 * A.length := by
  have := (multiplyLoop_eq A B (List.replicate A.length 0) (j := 0) (by simp)).1
  rw [List.replicate_append_replicate, ← h, ← Nat.two_mul] at this
  rw [bigNumberMultiply, this, List.length_replicate, Nat.two_mul]

/-- **The product** of two numbers of one size. -/
theorem value_bigNumberMultiply {A B : List DWORD} (h : A.length = B.length) :
    value (bigNumberMultiply A B) = value A * value B := by
  have := (multiplyLoop_eq A B (List.replicate A.length 0) (j := 0) (by simp)).2
  rw [List.replicate_append_replicate, ← h, ← Nat.two_mul] at this
  rw [bigNumberMultiply, this]
  simp

/-! ## A square -/

/-- `p[0]`, `p[1]` and `k` in a row of a square. -/
structure Wide where
  lo : DWORD
  hi : DWORD
  k : DWORD

def Wide.val (p : Wide) : ℕ := p.lo.toNat + radix * (p.hi.toNat + radix * p.k.toNat)

/-- A product twice: the bits that leave `p[0]` and `p[1]` are kept. -/
def Wide.double (p : DWORD × DWORD) : Wide :=
  let cbit : DWORD := if p.1 &&& hiBitMask ≠ 0 then 1 else 0
  let k : DWORD := if p.2 &&& hiBitMask ≠ 0 then 1 else 0
  ⟨p.1 <<< 1, p.2 <<< 1 ||| cbit, k⟩

/-- `p[0] += a;`, with the carry to `p[1]`, and from there to `k`. -/
def Wide.addLow (p : Wide) (a : DWORD) : Wide :=
  if p.lo + a < a then ⟨p.lo + a, p.hi + 1, if p.hi + 1 = 0 then p.k + 1 else p.k⟩
  else ⟨p.lo + a, p.hi, p.k⟩

/-- `p[1] += a;`, with the carry to `k`. -/
def Wide.addHigh (p : Wide) (a : DWORD) : Wide :=
  ⟨p.lo, p.hi + a, if p.hi + a < a then p.k + 1 else p.k⟩

/-- A mixed product of a row, at `w`, before the carry of the row before. -/
def squareWord (xi x : DWORD) (u : DWORD × DWORD) (w : DWORD) : Wide :=
  (((Wide.double (bigNumberMultiplyHelper x xi)).addLow u.1).addHigh u.2).addLow w

/-- The loop of a row over `j`, at `pos = i + j`, and the end of the row.  It is left with the
words and with `u[1]`. -/
def squareInner (xi : DWORD) (cpos pos : ℕ) (carry : DWORD) (u : DWORD × DWORD) :
    List DWORD → List DWORD → List DWORD × DWORD
  | x :: xs, w :: ws =>
    let p := squareWord xi x u w
    if pos = cpos ∧ carry ≠ 0 then
      let p := p.addHigh carry
      let rest := squareInner xi cpos (pos + 1) 0 (p.hi, p.k) xs ws
      (p.lo :: rest.1, rest.2)
    else
      let rest := squareInner xi cpos (pos + 1) carry (p.hi, p.k) xs ws
      (p.lo :: rest.1, rest.2)
  | [], _ :: ws => (u.1 :: ws, u.2)
  | _, [] => ([], u.2)

/-- A row of `BigNumberSquare`, on the words from `w[2 * i]` on. -/
def squareRow (xi : DWORD) (xs : List DWORD) (cpos pos : ℕ) (carry : DWORD) :
    List DWORD → List DWORD × DWORD
  | [] => ([], 0)
  | w :: ws =>
    let p := DWindow.Checksum.addLow (bigNumberMultiplyHelper xi xi) w
    let p : Wide := ⟨p.1, p.2, 0⟩
    if pos = cpos ∧ carry ≠ 0 then
      let p := p.addHigh carry
      let rest := squareInner xi cpos (pos + 1) 0 (p.hi, p.k) xs ws
      (p.lo :: rest.1, rest.2)
    else
      let rest := squareInner xi cpos (pos + 1) carry (p.hi, p.k) xs ws
      (p.lo :: rest.1, rest.2)

/-- The loop of `BigNumberSquare` over the words of `x`, of which there are `t`. -/
def squareLoop (t i cpos : ℕ) (carry : DWORD) : List DWORD → List DWORD → List DWORD
  | [], w => w
  | xi :: xs, w =>
    let row := squareRow xi xs cpos (2 * i) carry (w.drop (2 * i))
    squareLoop t (i + 1) (i + t) row.2 xs (w.take (2 * i) ++ row.1)

def bigNumberSquare (x : List DWORD) : List DWORD :=
  squareLoop x.length 0 (2 * x.length - 1) 0 x (List.replicate (2 * x.length) 0)

/-! ### Words of a square -/

theorem toNat_ite (p : Prop) [Decidable p] :
    (if p then (1 : DWORD) else 0).toNat = if p then 1 else 0 := by split <;> rfl

theorem toNat_shiftLeft_one (a : DWORD) :
    (a <<< 1).toNat + radix * (if a &&& hiBitMask ≠ 0 then 1 else 0) = 2 * a.toNat := by
  have ha := a.toNat_lt
  have hand : (a &&& hiBitMask).toNat = (a.toNat.testBit 31).toNat * 2 ^ 31 := by
    rw [UInt32.toNat_and]
    exact Nat.and_two_pow a.toNat 31
  have hshift : (a <<< 1).toNat = a.toNat * 2 % 2 ^ 32 := by
    rw [UInt32.toNat_shiftLeft, Nat.shiftLeft_eq]
    rfl
  simp only [ne_eq, ← toNat_eq_zero, hand, hshift, Nat.testBit_eq_decide_div_mod_eq, radix_eq]
  by_cases hbit : a.toNat / 2 ^ 31 % 2 = 1
  · simp only [hbit, decide_true, Bool.toNat_true]
    rw [if_pos (by omega)]
    omega
  · simp only [hbit, decide_false, Bool.toNat_false]
    rw [if_neg (by omega)]
    omega

theorem Wide.val_double (p : DWORD × DWORD) : (Wide.double p).val = 2 * pair p := by
  have h1 := toNat_shiftLeft_one p.1
  have h2 := toNat_shiftLeft_one p.2
  have heven : (p.2 <<< 1).toNat = 2 ^ 1 * ((p.2 <<< 1).toNat / 2) := by
    rw [radix_eq] at h2
    split at h2 <;> omega
  have hor := toNat_or_of_lt (b := if p.1 &&& hiBitMask ≠ 0 then (1 : DWORD) else 0) heven
    (by rw [toNat_ite]; split <;> omega)
  rw [Wide.val, Wide.double, pair, hor, toNat_ite, toNat_ite]
  linear_combination h1 + radix * h2

theorem Wide.val_addLow {p : Wide} {a : DWORD} (hk : p.k.toNat + 1 < radix) :
    (p.addLow a).val = p.val + a.toNat := by
  rw [Wide.addLow]
  split
  case isTrue hlt =>
    have hsum := toNat_add_of_lt hlt
    simp only [Wide.val]
    split
    case isTrue h0 =>
      rw [h0, toNat_zero, toNat_succ hk]
      linear_combination hsum + radix * (toNat_succ_of_eq_zero h0).symm
    case isFalse h0 =>
      rw [toNat_succ_of_ne_zero h0]
      linear_combination hsum
  case isFalse hlt =>
    simp only [Wide.val, toNat_add_of_not_lt hlt]
    ring

theorem Wide.val_addHigh {p : Wide} {a : DWORD} (hk : p.k.toNat + 1 < radix) :
    (p.addHigh a).val = p.val + radix * a.toNat := by
  simp only [Wide.addHigh, Wide.val]
  split
  case isTrue hlt =>
    rw [toNat_succ hk]
    linear_combination radix * toNat_add_of_lt hlt
  case isFalse hlt =>
    rw [toNat_add_of_not_lt hlt]
    ring

theorem Wide.k_addLow_le {p : Wide} {a : DWORD} (hk : p.k.toNat + 1 < radix) :
    (p.addLow a).k.toNat ≤ p.k.toNat + 1 := by
  rw [Wide.addLow]
  split
  case isTrue => exact toNat_ite_succ_le _ hk
  case isFalse => exact Nat.le_succ _

theorem Wide.k_addHigh_le {p : Wide} {a : DWORD} (hk : p.k.toNat + 1 < radix) :
    (p.addHigh a).k.toNat ≤ p.k.toNat + 1 :=
  toNat_ite_succ_le _ hk

theorem Wide.k_double_le (p : DWORD × DWORD) : (Wide.double p).k.toNat ≤ 1 := by
  rw [Wide.double, toNat_ite]
  split <;> omega

theorem squareWord_eq (xi x : DWORD) (u : DWORD × DWORD) (w : DWORD) :
    (squareWord xi x u w).val = 2 * (x.toNat * xi.toNat) + pair u + w.toNat ∧
      (squareWord xi x u w).k.toNat ≤ 4 := by
  have hradix := radix_eq
  have h0 := Wide.k_double_le (bigNumberMultiplyHelper x xi)
  have h1 := Wide.k_addLow_le (p := Wide.double (bigNumberMultiplyHelper x xi)) (a := u.1)
    (by omega)
  have h2 := Wide.k_addHigh_le (p := (Wide.double (bigNumberMultiplyHelper x xi)).addLow u.1)
    (a := u.2) (by omega)
  have h3 := Wide.k_addLow_le
    (p := ((Wide.double (bigNumberMultiplyHelper x xi)).addLow u.1).addHigh u.2) (a := w)
    (by omega)
  refine ⟨?_, by rw [squareWord]; omega⟩
  rw [squareWord, Wide.val_addLow (by omega), Wide.val_addHigh (by omega),
    Wide.val_addLow (by omega), Wide.val_double, pair_bigNumberMultiplyHelper, pair]
  ring

/-! ### Rows of a square -/

/-- The mixed products of a row, taken twice.  The carry of the row before stands above the
last of them. -/
theorem squareInner_eq (xi : DWORD) (cpos : ℕ) : ∀ {xs cs : List DWORD} (pos : ℕ) (carry : DWORD)
    (u : DWORD × DWORD) (d : DWORD) (rest : List DWORD), cs.length = xs.length →
    (carry ≠ 0 → cpos + 1 = pos + xs.length ∧ xs ≠ []) →
    ∃ ds : List DWORD, (squareInner xi cpos pos carry u xs (cs ++ d :: rest)).1 = ds ++ rest ∧
      ds.length = xs.length + 1 ∧
      value ds + radix ^ (xs.length + 1) *
          (squareInner xi cpos pos carry u xs (cs ++ d :: rest)).2.toNat =
        value cs + 2 * (value xs * xi.toNat) + pair u + radix ^ xs.length * carry.toNat
  | [], [], pos, carry, u, d, rest, _, hcarry => by
    have h0 : carry = 0 := by
      by_contra hne
      exact (hcarry hne).2 rfl
    refine ⟨[u.1], by simp [squareInner], by simp, ?_⟩
    rw [h0]
    simp [squareInner, pair]
  | x :: xs, c :: cs, pos, carry, u, d, rest, hlen, hcarry => by
    have hlen' := Nat.succ.inj hlen
    obtain ⟨hword, hk⟩ := squareWord_eq xi x u c
    rw [List.cons_append, squareInner]
    split
    case isTrue hhere =>
      -- the carry falls on the last word of the row
      have hxs : xs = [] := by
        have := (hcarry hhere.2).1
        rw [List.length_cons] at this
        exact List.eq_nil_of_length_eq_zero (by omega)
      have hadd : ((squareWord xi x u c).addHigh carry).val =
          (squareWord xi x u c).val + radix * carry.toNat :=
        Wide.val_addHigh (by rw [radix_eq]; omega)
      obtain ⟨ds, hds, hlength, hvalue⟩ := squareInner_eq xi cpos (pos + 1) 0
        (((squareWord xi x u c).addHigh carry).hi, ((squareWord xi x u c).addHigh carry).k)
        d rest hlen' (absurd rfl)
      refine ⟨((squareWord xi x u c).addHigh carry).lo :: ds, congrArg _ hds, by
        rw [List.length_cons, hlength, List.length_cons], ?_⟩
      rw [Wide.val] at hadd
      rw [pair, toNat_zero] at hvalue
      simp only [value_cons, List.length_cons, pow_succ] at hvalue ⊢
      rw [hxs] at hvalue ⊢
      simp only [List.length_nil, pow_zero] at hvalue ⊢
      linear_combination hadd + hword + radix * hvalue
    case isFalse hhere =>
      have hcarry' : carry ≠ 0 → cpos + 1 = pos + 1 + xs.length ∧ xs ≠ [] := by
        intro hne
        have hlast := (hcarry hne).1
        rw [List.length_cons] at hlast
        refine ⟨by omega, ?_⟩
        rintro rfl
        exact hhere ⟨by simpa using hlast.symm, hne⟩
      obtain ⟨ds, hds, hlength, hvalue⟩ := squareInner_eq xi cpos (pos + 1) carry
        ((squareWord xi x u c).hi, (squareWord xi x u c).k) d rest hlen' hcarry'
      refine ⟨(squareWord xi x u c).lo :: ds, congrArg _ hds, by
        rw [List.length_cons, hlength, List.length_cons], ?_⟩
      rw [Wide.val] at hword
      rw [pair] at hvalue
      simp only [value_cons, List.length_cons, pow_succ] at hvalue ⊢
      linear_combination hword + radix * hvalue

theorem squareRow_eq (xi : DWORD) {xs cs : List DWORD} (cpos pos : ℕ) (carry : DWORD)
    (w d : DWORD) (rest : List DWORD) (hlen : cs.length = xs.length)
    (hcarry : carry ≠ 0 → cpos = pos + xs.length) :
    ∃ ds : List DWORD,
      (squareRow xi xs cpos pos carry (w :: (cs ++ d :: rest))).1 = ds ++ rest ∧
      ds.length = xs.length + 2 ∧
      value ds + radix ^ (xs.length + 2) *
          (squareRow xi xs cpos pos carry (w :: (cs ++ d :: rest))).2.toNat =
        value (w :: cs) + xi.toNat * xi.toNat + radix * (2 * (value xs * xi.toNat)) +
          radix ^ (xs.length + 1) * carry.toNat := by
  have hword : pair (addLow (bigNumberMultiplyHelper xi xi) w) =
      xi.toNat * xi.toNat + w.toNat := by
    have hxi := toNat_mul_lt xi xi
    have hw := toNat_lt w
    rw [pair_addLow, pair_bigNumberMultiplyHelper]
    rw [pair_bigNumberMultiplyHelper]
    rw [radix_eq] at *
    omega
  let p : Wide := ⟨(addLow (bigNumberMultiplyHelper xi xi) w).1,
    (addLow (bigNumberMultiplyHelper xi xi) w).2, 0⟩
  have hval : p.val = xi.toNat * xi.toNat + w.toNat := by
    rw [← hword]
    simp [p, Wide.val, pair]
  rw [squareRow]
  split
  case isTrue hhere =>
    have hxs : xs = [] := by
      have := hcarry hhere.2
      exact List.eq_nil_of_length_eq_zero (by omega)
    have hadd : (p.addHigh carry).val = p.val + radix * carry.toNat :=
      Wide.val_addHigh (by rw [show p.k = 0 from rfl, toNat_zero, radix_eq]; omega)
    obtain ⟨ds, hds, hlength, hvalue⟩ := squareInner_eq xi cpos (pos + 1) 0
      ((p.addHigh carry).hi, (p.addHigh carry).k) d rest hlen (absurd rfl)
    refine ⟨(p.addHigh carry).lo :: ds, congrArg _ hds, by
      rw [List.length_cons, hlength], ?_⟩
    rw [hval, Wide.val] at hadd
    rw [pair, toNat_zero] at hvalue
    simp only [value_cons, pow_succ] at hvalue ⊢
    rw [hxs] at hvalue ⊢
    simp only [List.length_nil, pow_zero] at hvalue ⊢
    linear_combination hadd + radix * hvalue
  case isFalse hhere =>
    have hcarry' : carry ≠ 0 → cpos + 1 = pos + 1 + xs.length ∧ xs ≠ [] := by
      intro hne
      have hlast := hcarry hne
      refine ⟨by omega, ?_⟩
      rintro rfl
      exact hhere ⟨by simpa using hlast.symm, hne⟩
    obtain ⟨ds, hds, hlength, hvalue⟩ := squareInner_eq xi cpos (pos + 1) carry
      (p.hi, p.k) d rest hlen hcarry'
    refine ⟨p.lo :: ds, congrArg _ hds, by rw [List.length_cons, hlength], ?_⟩
    rw [Wide.val] at hval
    rw [pair] at hvalue
    simp only [value_cons, pow_succ] at hvalue ⊢
    linear_combination hval + radix * hvalue

/-- A row for every word that is left.  The words below are right up to the carry of the last
row, which stands above them. -/
theorem squareLoop_eq : ∀ (xs low : List DWORD) {t i : ℕ} (cpos : ℕ) (carry : DWORD),
    i + xs.length = t → low.length = i + t → (carry ≠ 0 → cpos + 1 = i + t) →
    value low + radix ^ (i + t) * carry.toNat + radix ^ (2 * i) * (value xs * value xs) <
      radix ^ (2 * t) →
    (squareLoop t i cpos carry xs (low ++ List.replicate xs.length 0)).length = 2 * t ∧
      value (squareLoop t i cpos carry xs (low ++ List.replicate xs.length 0)) =
        value low + radix ^ (i + t) * carry.toNat + radix ^ (2 * i) * (value xs * value xs)
  | [], low, t, i, cpos, carry, hi, hlow, _, hlt => by
    have hit : i = t := by simpa using hi
    subst hit
    -- what would stand above the array is zero
    have h0 : carry.toNat = 0 := by
      by_contra hne
      have := Nat.le_mul_of_pos_right (radix ^ (i + i)) (Nat.pos_of_ne_zero hne)
      rw [Nat.two_mul] at hlt
      omega
    rw [h0]
    simp [squareLoop, hlow, Nat.two_mul]
  | xi :: xs, low, t, i, cpos, carry, hi, hlow, hcarry, hlt => by
    rw [List.length_cons] at hi
    obtain ⟨w, cs, hcut⟩ : ∃ w cs, low.drop (2 * i) = w :: cs := by
      apply List.exists_cons_of_ne_nil
      rw [Ne, List.drop_eq_nil_iff]
      omega
    have hcs : cs.length = xs.length := by
      have := congrArg List.length hcut
      rw [List.length_drop, List.length_cons] at this
      omega
    obtain ⟨ds, hds, hlength, hvalue⟩ := squareRow_eq xi cpos (2 * i) carry w 0
      (List.replicate xs.length 0) hcs (fun hne => by
        have := hcarry hne
        omega)
    have hlow' : (low.take (2 * i) ++ ds).length = i + 1 + t := by
      rw [List.length_append, List.length_take_of_le (by omega), hlength]
      omega
    have hsum : value (low.take (2 * i) ++ ds) +
          radix ^ (i + 1 + t) * (squareRow xi xs cpos (2 * i) carry
            (w :: (cs ++ 0 :: List.replicate xs.length 0))).2.toNat +
          radix ^ (2 * (i + 1)) * (value xs * value xs) =
        value low + radix ^ (i + t) * carry.toNat +
          radix ^ (2 * i) * (value (xi :: xs) * value (xi :: xs)) := by
      have hsplit := value_take_add_drop low (show 2 * i ≤ low.length by omega)
      rw [hcut] at hsplit
      rw [value_append, List.length_take_of_le (by omega), hsplit,
        show i + 1 + t = 2 * i + (xs.length + 2) by omega,
        show i + t = 2 * i + (xs.length + 1) by omega, pow_add, pow_add, value_cons xi xs]
      linear_combination radix ^ (2 * i) * hvalue
    have hrest := squareLoop_eq xs (low.take (2 * i) ++ ds) (t := t) (i + t) _ (by omega) hlow'
      (fun _ => by omega) (hsum.trans_lt hlt)
    rw [List.append_assoc, ← hds] at hrest
    rw [squareLoop, List.length_cons, List.replicate_succ,
      List.take_append_of_le_length (by omega), List.drop_append_of_le_length (by omega), hcut,
      List.cons_append]
    exact ⟨hrest.1, hrest.2.trans hsum⟩

theorem bigNumberSquare_eq (x : List DWORD) :
    (bigNumberSquare x).length = 2 * x.length ∧
      value (bigNumberSquare x) = value x * value x := by
  have hlt : value x * value x < radix ^ (2 * x.length) := by
    rw [Nat.two_mul, pow_add]
    exact Nat.mul_lt_mul'' (value_lt x) (value_lt x)
  have := squareLoop_eq x (List.replicate x.length 0) (t := x.length) (i := 0)
    (2 * x.length - 1) 0 (Nat.zero_add _) (by simp) (absurd rfl)
    (by simpa using hlt)
  rw [List.replicate_append_replicate, ← Nat.two_mul] at this
  simpa [bigNumberSquare] using this

theorem length_bigNumberSquare (x : List DWORD) : (bigNumberSquare x).length = 2 * x.length :=
  (bigNumberSquare_eq x).1

/-- **The square** of a number. -/
theorem value_bigNumberSquare (x : List DWORD) : value (bigNumberSquare x) = value x * value x :=
  (bigNumberSquare_eq x).2

end DWindow.Checksum
