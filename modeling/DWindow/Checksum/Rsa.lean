import DWindow.Checksum.Divide
import DWindow.Checksum.Multiply
import Mathlib.Data.Nat.ModEq

/-!
# RSA

`RSA` of `basicRSA.cpp` raises a number to a power modulo another.  It takes the bits of the
exponent from the one below the highest, squares for each, and multiplies where the bit is set.
The modulus is a copy, which each division shifts and shifts back.

* `wordBit_eq`: the bit under the mask is the bit of the exponent.
* `rsaLoop_eq`: the loop, with the power of the bits that were taken.
* `RSA_spec`: the power.
-/

namespace DWindow.Checksum

open Words

/-! ## Products modulo a number -/

/-- `BigNumberModuloTmp`: the remainder, and the modulus as the division leaves it. -/
def bigNumberModuloTmp (u v : List DWORD) : List DWORD × List DWORD :=
  ((bigNumberDivide u v).r.take v.length, (bigNumberDivide u v).v)

def bigNumberModSquareTmp (x m : List DWORD) : List DWORD × List DWORD :=
  bigNumberModuloTmp (bigNumberSquare x) m

def bigNumberMultTmp (x y m : List DWORD) : List DWORD × List DWORD :=
  bigNumberModuloTmp (bigNumberMultiply x y) m

theorem bigNumberModuloTmp_eq {u v : List DWORD} (hlen : u.length = 2 * v.length)
    (hv : 0 < value v) :
    (bigNumberModuloTmp u v).1.length = v.length ∧
      value (bigNumberModuloTmp u v).1 = value u % value v ∧ (bigNumberModuloTmp u v).2 = v := by
  have hne : v ≠ [] := by
    rintro rfl
    exact absurd hv (lt_irrefl _)
  have hpos : 0 < v.length := List.length_pos_iff.2 hne
  have hu : u ≠ [] := by
    rintro rfl
    rw [List.length_nil] at hlen
    omega
  have hright := bigNumberDivide_right hu hv
  have hle : v.length ≤ (bigNumberDivide u v).r.length := by rw [hright.length_r]; omega
  have hlt : value (bigNumberDivide u v).r < radix ^ v.length := by
    rw [hright.value_r]
    exact (Nat.mod_lt _ hv).trans (value_lt v)
  exact ⟨List.length_take_of_le hle, (value_take_of_lt hle hlt).trans hright.value_r, hright.v⟩

theorem bigNumberModSquareTmp_eq {x m : List DWORD} (hx : x.length = m.length) (hm : 0 < value m) :
    (bigNumberModSquareTmp x m).1.length = m.length ∧
      value (bigNumberModSquareTmp x m).1 = value x * value x % value m ∧
      (bigNumberModSquareTmp x m).2 = m := by
  have h := bigNumberModuloTmp_eq (u := bigNumberSquare x)
    (by rw [length_bigNumberSquare, hx]) hm
  rwa [value_bigNumberSquare] at h

theorem bigNumberMultTmp_eq {x y m : List DWORD} (hx : x.length = m.length)
    (hy : y.length = m.length) (hm : 0 < value m) :
    (bigNumberMultTmp x y m).1.length = m.length ∧
      value (bigNumberMultTmp x y m).1 = value x * value y % value m ∧
      (bigNumberMultTmp x y m).2 = m := by
  have h := bigNumberModuloTmp_eq (u := bigNumberMultiply x y)
    (by rw [length_bigNumberMultiply (hx.trans hy.symm), hx]) hm
  rwa [value_bigNumberMultiply (hx.trans hy.symm)] at h

/-! ## The bits of the exponent -/

/-- The loop that looks for the highest bit, with `n` bits left. -/
def topMaskLoop (w : DWORD) : ℕ → DWORD → DWORD
  | 0, mask => mask
  | n + 1, mask => if w &&& mask ≠ 0 then mask else topMaskLoop w n (mask >>> 1)

/-- The mask after the search in the word `w`. -/
def topMask (w : DWORD) : DWORD := topMaskLoop w 32 hiBitMask

def nextBit (mask : DWORD) (n : ℕ) : DWORD × ℕ :=
  if mask = 1 then (hiBitMask, n - 1) else (mask >>> 1, n)

/-- A round of the loop: a square, and a product where the bit is set. -/
def rsaRound (input e : List DWORD) (mask : DWORD) (n : ℕ) (y tm : List DWORD) :
    List DWORD × List DWORD :=
  match bigNumberModSquareTmp y tm with
  | (y, tm) => if mask &&& e.getD (n - 1) 0 ≠ 0 then bigNumberMultTmp y input tm else (y, tm)

/-- The loop of `RSA`; `none` if it does not end in `fuel` rounds. -/
def rsaLoop (input e : List DWORD) : ℕ → DWORD × ℕ → List DWORD × List DWORD →
    Option (List DWORD)
  | _, (_, 0), (y, _) => some y
  | 0, (_, _ + 1), _ => none
  | fuel + 1, (mask, n + 1), (y, tm) =>
    rsaLoop input e fuel (nextBit mask (n + 1)) (rsaRound input e mask (n + 1) y tm)

structure Buffers where
  out : List DWORD
  input : List DWORD
  e : List DWORD
  n : List DWORD

/-- `RSA`, where `granted` says which of the five allocations succeed.  It is `none` where a
word outside of an array is read, and its answer with the arrays otherwise. -/
def RSA (granted : ℕ → Bool) (nSize : ℕ) (b : Buffers) : Option (ℤ × Buffers) :=
  if nSize ≤ 0 then some (-1, b)
  else if (List.range 5).all granted = false then some (-1, b)
  else if bigNumberSizeof b.e nSize = 0 then none
  else
    (rsaLoop b.input b.e (32 * nSize)
      (nextBit (topMask (b.e.getD (bigNumberSizeof b.e nSize - 1) 0)) (bigNumberSizeof b.e nSize))
      (b.input.take nSize, b.n.take nSize)).map
      fun y => (0, { b with out := y.take nSize ++ b.out.drop nSize })

/-- The mask and the word of a loop with `c` bits left. -/
def BitsLeft (p : DWORD × ℕ) (c : ℕ) : Prop :=
  (p.2 = 0 ∧ c = 0) ∨ ∃ k i, i < 32 ∧ p.2 = k + 1 ∧ p.1.toNat = 2 ^ i ∧ c = 32 * k + i + 1

/-- **The next bitmask** is that of the bit below, in this word or at the top of the next. -/
theorem bitsLeft_nextBit {mask : DWORD} {k i : ℕ} (hi : i < 32) (hm : mask.toNat = 2 ^ i) :
    BitsLeft (nextBit mask (k + 1)) (32 * k + i) := by
  rw [nextBit]
  split
  case isTrue h1 =>
    have h0 : i = 0 := by
      rw [h1, toNat_one] at hm
      by_contra hne
      have := Nat.one_lt_two_pow hne
      omega
    subst h0
    cases k with
    | zero => exact Or.inl ⟨rfl, rfl⟩
    | succ k => exact Or.inr ⟨k, 31, by omega, rfl, rfl, by omega⟩
  case isFalse h1 =>
    obtain ⟨i', rfl⟩ : ∃ i', i = i' + 1 := by
      apply Nat.exists_eq_succ_of_ne_zero
      rintro rfl
      exact h1 (UInt32.toNat_inj.1 (hm.trans (pow_zero 2)))
    refine Or.inr ⟨k, i', by omega, rfl, ?_, by omega⟩
    rw [UInt32.toNat_shiftRight, hm, Nat.shiftRight_eq_div_pow]
    change 2 ^ (i' + 1) / 2 ^ 1 = 2 ^ i'
    rw [pow_succ, pow_one, Nat.mul_div_cancel _ (by omega)]

theorem radix_pow (k : ℕ) : radix ^ k = 2 ^ (32 * k) := by rw [pow_mul]; rfl

theorem value_div_radix_pow (ds : List DWORD) {k : ℕ} (h : k ≤ ds.length) :
    value ds / 2 ^ (32 * k) = value (ds.drop k) := by
  rw [← radix_pow, value_take_add_drop ds h, Nat.add_mul_div_left _ _ (Nat.pow_pos radix_pos),
    Nat.div_eq_of_lt (value_take_lt ds k), Nat.zero_add]

/-- **The bit under the mask** is the bit of the exponent. -/
theorem wordBit_iff {e : List DWORD} {mask : DWORD} {k i : ℕ} (hk : k < e.length) (hi : i < 32)
    (hm : mask.toNat = 2 ^ i) :
    mask &&& e.getD k 0 ≠ 0 ↔ value e / 2 ^ (32 * k + i) % 2 = 1 := by
  have hdrop : value (e.drop k) = (e.getD k 0).toNat + radix * value (e.drop (k + 1)) := by
    rw [List.drop_eq_getElem_cons hk, value_cons, List.getD_eq_getElem _ _ hk]
  have hsplit : radix = 2 ^ i * (2 * 2 ^ (31 - i)) := by
    rw [← pow_succ', ← pow_add, show i + (31 - i + 1) = 32 by omega]
    rfl
  have hbit : value e / 2 ^ (32 * k + i) % 2 = (e.getD k 0).toNat / 2 ^ i % 2 := by
    rw [pow_add, ← Nat.div_div_eq_div_mul, value_div_radix_pow e hk.le, hdrop, hsplit,
      Nat.mul_assoc, Nat.add_mul_div_left _ _ (Nat.two_pow_pos i), Nat.mul_assoc,
      Nat.add_mul_mod_self_left]
  rw [hbit, Ne, ← toNat_eq_zero, UInt32.toNat_and, hm, Nat.land_comm, Nat.and_two_pow,
    Nat.testBit_eq_decide_div_mod_eq]
  simp

theorem topMaskLoop_spec {w : DWORD} (h0 : 0 < w.toNat) : ∀ {n : ℕ} (mask : DWORD), n ≤ 31 →
    w.toNat < 2 ^ (n + 1) → mask.toNat = 2 ^ n →
    ∃ t ≤ n, (topMaskLoop w (n + 1) mask).toNat = 2 ^ t ∧ w.toNat / 2 ^ t = 1
  | n, mask, hn, hw, hm => by
    rw [topMaskLoop]
    split
    case isTrue hbit =>
      rw [and_two_pow_ne_zero hw hm] at hbit
      refine ⟨n, le_rfl, hm, ?_⟩
      rw [pow_succ] at hw
      have hpos := Nat.div_pos hbit (Nat.two_pow_pos n)
      have hlt := Nat.div_lt_of_lt_mul hw
      omega
    case isFalse hbit =>
      rw [and_two_pow_ne_zero hw hm] at hbit
      cases n with
      | zero => omega
      | succ n =>
        obtain ⟨t, ht, hmask, hdiv⟩ :=
          topMaskLoop_spec h0 _ (by omega) (by omega) (toNat_shiftRight_one hm)
        exact ⟨t, by omega, hmask, hdiv⟩

/-- **The start** of the loop: the bits that are left are those below the highest. -/
theorem bitsLeft_start {e : List DWORD} {n : ℕ} (hn : e.length = n)
    (h0 : bigNumberSizeof e n ≠ 0) :
    ∃ c, c < 32 * n ∧ value e / 2 ^ c = 1 ∧
      BitsLeft (nextBit (topMask (e.getD (bigNumberSizeof e n - 1) 0)) (bigNumberSizeof e n))
        c := by
  have hw := getD_bigNumberSizeof e h0
  have hle := bigNumberSizeof_le e n
  have hvalue := value_take_bigNumberSizeof (a := e) hn.ge
  rw [← hn, List.take_length, hn] at hvalue
  generalize bigNumberSizeof e n = s at *
  obtain ⟨k, rfl⟩ : ∃ k, s = k + 1 := Nat.exists_eq_succ_of_ne_zero h0
  rw [Nat.add_sub_cancel] at *
  obtain ⟨t, ht, hmask, hdiv⟩ := topMaskLoop_spec (toNat_pos hw) hiBitMask (n := 31)
    le_rfl (e.getD k 0).toNat_lt rfl
  refine ⟨32 * k + t, by omega, ?_, bitsLeft_nextBit (by omega) hmask⟩
  rw [← hvalue, value_take_succ e (by omega), pow_add, ← Nat.div_div_eq_div_mul, ← radix_pow,
    Nat.add_mul_div_left _ _ (Nat.pow_pos radix_pos), Nat.div_eq_of_lt (value_take_lt e k),
    Nat.zero_add, hdiv]

/-! ## The loop -/

section

variable {input e m y : List DWORD} {mask : DWORD}

/-- **A round** takes a bit of the exponent. -/
theorem rsaRound_eq {k i : ℕ} (hk : k < e.length) (hi : i < 32) (hmask : mask.toNat = 2 ^ i)
    (hinput : input.length = m.length) (hy : y.length = m.length) (hm : 0 < value m) :
    (rsaRound input e mask (k + 1) y m).1.length = m.length ∧
      value (rsaRound input e mask (k + 1) y m).1 =
        value y * value y * value input ^ (value e / 2 ^ (32 * k + i) % 2) % value m ∧
      (rsaRound input e mask (k + 1) y m).2 = m := by
  obtain ⟨hslen, hsvalue, hsm⟩ := bigNumberModSquareTmp_eq hy hm
  rw [rsaRound]
  generalize bigNumberModSquareTmp y m = p at hslen hsvalue hsm ⊢
  obtain ⟨s, m'⟩ := p
  dsimp only at hslen hsvalue hsm ⊢
  subst hsm
  rw [Nat.add_sub_cancel]
  split
  case isTrue hbit =>
    rw [wordBit_iff hk hi hmask] at hbit
    obtain ⟨hlen, hvalue, hm'⟩ := bigNumberMultTmp_eq hslen hinput hm
    refine ⟨hlen, ?_, hm'⟩
    rw [hvalue, hsvalue, hbit, pow_one, Nat.mod_mul_mod]
  case isFalse hbit =>
    rw [wordBit_iff hk hi hmask] at hbit
    refine ⟨hslen, ?_, rfl⟩
    rw [show value e / 2 ^ (32 * k + i) % 2 = 0 by omega, pow_zero, Nat.mul_one]
    exact hsvalue

/-- **The loop**: when `y` is the power of the bits that were taken, it is the power of all of
them at the end. -/
theorem rsaLoop_eq (hinput : input.length = m.length) (he : e.length = m.length)
    (hm : 0 < value m) : ∀ {c : ℕ} (fuel : ℕ) {p : DWORD × ℕ} {y : List DWORD}, c ≤ fuel →
    c < 32 * m.length → BitsLeft p c → y.length = m.length →
    value y % value m = value input ^ (value e / 2 ^ c) % value m →
    ∃ out, rsaLoop input e fuel p (y, m) = some out ∧ out.length = m.length ∧
      value out % value m = value input ^ value e % value m ∧
      (0 < c ∨ value y < value m → value out < value m)
  | 0, fuel, (mask, n), y, _, _, hbits, hy, hpow => by
    obtain ⟨rfl, -⟩ | ⟨k, i, -, -, -, hc⟩ := hbits
    · refine ⟨y, by cases fuel <;> rfl, hy, ?_, ?_⟩
      · rwa [pow_zero, Nat.div_one] at hpow
      · rintro (h0 | h)
        · exact absurd h0 (lt_irrefl _)
        · exact h
    · exact absurd hc (Nat.succ_ne_zero _).symm
  | c + 1, 0, _, _, hc, _, _, _, _ => absurd hc (Nat.not_succ_le_zero c)
  | c + 1, fuel + 1, (mask, n), y, hc, hlt, hbits, hy, hpow => by
    obtain ⟨-, h0⟩ | ⟨k, i, hi, hn, hmask, hbit⟩ := hbits
    · exact absurd h0 (Nat.succ_ne_zero c)
    · have hck : c = 32 * k + i := Nat.succ.inj hbit
      dsimp only at hn hmask
      subst hn
      obtain ⟨hlen, hvalue, hm'⟩ := rsaRound_eq (k := k) (e := e) (by omega) hi hmask hinput hy hm
      rw [← hck] at hvalue
      -- the bits that were taken, with one more
      have hnext : value input ^ (value e / 2 ^ c) =
          value input ^ (value e / 2 ^ (c + 1)) * value input ^ (value e / 2 ^ (c + 1)) *
            value input ^ (value e / 2 ^ c % 2) := by
        rw [← pow_add, ← pow_add]
        congr 1
        have hhalf : value e / 2 ^ (c + 1) = value e / 2 ^ c / 2 := by
          rw [pow_succ, Nat.div_div_eq_div_mul]
        omega
      have hround : value (rsaRound input e mask (k + 1) y m).1 % value m =
          value input ^ (value e / 2 ^ c) % value m := by
        rw [hvalue, Nat.mod_mod, hnext]
        exact ((Nat.ModEq.mul hpow hpow).mul_right _)
      obtain ⟨out, hout, houtlen, houtvalue, houtlt⟩ := rsaLoop_eq hinput he hm
        (c := c) fuel (p := nextBit mask (k + 1)) (by omega) (by omega)
        (by rw [hck]; exact bitsLeft_nextBit hi hmask) hlen hround
      refine ⟨out, ?_, houtlen, houtvalue, fun _ => houtlt (Or.inr ?_)⟩
      · rw [rsaLoop, ← hout]
        congr 1
        exact Prod.ext rfl hm'
      · rw [hvalue]
        exact Nat.mod_lt _ hm

end

/-- **RSA** is modular exponentiation: for every number of words, every modulus that is not zero,
every base and every exponent from 2 on, `out` is the power, and nothing else is changed; where
an allocation is refused, nothing is. -/
theorem RSA_spec (granted : ℕ → Bool) (b : Buffers) (nSize : ℕ) (hout : b.out.length = nSize)
    (hinput : b.input.length = nSize) (he : b.e.length = nSize) (hn : b.n.length = nSize)
    (hn0 : value b.n ≠ 0) (he2 : 2 ≤ value b.e) :
    ((List.range 5).all granted = false → RSA granted nSize b = some (-1, b)) ∧
      ((List.range 5).all granted = true →
        ∃ out, RSA granted nSize b = some (0, { b with out := out }) ∧ out.length = nSize ∧
          value out = value b.input ^ value b.e % value b.n ∧ value out < value b.n) := by
  have hne : nSize ≠ 0 := by
    rintro rfl
    rw [List.eq_nil_of_length_eq_zero hn] at hn0
    exact hn0 rfl
  refine ⟨fun hrefused => by rw [RSA, if_neg (by omega), if_pos hrefused], fun hgranted => ?_⟩
  have hsize : bigNumberSizeof b.e nSize ≠ 0 := by
    rw [← he]
    exact bigNumberSizeof_pos (by omega)
  obtain ⟨c, hc, hone, hbits⟩ := bitsLeft_start he hsize
  have hcpos : 0 < c := by
    apply Nat.pos_of_ne_zero
    rintro rfl
    rw [pow_zero, Nat.div_one] at hone
    omega
  obtain ⟨out, hloop, hlen, hvalue, hlt⟩ := rsaLoop_eq (hinput.trans hn.symm)
    (he.trans hn.symm) (Nat.pos_of_ne_zero hn0) (32 * nSize) hc.le (by rw [hn]; exact hc)
    hbits (hinput.trans hn.symm) (by rw [hone, pow_one])
  have houtlt := hlt (Or.inl hcpos)
  rw [Nat.mod_eq_of_lt houtlt] at hvalue
  refine ⟨out, ?_, hlen.trans hn, hvalue, houtlt⟩
  rw [RSA, if_neg (by omega), if_neg (by rw [hgranted]; decide), if_neg hsize,
    List.take_of_length_le hinput.le, List.take_of_length_le hn.le, hloop, Option.map_some,
    List.take_of_length_le (by omega), List.drop_of_length_le hout.le, List.append_nil]

/-- The fifth power of `2 ^ 32 + 3` modulo `2 ^ 33 + 7`. -/
theorem RSA_spec_words :
    ∃ out, RSA (fun _ => true) 2 ⟨[0, 0], [3, 1], [5, 0], [7, 2]⟩ =
        some (0, ⟨out, [3, 1], [5, 0], [7, 2]⟩) ∧
      out.length = 2 ∧ value out = value [3, 1] ^ value [5, 0] % value [7, 2] ∧
      value out < value [7, 2] :=
  (RSA_spec (fun _ => true) ⟨[0, 0], [3, 1], [5, 0], [7, 2]⟩ 2 rfl rfl rfl rfl (by decide)
    (by decide)).2 rfl

end DWindow.Checksum
