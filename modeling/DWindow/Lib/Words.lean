import DWindow.Lib.ByteOrder
import Mathlib.Data.Nat.Bitwise
import Mathlib.Data.List.Basic
import Mathlib.Tactic.Ring

/-!
# Numbers of several words

A large number is a list of 32-bit words, the lowest first.  A carry or a borrow is seen in
C by comparing a sum with a summand.

* `toNat_add_of_lt`, `toNat_sub_of_lt`: what the comparison says.
* `value`, `value_append`, `value_lt`: the number of a list of words.
* `value_take_add_drop`: a number is its low words and its high words.
* `value_words`, `ofLE_bytes`: a number in memory.
-/

namespace Words

def radix : ℕ := 2 ^ 32

theorem radix_eq : radix = 4294967296 := rfl

theorem radix_pos : 0 < radix := by rw [radix_eq]; omega

/-! ## A word -/

theorem toNat_lt (a : UInt32) : a.toNat < radix := a.toNat_lt

@[simp] theorem toNat_zero : (0 : UInt32).toNat = 0 := rfl

@[simp] theorem toNat_one : (1 : UInt32).toNat = 1 := rfl

theorem toNat_pos {a : UInt32} (h : a ≠ 0) : 0 < a.toNat := by
  have hne : a.toNat ≠ 0 := fun h0 => h (UInt32.toNat_inj.1 h0)
  omega

theorem toNat_eq_zero {a : UInt32} : a.toNat = 0 ↔ a = 0 :=
  ⟨fun h => UInt32.toNat_inj.1 h, fun h => by rw [h, toNat_zero]⟩

theorem toNat_max : (0xffffffff : UInt32).toNat = radix - 1 := rfl

theorem toNat_add_of_lt {a b : UInt32} (h : a + b < b) :
    (a + b).toNat + radix = a.toNat + b.toNat := by
  have ha := a.toNat_lt
  have hb := b.toNat_lt
  rw [UInt32.lt_iff_toNat_lt, UInt32.toNat_add] at h
  rw [UInt32.toNat_add, radix_eq]
  omega

theorem toNat_add_of_not_lt {a b : UInt32} (h : ¬ a + b < b) :
    (a + b).toNat = a.toNat + b.toNat := by
  have ha := a.toNat_lt
  have hb := b.toNat_lt
  rw [UInt32.lt_iff_toNat_lt, UInt32.toNat_add] at h
  rw [UInt32.toNat_add]
  omega

theorem toNat_add_of_sum_lt {a b : UInt32} (h : a.toNat + b.toNat < radix) :
    (a + b).toNat = a.toNat + b.toNat := by
  rw [UInt32.toNat_add]
  exact Nat.mod_eq_of_lt h

theorem toNat_succ {a : UInt32} (h : a.toNat + 1 < radix) : (a + 1).toNat = a.toNat + 1 :=
  toNat_add_of_sum_lt (by rw [toNat_one]; exact h)

/-- A word that is zero after an increment has wrapped. -/
theorem toNat_succ_of_eq_zero {a : UInt32} (h : a + 1 = 0) : a.toNat + 1 = radix := by
  have ha := a.toNat_lt
  have h0 : (a + 1).toNat = 0 := by rw [h, toNat_zero]
  rw [UInt32.toNat_add, toNat_one] at h0
  rw [radix_eq]
  omega

theorem toNat_succ_of_ne_zero {a : UInt32} (h : a + 1 ≠ 0) : (a + 1).toNat = a.toNat + 1 := by
  have ha := a.toNat_lt
  have h0 : 0 < (a + 1).toNat := toNat_pos h
  rw [UInt32.toNat_add, toNat_one] at h0 ⊢
  omega

/-- A difference that is above what is left over the subtrahend has wrapped. -/
theorem toNat_sub_of_lt {a b : UInt32} (h : 0xffffffff - b < a - b) :
    (a - b).toNat + b.toNat = a.toNat + radix := by
  have ha := a.toNat_lt
  have hb := b.toNat_lt
  rw [UInt32.lt_iff_toNat_lt, UInt32.toNat_sub, UInt32.toNat_sub, toNat_max, radix_eq] at h
  rw [UInt32.toNat_sub, radix_eq]
  omega

theorem toNat_sub_of_not_lt {a b : UInt32} (h : ¬ 0xffffffff - b < a - b) :
    (a - b).toNat + b.toNat = a.toNat := by
  have ha := a.toNat_lt
  have hb := b.toNat_lt
  rw [UInt32.lt_iff_toNat_lt, UInt32.toNat_sub, UInt32.toNat_sub, toNat_max, radix_eq] at h
  rw [UInt32.toNat_sub]
  omega

theorem toNat_sub_one {a : UInt32} (h : a ≠ 0) : (a - 1).toNat = a.toNat - 1 := by
  have ha := a.toNat_lt
  have hpos := toNat_pos h
  rw [UInt32.toNat_sub, toNat_one]
  omega

theorem toNat_or_of_lt {a b : UInt32} {k c : ℕ} (ha : a.toNat = 2 ^ k * c) (hb : b.toNat < 2 ^ k) :
    (a ||| b).toNat = a.toNat + b.toNat := by
  rw [UInt32.toNat_or, ha, Nat.two_pow_add_eq_or_of_lt hb]

/-- What is left below a power and what is above it are determined. -/
theorem above_unique {P x y k l : ℕ} (hx : x < P) (hy : y < P) (h : x + P * k = y + P * l) :
    k = l := by
  have hdiv : (x + P * k) / P = (y + P * l) / P := by rw [h]
  rwa [Nat.add_mul_div_left _ _ (by omega), Nat.add_mul_div_left _ _ (by omega),
    Nat.div_eq_of_lt hx, Nat.div_eq_of_lt hy, Nat.zero_add, Nat.zero_add] at hdiv

/-! ## Several words -/

def value : List UInt32 → ℕ
  | [] => 0
  | d :: ds => d.toNat + radix * value ds

@[simp] theorem value_nil : value [] = 0 := rfl

@[simp] theorem value_cons (d : UInt32) (ds : List UInt32) :
    value (d :: ds) = d.toNat + radix * value ds := rfl

theorem value_append (as bs : List UInt32) :
    value (as ++ bs) = value as + radix ^ as.length * value bs := by
  induction as with
  | nil => simp
  | cons a as ih =>
    rw [List.cons_append, value_cons, ih, value_cons, List.length_cons]
    ring

theorem value_lt (ds : List UInt32) : value ds < radix ^ ds.length := by
  induction ds with
  | nil => simp
  | cons d ds ih =>
    have hd := toNat_lt d
    calc value (d :: ds) < radix + radix * value ds := by rw [value_cons]; omega
      _ = radix * (value ds + 1) := by ring
      _ ≤ radix * radix ^ ds.length := Nat.mul_le_mul_left radix ih
      _ = radix ^ (d :: ds).length := by rw [List.length_cons]; ring

@[simp] theorem value_replicate (n : ℕ) : value (List.replicate n 0) = 0 := by
  induction n with
  | zero => rfl
  | succ n ih => rw [List.replicate_succ, value_cons, ih, toNat_zero, Nat.mul_zero]

theorem value_concat (ds : List UInt32) (d : UInt32) :
    value (ds ++ [d]) = value ds + radix ^ ds.length * d.toNat := by
  rw [value_append, value_cons, value_nil, Nat.mul_zero, Nat.add_zero]

theorem value_take_add_drop (ds : List UInt32) {k : ℕ} (h : k ≤ ds.length) :
    value ds = value (ds.take k) + radix ^ k * value (ds.drop k) := by
  conv_lhs => rw [← List.take_append_drop k ds]
  rw [value_append, List.length_take, min_eq_left h]

theorem value_take_succ (ds : List UInt32) {n : ℕ} (h : n < ds.length) :
    value (ds.take (n + 1)) = value (ds.take n) + radix ^ n * (ds.getD n 0).toNat := by
  rw [List.take_succ_eq_append_getElem h, value_concat, List.length_take_of_le h.le,
    List.getD_eq_getElem _ _ h]

theorem value_take_lt (ds : List UInt32) (n : ℕ) : value (ds.take n) < radix ^ n :=
  (value_lt _).trans_le (Nat.pow_le_pow_right radix_pos (List.length_take_le n ds))

theorem value_take_of_lt {ds : List UInt32} {k : ℕ} (h : k ≤ ds.length)
    (hlt : value ds < radix ^ k) : value (ds.take k) = value ds := by
  have hsplit := value_take_add_drop ds h
  have habove : 0 = value (ds.drop k) :=
    above_unique hlt (value_take_lt ds k) (by rw [Nat.mul_zero, Nat.add_zero]; exact hsplit)
  rw [hsplit, ← habove, Nat.mul_zero, Nat.add_zero]

theorem eq_of_value_eq : ∀ {as bs : List UInt32}, as.length = bs.length → value as = value bs →
    as = bs
  | [], [], _, _ => rfl
  | a :: as, b :: bs, hlen, h => by
    rw [value_cons, value_cons] at h
    have hvalue : value as = value bs := above_unique (toNat_lt a) (toNat_lt b) h
    rw [hvalue] at h
    rw [UInt32.toNat_inj.1 (Nat.add_right_cancel h), eq_of_value_eq (Nat.succ.inj hlen) hvalue]

/-! ## Memory -/

open LittleEndian

/-- The `k` words that stand in memory. -/
def words : ℕ → List UInt8 → List UInt32
  | 0, _ => []
  | k + 1, bs => UInt32.ofNat (ofLE (bs.take 4)) :: words k (bs.drop 4)

def bytes (ds : List UInt32) : List UInt8 := ds.flatMap fun d => toLE 4 d.toNat

@[simp] theorem length_words : ∀ (k : ℕ) (bs : List UInt8), (words k bs).length = k := by
  intro k
  induction k with
  | zero => intro bs; rfl
  | succ k ih => intro bs; rw [words, List.length_cons, ih]

/-- **The number of the words** is the number of the bytes. -/
theorem value_words : ∀ {k : ℕ} {bs : List UInt8}, bs.length = 4 * k →
    value (words k bs) = ofLE bs := by
  intro k
  induction k with
  | zero =>
    intro bs h
    rw [List.length_eq_zero_iff.mp h]
    rfl
  | succ k ih =>
    intro bs h
    have hlen : (bs.take 4).length = 4 := by
      rw [List.length_take]
      omega
    have hlt : ofLE (bs.take 4) < 2 ^ 32 := by
      have := ofLE_lt (bs.take 4)
      rwa [hlen] at this
    have hsplit := ofLE_append (bs.take 4) (bs.drop 4)
    rw [List.take_append_drop, hlen] at hsplit
    rw [words, value_cons, ih (by rw [List.length_drop]; omega), UInt32.toNat_ofNat',
      Nat.mod_eq_of_lt hlt, hsplit]
    rfl

@[simp] theorem length_bytes (ds : List UInt32) : (bytes ds).length = 4 * ds.length := by
  induction ds with
  | nil => rfl
  | cons d ds ih =>
    rw [bytes] at ih
    rw [bytes, List.flatMap_cons, List.length_append, length_toLE, ih, List.length_cons]
    omega

theorem ofLE_bytes (ds : List UInt32) : ofLE (bytes ds) = value ds := by
  induction ds with
  | nil => rfl
  | cons d ds ih =>
    have hd : ofLE (toLE 4 d.toNat) = d.toNat := ofLE_toLE_of_lt d.toNat_lt
    rw [bytes] at ih
    rw [bytes, List.flatMap_cons, ofLE_append, ih, hd, length_toLE, value_cons]
    rfl

end Words
