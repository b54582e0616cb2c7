import Mathlib.Data.List.Basic
import Mathlib.Data.Nat.Basic
import Mathlib.Tactic.Ring

/-!
# Byte orders

A record written with `fwrite` is its fields' bytes, lowest byte first.
`toLE w v` is the `w`-byte field that stores `v` and `ofLE` reads a field back;
`ofLE_toLE` is the round trip, with the reduction a `w`-byte field makes.

The other order is that of the 16 and 32 bit words at a place of a memory, as a reader that
shifts bytes together finds them.
-/

namespace LittleEndian

/-- The `w` low bytes of `v`, lowest first. -/
def toLE : Nat → Nat → List UInt8
  | 0, _ => []
  | w + 1, v => UInt8.ofNat v :: toLE w (v / 256)

def ofLE : List UInt8 → Nat
  | [] => 0
  | b :: bs => b.toNat + 256 * ofLE bs

@[simp] theorem length_toLE : ∀ w v : Nat, (toLE w v).length = w := by
  intro w
  induction w with
  | zero => intro v; rfl
  | succ w ih => intro v; rw [toLE, List.length_cons, ih]

/-- **A field read back is the value, reduced to the field's width.** -/
theorem ofLE_toLE : ∀ w v : Nat, ofLE (toLE w v) = v % 256 ^ w := by
  intro w
  induction w with
  | zero => intro v; simp [toLE, ofLE, Nat.mod_one]
  | succ w ih =>
    intro v
    rw [toLE, ofLE, ih, pow_succ', Nat.mod_mul]
    simp

theorem ofLE_toLE_of_lt {w v : Nat} (h : v < 256 ^ w) : ofLE (toLE w v) = v := by
  rw [ofLE_toLE, Nat.mod_eq_of_lt h]

theorem ofLE_lt : ∀ bs : List UInt8, ofLE bs < 256 ^ bs.length := by
  intro bs
  induction bs with
  | nil => exact Nat.one_pos
  | cons b bs ih =>
    have hb : b.toNat < 256 := b.toNat_lt
    rw [ofLE, List.length_cons, pow_succ]
    omega

/-- **Bytes that are read** are the bytes of the number. -/
theorem toLE_ofLE : ∀ bs : List UInt8, toLE bs.length (ofLE bs) = bs := by
  intro bs
  induction bs with
  | nil => rfl
  | cons b bs ih =>
    have hb : b.toNat < 256 := b.toNat_lt
    have hlow : UInt8.ofNat (b.toNat + 256 * ofLE bs) = b := by
      apply UInt8.toNat_inj.mp
      rw [UInt8.toNat_ofNat', Nat.add_mul_mod_self_left, Nat.mod_eq_of_lt hb]
    have hhigh : (b.toNat + 256 * ofLE bs) / 256 = ofLE bs := by omega
    rw [ofLE, List.length_cons, toLE, hlow, hhigh, ih]

/-- Fields of one width are the same where their numbers are. -/
theorem ofLE_inj {l l' : List UInt8} (h : l.length = l'.length) : ofLE l = ofLE l' ↔ l = l' := by
  refine ⟨fun he => ?_, congrArg ofLE⟩
  rw [← toLE_ofLE l, ← toLE_ofLE l', h, he]

theorem toLE_mod (w v : Nat) : toLE w (v % 256 ^ w) = toLE w v := by
  have h := toLE_ofLE (toLE w v)
  rwa [length_toLE, ofLE_toLE] at h

theorem toLE_add : ∀ w w' v : Nat, toLE (w + w') v = toLE w v ++ toLE w' (v / 256 ^ w) := by
  intro w w'
  induction w with
  | zero => intro v; rw [Nat.zero_add, pow_zero, Nat.div_one, toLE, List.nil_append]
  | succ w ih =>
    intro v
    rw [Nat.succ_add, toLE, ih, toLE, List.cons_append, Nat.div_div_eq_div_mul, pow_succ']

theorem toLE_zero : ∀ w : Nat, toLE w 0 = List.replicate w 0 := by
  intro w
  induction w with
  | zero => rfl
  | succ w ih => rw [toLE, Nat.zero_div, ih]; rfl

theorem ofLE_append : ∀ l l' : List UInt8, ofLE (l ++ l') = ofLE l + 256 ^ l.length * ofLE l' := by
  intro l l'
  induction l with
  | nil => rw [List.nil_append, ofLE, List.length_nil, pow_zero, Nat.one_mul, Nat.zero_add]
  | cons b l ih =>
    rw [List.cons_append, ofLE, ih, ofLE, List.length_cons, pow_succ]
    ring

theorem ofLE_replicate_zero : ∀ n : Nat, ofLE (List.replicate n 0) = 0 := by
  intro n
  induction n with
  | zero => rfl
  | succ n ih => rw [List.replicate_succ, ofLE, ih]; rfl

theorem ofLE_take (l : List UInt8) (k : Nat) : ofLE (l.take k) = ofLE l % 256 ^ k := by
  rcases Nat.le_total k l.length with h | h
  · have hlt := ofLE_lt (l.take k)
    rw [List.length_take, min_eq_left h] at hlt
    have hsplit := ofLE_append (l.take k) (l.drop k)
    rw [List.take_append_drop, List.length_take, min_eq_left h] at hsplit
    rw [hsplit, Nat.add_mul_mod_self_left, Nat.mod_eq_of_lt hlt]
  · have hlt := ofLE_lt l
    rw [List.take_of_length_le h, Nat.mod_eq_of_lt]
    exact lt_of_lt_of_le hlt (Nat.pow_le_pow_right (by decide) h)

end LittleEndian

namespace BigEndian

/-- The two bytes at `p`. -/
def readWORD (mem : Nat → UInt8) (p : Nat) : Nat := (mem p).toNat * 256 + (mem (p + 1)).toNat

/-- The four bytes at `p`. -/
def readDWORD (mem : Nat → UInt8) (p : Nat) : Nat :=
  readWORD mem p * 65536 + readWORD mem (p + 2)

theorem readWORD_congr {mem mem' : Nat → UInt8} {n p : Nat} (h : ∀ i < n, mem i = mem' i)
    (hp : p + 2 ≤ n) : readWORD mem p = readWORD mem' p := by
  rw [readWORD, readWORD, h p (by omega), h (p + 1) (by omega)]

theorem readDWORD_congr {mem mem' : Nat → UInt8} {n p : Nat} (h : ∀ i < n, mem i = mem' i)
    (hp : p + 4 ≤ n) : readDWORD mem p = readDWORD mem' p := by
  rw [readDWORD, readDWORD, readWORD_congr h (by omega), readWORD_congr h (by omega)]

end BigEndian
