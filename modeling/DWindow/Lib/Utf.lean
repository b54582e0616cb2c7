import Mathlib.Data.List.Basic

/-!
# Encodings of characters

A character of the basic multilingual plane is its UTF-16 code unit.  It is stored as one to
three bytes in UTF-8, or as two in UTF-16, in either order.
-/

namespace Utf

def low (c : UInt16) : UInt8 := UInt8.ofNat c.toNat

def high (c : UInt16) : UInt8 := UInt8.ofNat (c.toNat / 256)

def unit (lo hi : UInt8) : UInt16 := UInt16.ofNat (lo.toNat + 256 * hi.toNat)

/-- UTF-16 with the low byte first. -/
def utf16le (c : UInt16) : List UInt8 := [low c, high c]

/-- UTF-16 with the high byte first. -/
def utf16be (c : UInt16) : List UInt8 := [high c, low c]

def utf8 (c : UInt16) : List UInt8 :=
  let n := c.toNat
  if n < 128 then [UInt8.ofNat n]
  else if n < 2048 then [UInt8.ofNat (192 + n / 64), UInt8.ofNat (128 + n % 64)]
  else [UInt8.ofNat (224 + n / 4096), UInt8.ofNat (128 + n / 64 % 64), UInt8.ofNat (128 + n % 64)]

theorem toNat_low (c : UInt16) : (low c).toNat = c.toNat % 256 := UInt8.toNat_ofNat'

theorem toNat_high (c : UInt16) : (high c).toNat = c.toNat / 256 := by
  have hc := c.toNat_lt
  rw [high, UInt8.toNat_ofNat']
  omega

/-- **The two bytes make the unit.** -/
theorem unit_low_high (c : UInt16) : unit (low c) (high c) = c := by
  rw [unit, toNat_low, toNat_high, Nat.mod_add_div]
  exact UInt16.ofNat_toNat

theorem eq_zero_of_low_high {c : UInt16} (hlow : low c = 0) (hhigh : high c = 0) : c = 0 := by
  rw [← unit_low_high c, hlow, hhigh]
  rfl

theorem utf8_ne_nil (c : UInt16) : utf8 c ≠ [] := by
  rw [utf8]
  split
  · exact List.cons_ne_nil _ _
  · split
    · exact List.cons_ne_nil _ _
    · exact List.cons_ne_nil _ _

theorem length_le_flatMap_utf8 : ∀ cs : List UInt16, cs.length ≤ (cs.flatMap utf8).length := by
  intro cs
  induction cs with
  | nil => exact Nat.le_refl 0
  | cons c cs ih =>
    have hpos := List.length_pos_iff.mpr (utf8_ne_nil c)
    rw [List.flatMap_cons, List.length_append, List.length_cons]
    omega

/-- **A byte of ASCII** in UTF-8 is a character of its own. -/
theorem eq_of_mem_utf8 {c : UInt16} {b : UInt8} (hb : b.toNat < 128) (h : b ∈ utf8 c) :
    c.toNat = b.toNat := by
  have hc := c.toNat_lt
  have hof : ∀ n, 128 ≤ n → n < 256 → b ≠ UInt8.ofNat n := by
    rintro n hle hlt rfl
    rw [UInt8.toNat_ofNat'] at hb
    omega
  rw [utf8] at h
  split at h
  · rw [List.mem_singleton.mp h, UInt8.toNat_ofNat']
    omega
  · split at h
    · rcases List.mem_pair.mp h with rfl | rfl
      · exact absurd rfl (hof _ (by omega) (by omega))
      · exact absurd rfl (hof _ (by omega) (by omega))
    · simp only [List.mem_cons, List.not_mem_nil, or_false] at h
      rcases h with rfl | rfl | rfl
      · exact absurd rfl (hof _ (by omega) (by omega))
      · exact absurd rfl (hof _ (by omega) (by omega))
      · exact absurd rfl (hof _ (by omega) (by omega))

/-- UTF-8 of one to three bytes a character, read back. -/
def decode : List UInt8 → List UInt16
  | [] => []
  | b :: bs =>
    if b.toNat < 128 then UInt16.ofNat b.toNat :: decode bs
    else
      match bs with
      | [] => []
      | c :: bs =>
        if b.toNat < 224 then
          UInt16.ofNat ((b.toNat - 192) * 64 + (c.toNat - 128)) :: decode bs
        else
          match bs with
          | [] => []
          | d :: bs => UInt16.ofNat ((b.toNat - 224) * 4096 + (c.toNat - 128) * 64 +
              (d.toNat - 128)) :: decode bs

/-- A character with low byte zero takes two bytes at least. -/
theorem two_le_length_utf8 {c : UInt16} (hc : c ≠ 0) (hlow : low c = 0) :
    2 ≤ (utf8 c).length := by
  have hmod : c.toNat % 256 = 0 := by rw [← toNat_low, hlow]; rfl
  have hpos : c.toNat ≠ 0 := fun h => hc (UInt16.toNat_inj.mp h)
  rw [utf8]
  rw [if_neg (by omega)]
  split
  · exact Nat.le_refl 2
  · exact Nat.le_succ 2

/-! ## Characters as two bytes each -/

section Pairs

variable (f g : UInt16 → UInt8)

def pairs (cs : List UInt16) : List UInt8 := cs.flatMap fun c => [f c, g c]

theorem length_pairs : ∀ cs : List UInt16, (pairs f g cs).length = 2 * cs.length := by
  intro cs
  induction cs with
  | nil => rfl
  | cons c cs ih =>
    rw [pairs, List.flatMap_cons, List.length_append, ← pairs, ih, List.length_cons]
    show 2 + 2 * cs.length = 2 * (cs.length + 1)
    omega

theorem getElem?_pairs : ∀ (cs : List UInt16) (i : Nat),
    (pairs f g cs)[2 * i + 1]? = cs[i]?.map g := by
  intro cs
  induction cs with
  | nil =>
    intro i
    rfl
  | cons c cs ih =>
    intro i
    cases i with
    | zero => rfl
    | succ i => exact ih i

end Pairs

end Utf
