import Mathlib.Data.List.Basic
import Mathlib.Data.List.TakeWhile

/-!
# UTF-8 on Linux

`UTF2Uni` and `utf8fromwcs`, which `httppost.cpp` is compiled with where `wchar_t` has 32 bits.
A character is written in one to four bytes.  The branch that reads four of them assigns the
second byte over the first, so only the characters below `2 ^ 18` come back:
`utf2Uni_utf8fromwcs_iff`.
-/

namespace DWindow.Http

/-! ## Both conversions -/

/-- The bytes of a character in `utf8fromwcs`; there are none for one that is too large. -/
def utf8Char (c : Nat) : List UInt8 :=
  if c < 0x80 then [UInt8.ofNat c]
  else if c < 0x800 then [UInt8.ofNat (0xc0 + c / 64), UInt8.ofNat (0x80 + c % 64)]
  else if c < 0x10000 then
    [UInt8.ofNat (0xe0 + c / 4096), UInt8.ofNat (0x80 + c / 64 % 64), UInt8.ofNat (0x80 + c % 64)]
  else if c < 0x200000 then
    [UInt8.ofNat (0xf0 + c / 262144), UInt8.ofNat (0x80 + c / 4096 % 64),
      UInt8.ofNat (0x80 + c / 64 % 64), UInt8.ofNat (0x80 + c % 64)]
  else []

/-- `utf8fromwcs`: the bytes, and whether there were no errors. -/
def utf8fromwcs (wcs : List Nat) : List UInt8 × Bool :=
  (wcs.flatMap utf8Char, wcs.all (· < 0x200000))

/-- The character that `UTF2Uni` reads at a place, and its number of bytes. -/
def charAt (src : List UInt8) : Nat × Nat :=
  let byte := fun i => (src.getD i 0).toNat
  let c := byte 0
  if c < 0x80 then (c, 1)
  else if c / 32 = 6 then (byte 0 % 64 * 64 + byte 1 % 64, 2)
  else if c / 16 = 14 then (byte 0 % 32 * 4096 + byte 1 % 64 * 64 + byte 2 % 64, 3)
  -- the second assignment takes the place of the first
  else if c / 8 = 30 then (byte 1 % 64 * 4096 + byte 2 % 64 * 64 + byte 3 % 64, 4)
  else (byte 2 % 64 * 4096 + byte 3 % 64 * 64 + byte 4 % 64, 5)

/-- The loop of `UTF2Uni`, with the room in `des` and the bytes in front of the end. -/
def utf2UniLoop : Nat → List UInt8 → Nat → List Nat
  | 0, _, _ => []
  | _, _, 0 => []
  | countD + 1, src, sizeS =>
    (charAt src).1 :: utf2UniLoop countD (src.drop (charAt src).2) (sizeS - (charAt src).2)

/-- `UTF2Uni` on a string in memory: the entries of `des`. -/
def utf2Uni (src : List UInt8) (countD : Nat) : List Nat :=
  let des := utf2UniLoop countD src (src.takeWhile (· ≠ 0)).length
  des ++ List.replicate (countD - des.length) 0

/-! ## Code points -/

structure CodePoint where
  code : Nat
  pos : 0 < code
  le : code ≤ 0x10ffff
  not_surrogate : ¬ (0xd800 ≤ code ∧ code ≤ 0xdfff)

/-- One that the four bytes give back. -/
def CodePoint.Small (c : CodePoint) : Prop := c.code < 0x40000

instance (c : CodePoint) : Decidable c.Small := inferInstanceAs (Decidable (_ < _))

theorem toNat_ofNat_of_lt {n : Nat} (h : n < 256) : (UInt8.ofNat n).toNat = n := by
  rw [UInt8.toNat_ofNat', Nat.mod_eq_of_lt h]

theorem ofNat_ne_zero {n : Nat} (hpos : 0 < n) (h : n < 256) : UInt8.ofNat n ≠ 0 := by
  intro hzero
  have hn := toNat_ofNat_of_lt h
  rw [hzero] at hn
  exact absurd hn hpos.ne

theorem ne_zero_of_mem_utf8Char (c : CodePoint) : ∀ b ∈ utf8Char c.code, b ≠ 0 := by
  have hpos := c.pos
  have hle := c.le
  have hlast := @ofNat_ne_zero (0x80 + c.code % 64) (by omega) (by omega)
  have hthird := @ofNat_ne_zero (0x80 + c.code / 64 % 64) (by omega) (by omega)
  have hsecond := @ofNat_ne_zero (0x80 + c.code / 4096 % 64) (by omega) (by omega)
  intro b hb
  unfold utf8Char at hb
  split at hb
  · rw [List.mem_singleton.mp hb]
    exact ofNat_ne_zero hpos (by omega)
  · split at hb
    · have hfirst := @ofNat_ne_zero (0xc0 + c.code / 64) (by omega) (by omega)
      simp only [List.mem_cons, List.not_mem_nil, or_false] at hb
      obtain rfl | rfl := hb <;> assumption
    · split at hb
      · have hfirst := @ofNat_ne_zero (0xe0 + c.code / 4096) (by omega) (by omega)
        simp only [List.mem_cons, List.not_mem_nil, or_false] at hb
        obtain rfl | rfl | rfl := hb <;> assumption
      · rw [if_pos (by omega)] at hb
        have hfirst := @ofNat_ne_zero (0xf0 + c.code / 262144) (by omega) (by omega)
        simp only [List.mem_cons, List.not_mem_nil, or_false] at hb
        obtain rfl | rfl | rfl | rfl := hb <;> assumption

theorem utf8Char_length_pos (c : CodePoint) : 0 < (utf8Char c.code).length := by
  have hle := c.le
  unfold utf8Char
  split
  · exact Nat.one_pos
  · split
    · exact Nat.two_pos
    · split
      · exact Nat.succ_pos _
      · rw [if_pos (by omega)]
        exact Nat.succ_pos _

/-- **What `UTF2Uni` reads of a character.** -/
theorem charAt_utf8Char (c : CodePoint) (rest : List UInt8) :
    charAt (utf8Char c.code ++ rest) = (c.code % 0x40000, (utf8Char c.code).length) := by
  obtain ⟨c, hpos, hle, -⟩ := c
  dsimp only
  unfold charAt utf8Char
  by_cases hone : c < 0x80
  · have hbyte := toNat_ofNat_of_lt (n := c) (by omega)
    simp only [if_pos hone, List.cons_append, List.getD_cons_zero, hbyte]
    exact Prod.ext (by dsimp only; omega) rfl
  · rw [if_neg hone]
    by_cases htwo : c < 0x800
    · have h₀ := toNat_ofNat_of_lt (n := 0xc0 + c / 64) (by omega)
      have h₁ := toNat_ofNat_of_lt (n := 0x80 + c % 64) (by omega)
      simp only [if_pos htwo, List.cons_append, List.getD_cons_zero, List.getD_cons_succ, h₀, h₁]
      rw [if_neg (by omega), if_pos (by omega)]
      exact Prod.ext (by dsimp only; omega) rfl
    · rw [if_neg htwo]
      by_cases hthree : c < 0x10000
      · have h₀ := toNat_ofNat_of_lt (n := 0xe0 + c / 4096) (by omega)
        have h₁ := toNat_ofNat_of_lt (n := 0x80 + c / 64 % 64) (by omega)
        have h₂ := toNat_ofNat_of_lt (n := 0x80 + c % 64) (by omega)
        simp only [if_pos hthree, List.cons_append, List.getD_cons_zero, List.getD_cons_succ, h₀,
          h₁, h₂]
        rw [if_neg (by omega), if_neg (by omega), if_pos (by omega)]
        exact Prod.ext (by dsimp only; omega) rfl
      · have h₀ := toNat_ofNat_of_lt (n := 0xf0 + c / 262144) (by omega)
        have h₁ := toNat_ofNat_of_lt (n := 0x80 + c / 4096 % 64) (by omega)
        have h₂ := toNat_ofNat_of_lt (n := 0x80 + c / 64 % 64) (by omega)
        have h₃ := toNat_ofNat_of_lt (n := 0x80 + c % 64) (by omega)
        have hfour : c < 0x200000 := by omega
        simp only [if_neg hthree, if_pos hfour, List.cons_append, List.getD_cons_zero,
          List.getD_cons_succ, h₀, h₁, h₂, h₃]
        rw [if_neg (by omega), if_neg (by omega), if_neg (by omega), if_pos (by omega)]
        exact Prod.ext (by dsimp only; omega) rfl

/-! ## The round trip -/

theorem utf8fromwcs_cons (c : CodePoint) (cs : List CodePoint) :
    (utf8fromwcs ((c :: cs).map CodePoint.code)).1 =
      utf8Char c.code ++ (utf8fromwcs (cs.map CodePoint.code)).1 := by
  simp only [utf8fromwcs, List.map_cons, List.flatMap_cons]

theorem ne_zero_of_mem_utf8fromwcs (cs : List CodePoint) :
    ∀ b ∈ (utf8fromwcs (cs.map CodePoint.code)).1, b ≠ 0 := by
  induction cs with
  | nil => simp [utf8fromwcs]
  | cons c cs ih =>
    intro b hb
    rw [utf8fromwcs_cons, List.mem_append] at hb
    obtain hb | hb := hb
    · exact ne_zero_of_mem_utf8Char c b hb
    · exact ih b hb

theorem utf2UniLoop_utf8Char (c : CodePoint) (rest : List UInt8) (countD sizeS : Nat) :
    utf2UniLoop (countD + 1) (utf8Char c.code ++ rest) ((utf8Char c.code).length + sizeS) =
      c.code % 0x40000 :: utf2UniLoop countD rest sizeS := by
  obtain ⟨size, hsize⟩ : ∃ size, (utf8Char c.code).length + sizeS = size + 1 :=
    ⟨(utf8Char c.code).length + sizeS - 1, by have := utf8Char_length_pos c; omega⟩
  rw [hsize, utf2UniLoop, charAt_utf8Char, ← hsize, List.drop_left, Nat.add_sub_cancel_left]
  exact Nat.succ_ne_zero _

theorem utf2UniLoop_utf8fromwcs (cs : List CodePoint) (room : Nat) (rest : List UInt8) :
    utf2UniLoop (cs.length + room) ((utf8fromwcs (cs.map CodePoint.code)).1 ++ rest)
        (utf8fromwcs (cs.map CodePoint.code)).1.length =
      cs.map fun c => c.code % 0x40000 := by
  induction cs with
  | nil =>
    cases room with
    | zero => rfl
    | succ room => rfl
  | cons c cs ih =>
    rw [utf8fromwcs_cons, List.append_assoc, List.length_append, List.length_cons,
      Nat.add_right_comm, utf2UniLoop_utf8Char, ih]
    rfl

theorem takeWhile_utf8fromwcs (cs : List CodePoint) (behind : List UInt8) :
    ((utf8fromwcs (cs.map CodePoint.code)).1 ++ 0 :: behind).takeWhile (· ≠ 0) =
      (utf8fromwcs (cs.map CodePoint.code)).1 := by
  rw [List.takeWhile_append_of_pos, List.takeWhile_cons_of_neg, List.append_nil]
  · simp
  · intro b hb
    simpa using ne_zero_of_mem_utf8fromwcs cs b hb

/-- **What `UTF2Uni` makes of a text**: of each character the low eighteen bits. -/
theorem utf2Uni_utf8fromwcs (cs : List CodePoint) (room : Nat) (behind : List UInt8) :
    utf2Uni ((utf8fromwcs (cs.map CodePoint.code)).1 ++ 0 :: behind) (cs.length + room) =
      (cs.map fun c => c.code % 0x40000) ++ List.replicate room 0 := by
  rw [utf2Uni, takeWhile_utf8fromwcs, utf2UniLoop_utf8fromwcs, List.length_map,
    Nat.add_sub_cancel_left]

/-- **A text comes back** from UTF-8 exactly when its code points are below `2 ^ 18`. -/
theorem utf2Uni_utf8fromwcs_iff (cs : List CodePoint) (room : Nat) (behind : List UInt8) :
    utf2Uni ((utf8fromwcs (cs.map CodePoint.code)).1 ++ 0 :: behind) (cs.length + room) =
      cs.map CodePoint.code ++ List.replicate room 0 ↔ ∀ c ∈ cs, c.Small := by
  rw [utf2Uni_utf8fromwcs, List.append_left_inj, List.map_inj_left]
  constructor
  · intro h c hc
    have hlt := Nat.mod_lt c.code (show 0x40000 > 0 by decide)
    rwa [h c hc] at hlt
  · intro h c hc
    exact Nat.mod_eq_of_lt (h c hc)

/-- **The least code point that does not come back.** -/
theorem plane_four_is_lost : ¬ utf2Uni ((utf8fromwcs [0x40000]).1 ++ [0]) 1 = [0x40000] := by
  decide

end DWindow.Http
