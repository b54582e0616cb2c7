import DWindow.E3D.RoundTrip
import DWindow.Lib.Buffer
import DWindow.Lib.XorLinear
import Mathlib.Data.Finset.Card
import Mathlib.Dynamics.PeriodicPts.Defs
import Mathlib.Order.Interval.Finset.Nat

/-!
# The cipher of the encrypted files

`RIJNDAEL.CPP` multiplies in the field of 256 elements with tables of the powers of 3 and of
their logarithms, and a round of the cipher looks its four words up in tables of 32-bit
columns.  3 has 255 powers (`minimalPeriod_timesThree`), so the tables are inverse to each
other (`logTab_spec`) and `ff_mult` is multiplication (`ffMult_eq`).

From that, substitution has an inverse, `imix_col` is the inverse of the mixing of columns, and
`decrypt` undoes `encrypt` under every key: `AESCryptor.decrypt_encrypt`.
-/

namespace DWindow.Rijndael

open Buffer Function LittleEndian XorLinear

abbrev u1byte := BitVec 8
abbrev u4byte := BitVec 32

/-! ## The tables -/

/-- From one power of 3 to the next, modulo `0x11b`. -/
def timesThree (p : u1byte) : u1byte :=
  p ^^^ (p <<< 1) ^^^ (if p &&& 0x80#8 ≠ 0 then 0x1b#8 else 0#8)

/-- The tables in the loop of `gen_tabs` over the powers of 3. -/
structure Powers where
  powTab : List u1byte
  logTab : List u1byte
  p : u1byte

def Powers.next (s : Powers) (i : Nat) : Powers where
  powTab := s.powTab.set i s.p
  logTab := s.logTab.set s.p.toNat (BitVec.ofNat 8 i)
  p := timesThree s.p

def powersLoop (n : Nat) : Powers :=
  (List.range n).foldl Powers.next ⟨List.replicate 256 0, List.replicate 256 0, 1⟩

def powTab : List u1byte := (powersLoop 256).powTab

def logTab : List u1byte := (powersLoop 256).logTab.set 1 0

def ffMult (a b : u1byte) : u1byte :=
  if a ≠ 0 ∧ b ≠ 0 then
    powTab.getD (((logTab.getD a.toNat 0).toNat + (logTab.getD b.toNat 0).toNat) % 255) 0
  else 0

def rcoTab (i : Nat) : u4byte :=
  (((fun p : u1byte => (p <<< 1) ^^^ (if p &&& 0x80#8 ≠ 0 then 0x1b#8 else 0#8))^[i]) 1).setWidth 32

/-- The power that a byte is replaced by, its inverse in the field. -/
def inverse (i : u1byte) : u1byte :=
  if i ≠ 0 then powTab.getD (255 - (logTab.getD i.toNat 0).toNat) 0 else 0

/-- `(q >> 7) | (q << 1)`. -/
def turn (q : u1byte) : u1byte := (q >>> 7) ||| (q <<< 1)

/-- The bits of an entry of `sbx_tab`. -/
def affine (p : u1byte) : u1byte :=
  let q := turn p
  let p := p ^^^ q
  let q := turn q
  let p := p ^^^ q
  let q := turn q
  let p := p ^^^ q
  let q := turn q
  p ^^^ (q ^^^ 0x63#8)

/-- `sbx_tab`. -/
def sbx (i : u1byte) : u1byte := affine (inverse i)

def isbTab : List u1byte :=
  fill (fun i => (sbx (BitVec.ofNat 8 i)).toNat) (BitVec.ofNat 8) 256 (List.replicate 256 0)

/-- `isb_tab`. -/
def isb (i : u1byte) : u1byte := isbTab.getD i.toNat 0

/-- The column `t` of a byte of `sbx_tab`. -/
def ftColumn (p : u1byte) : u4byte :=
  (ffMult 2 p).setWidth 32 ||| (p.setWidth 32 <<< 8) ||| (p.setWidth 32 <<< 16) |||
    ((ffMult 3 p).setWidth 32 <<< 24)

/-- The column `t` of a byte of `isb_tab`. -/
def itColumn (p : u1byte) : u4byte :=
  (ffMult 14 p).setWidth 32 ||| ((ffMult 9 p).setWidth 32 <<< 8) |||
    ((ffMult 13 p).setWidth 32 <<< 16) ||| ((ffMult 11 p).setWidth 32 <<< 24)

/-- `fl_tab`, `ft_tab`, `il_tab` and `it_tab`. -/
def flTab (n : Nat) (i : u1byte) : u4byte := ((sbx i).setWidth 32).rotateLeft (8 * n)
def ftTab (n : Nat) (i : u1byte) : u4byte := (ftColumn (sbx i)).rotateLeft (8 * n)
def ilTab (n : Nat) (i : u1byte) : u4byte := ((isb i).setWidth 32).rotateLeft (8 * n)
def itTab (n : Nat) (i : u1byte) : u4byte := (itColumn (isb i)).rotateLeft (8 * n)

/-! ## The cipher -/

def byte (x : u4byte) (n : Nat) : u1byte := (x >>> (8 * n)).setWidth 8

def lsBox (x : u4byte) : u4byte :=
  flTab 0 (byte x 0) ^^^ flTab 1 (byte x 1) ^^^ flTab 2 (byte x 2) ^^^ flTab 3 (byte x 3)

def starX (x : u4byte) : u4byte :=
  ((x &&& 0x7f7f7f7f#32) <<< 1) ^^^ (((x &&& 0x80808080#32) >>> 7) * 0x1b#32)

def imixCol (x : u4byte) : u4byte :=
  let u := starX x
  let v := starX u
  let w := starX v
  let t := w ^^^ x
  u ^^^ v ^^^ w ^^^ ((u ^^^ t).rotateRight 8 ^^^ (v ^^^ t).rotateRight 16 ^^^ t.rotateRight 24)

/-- `u4byte_in`, and the bytes that `u4byte_out` writes. -/
def u4byteIn (b : List UInt8) : u4byte := BitVec.ofNat 32 (ofLE (b.take 4))
def u4byteOut (x : u4byte) : List UInt8 := toLE 4 x.toNat

abbrev State := Vector u4byte 4

/-- The object: the words of its key, and the two schedules. -/
structure AESCryptor where
  kLen : Nat
  eKey : Vector u4byte 64
  dKey : Vector u4byte 64

/-- A schedule that is being made, and the last word of it. -/
abbrev Schedule := Vector u4byte 64 × u4byte

/-- `t ^= e_key[a]; e_key[b] = t;`. -/
def Schedule.put (s : Schedule) (a b : Nat) : Schedule :=
  let t := s.2 ^^^ s.1.getD a 0
  (s.1.setIfInBounds b t, t)

/-- The line from `e_key[n * i + j]` to `e_key[n * i + j + n]`, for some `j`. -/
def Schedule.puts (n i : Nat) (s : Schedule) (js : List Nat) : Schedule :=
  js.foldl (fun s j => s.put (n * i + j) (n * i + j + n)) s

def loop4 (s : Schedule) (i : Nat) : Schedule :=
  Schedule.puts 4 i (s.1, lsBox (s.2.rotateRight 8) ^^^ rcoTab i) [0, 1, 2, 3]

def loop6 (s : Schedule) (i : Nat) : Schedule :=
  Schedule.puts 6 i (s.1, lsBox (s.2.rotateRight 8) ^^^ rcoTab i) [0, 1, 2, 3, 4, 5]

def loop8 (s : Schedule) (i : Nat) : Schedule :=
  let s := Schedule.puts 8 i (s.1, lsBox (s.2.rotateRight 8) ^^^ rcoTab i) [0, 1, 2, 3]
  let t := s.1.getD (8 * i + 4) 0 ^^^ lsBox s.2
  Schedule.puts 8 i (s.1.setIfInBounds (8 * i + 12) t, t) [5, 6, 7]

/-- The words `e_key[n], …` that are read from the key. -/
def readKey (inKey : List UInt8) (e : Vector u4byte 64) (ns : List Nat) : Vector u4byte 64 :=
  ns.foldl (fun e n => e.setIfInBounds n (u4byteIn (inKey.drop (4 * n)))) e

def schedule (kLen : Nat) (inKey : List UInt8) (e : Vector u4byte 64) : Vector u4byte 64 :=
  let e := readKey inKey e [0, 1, 2, 3]
  match kLen with
  | 4 => ((List.range 10).foldl loop4 (e, e.getD 3 0)).1
  | 6 =>
    let e := readKey inKey e [4, 5]
    ((List.range 8).foldl loop6 (e, e.getD 5 0)).1
  | 8 =>
    let e := readKey inKey e [4, 5, 6, 7]
    ((List.range 7).foldl loop8 (e, e.getD 7 0)).1
  | _ => e

/-- `set_key`, whatever was in the object. -/
def AESCryptor.setKey (c : AESCryptor) (inKey : List UInt8) (keyLen : Nat) : AESCryptor :=
  let kLen := (keyLen + 31) / 32
  let e := schedule kLen inKey c.eKey
  let d := [0, 1, 2, 3].foldl (fun d i => d.setIfInBounds i (e.getD i 0)) c.dKey
  { kLen := kLen
    eKey := e
    dKey := (List.range' 4 (4 * kLen + 24 - 4)).foldl
      (fun d i => d.setIfInBounds i (imixCol (e.getD i 0))) d }

/-- `bi[(n + j) & 3]`. -/
def State.after (bi : State) (n : Fin 4) (j : Nat) : u4byte :=
  bi.get ⟨(n + j) % 4, Nat.mod_lt _ (by decide)⟩

def fRn (bi : State) (n : Fin 4) (k : u4byte) : u4byte :=
  ftTab 0 (byte (bi.get n) 0) ^^^ ftTab 1 (byte (bi.after n 1) 1) ^^^
    ftTab 2 (byte (bi.after n 2) 2) ^^^ ftTab 3 (byte (bi.after n 3) 3) ^^^ k

def fRl (bi : State) (n : Fin 4) (k : u4byte) : u4byte :=
  flTab 0 (byte (bi.get n) 0) ^^^ flTab 1 (byte (bi.after n 1) 1) ^^^
    flTab 2 (byte (bi.after n 2) 2) ^^^ flTab 3 (byte (bi.after n 3) 3) ^^^ k

def iRn (bi : State) (n : Fin 4) (k : u4byte) : u4byte :=
  itTab 0 (byte (bi.get n) 0) ^^^ itTab 1 (byte (bi.after n 3) 1) ^^^
    itTab 2 (byte (bi.after n 2) 2) ^^^ itTab 3 (byte (bi.after n 1) 3) ^^^ k

def iRl (bi : State) (n : Fin 4) (k : u4byte) : u4byte :=
  ilTab 0 (byte (bi.get n) 0) ^^^ ilTab 1 (byte (bi.after n 3) 1) ^^^
    ilTab 2 (byte (bi.after n 2) 2) ^^^ ilTab 3 (byte (bi.after n 1) 3) ^^^ k

/-- `f_nround`, `m` times: the block, and `kp` as an index of `e_key`. -/
def fNrounds (e : Vector u4byte 64) : Nat → State × Nat → State × Nat
  | 0, s => s
  | m + 1, (b, kp) =>
    fNrounds e m (Vector.ofFn fun n => fRn b n (e.getD (kp + n) 0), kp + 4)

/-- `i_nround`, `m` times: the block, and `kp` as an index of `d_key`. -/
def iNrounds (d : Vector u4byte 64) : Nat → State × Nat → State × Nat
  | 0, s => s
  | m + 1, (b, kp) =>
    iNrounds d m (Vector.ofFn fun n => iRn b n (d.getD (kp + n) 0), kp - 4)

/-- The words of a block, with the words of a schedule from `k` on. -/
def blockIn (inBlk : List UInt8) (e : Vector u4byte 64) (k : Nat) : State :=
  Vector.ofFn fun n => u4byteIn (inBlk.drop (4 * n)) ^^^ e.getD (k + n) 0

def blockOut (b : State) : List UInt8 := (List.ofFn fun n => u4byteOut (b.get n)).flatten

def AESCryptor.encrypt (c : AESCryptor) (inBlk : List UInt8) : List UInt8 :=
  let s := (blockIn inBlk c.eKey 0, 4)
  let s := if 6 < c.kLen then fNrounds c.eKey 2 s else s
  let s := if 4 < c.kLen then fNrounds c.eKey 2 s else s
  let (b, kp) := fNrounds c.eKey 9 s
  blockOut (Vector.ofFn fun n => fRl b n (c.eKey.getD (kp + n) 0))

def AESCryptor.decrypt (c : AESCryptor) (inBlk : List UInt8) : List UInt8 :=
  let s := (blockIn inBlk c.eKey (4 * c.kLen + 24), 4 * (c.kLen + 5))
  let s := if 6 < c.kLen then iNrounds c.dKey 2 s else s
  let s := if 4 < c.kLen then iNrounds c.dKey 2 s else s
  let (b, kp) := iNrounds c.dKey 9 s
  blockOut (Vector.ofFn fun n => iRl b n (c.dKey.getD (kp + n) 0))


/-! ## The powers of 3 -/

/-- `0x1b` where the highest bit is set, without a case. -/
theorem timesThree_eq (p : u1byte) : timesThree p = p ^^^ (p <<< 1) ^^^
    ((p >>> 7) ^^^ (p >>> 7 <<< 1) ^^^ (p >>> 7 <<< 3) ^^^ (p >>> 7 <<< 4)) := by
  have h : ∀ i < 256, timesThree (BitVec.ofNat 8 i) =
      BitVec.ofNat 8 i ^^^ (BitVec.ofNat 8 i <<< 1) ^^^
        ((BitVec.ofNat 8 i >>> 7) ^^^ (BitVec.ofNat 8 i >>> 7 <<< 1) ^^^
          (BitVec.ofNat 8 i >>> 7 <<< 3) ^^^ (BitVec.ofNat 8 i >>> 7 <<< 4)) := by
    set_option maxRecDepth 8000 in decide
  have hp := h p.toNat p.isLt
  rwa [BitVec.ofNat_toNat, BitVec.setWidth_eq] at hp

theorem timesThree_linear : XorLinear timesThree := by
  have htop : XorLinear fun p : u1byte => p >>> 7 := id.ushiftRight 7
  have h : XorLinear fun p : u1byte => p ^^^ (p <<< 1) ^^^
      ((p >>> 7) ^^^ (p >>> 7 <<< 1) ^^^ (p >>> 7 <<< 3) ^^^ (p >>> 7 <<< 4)) :=
    (id.xor (id.shiftLeft 1)).xor
      (((htop.xor (htop.shiftLeft 1)).xor (htop.shiftLeft 3)).xor (htop.shiftLeft 4))
  rwa [← funext timesThree_eq] at h

/-- **Multiplying 255 times by 3** changes nothing. -/
theorem timesThree_iterate (p : u1byte) : timesThree^[255] p = p := by
  have h : timesThree^[255] = fun p => p :=
    (timesThree_linear.iterate 255).eq_of_twoPow id (by set_option maxRecDepth 8000 in decide)
  rw [h]

/-- **3 has 255 powers.** -/
theorem minimalPeriod_timesThree : minimalPeriod timesThree 1 = 255 := by
  have hdvd : minimalPeriod timesThree 1 ∣ 255 :=
    IsPeriodicPt.minimalPeriod_dvd (timesThree_iterate 1)
  have hproper : ∀ n, timesThree^[n] 1 ≠ 1 → ¬ minimalPeriod timesThree 1 ∣ n := fun n hn h =>
    hn (isPeriodicPt_iff_minimalPeriod_dvd.mpr h)
  have h15 := hproper 15 (by decide)
  have h51 := hproper 51 (by decide)
  have h85 := hproper 85 (by decide)
  have hle := Nat.le_of_dvd (by decide) hdvd
  -- a proper divisor of 255 divides one of the three
  have hdivisors : ∀ n < 256, n ∣ 255 → ¬ n ∣ 15 → ¬ n ∣ 51 → ¬ n ∣ 85 → n = 255 := by
    set_option maxRecDepth 8000 in decide
  exact hdivisors _ (Nat.lt_succ_of_le hle) hdvd h15 h51 h85

/-- The powers of 3 up to the 254th differ. -/
theorem iterate_injOn {i j : Nat} (hi : i < 255) (hj : j < 255)
    (h : timesThree^[i] 1 = timesThree^[j] 1) : i = j := by
  have hset := iterate_injOn_Iio_minimalPeriod (f := timesThree) (x := 1)
  rw [minimalPeriod_timesThree] at hset
  exact hset hi hj h

theorem iterate_mod (n : Nat) : timesThree^[n % 255] 1 = timesThree^[n] 1 := by
  rw [← minimalPeriod_timesThree, iterate_mod_minimalPeriod_eq]

theorem iterate_ne_zero (n : Nat) : timesThree^[n] 1 ≠ 0 := by
  intro h
  have hone := timesThree_iterate 1
  have hsum : 255 = 255 - n % 255 + n % 255 := by omega
  rw [hsum, iterate_add_apply, iterate_mod, h] at hone
  exact absurd ((timesThree_linear.iterate _).map_zero.symm.trans hone) (by decide)

/-- **Every byte but zero is a power of 3.** -/
theorem exists_iterate {b : u1byte} (hb : b ≠ 0) : ∃ k < 255, timesThree^[k] 1 = b := by
  have hsub : (Finset.range 255).image (fun k => (timesThree^[k] 1).toNat) ⊆ Finset.Ico 1 256 := by
    intro x hx
    obtain ⟨k, -, rfl⟩ := Finset.mem_image.mp hx
    have hlt : (timesThree^[k] 1).toNat < 256 := (timesThree^[k] 1).isLt
    have hne : (timesThree^[k] 1).toNat ≠ 0 := fun h =>
      iterate_ne_zero k (BitVec.eq_of_toNat_eq h)
    exact Finset.mem_Ico.mpr ⟨Nat.one_le_iff_ne_zero.mpr hne, hlt⟩
  have hcard : ((Finset.range 255).image (fun k => (timesThree^[k] 1).toNat)).card = 255 := by
    rw [Finset.card_image_of_injOn, Finset.card_range]
    intro i hi j hj h
    exact iterate_injOn (Finset.mem_range.mp hi) (Finset.mem_range.mp hj)
      (BitVec.eq_of_toNat_eq h)
  have heq := Finset.eq_of_subset_of_card_le hsub (by rw [hcard, Nat.card_Ico])
  have hmem : b.toNat ∈ Finset.Ico 1 256 :=
    Finset.mem_Ico.mpr ⟨Nat.one_le_iff_ne_zero.mpr fun h => hb (BitVec.eq_of_toNat_eq h), b.isLt⟩
  rw [← heq] at hmem
  obtain ⟨k, hk, h⟩ := Finset.mem_image.mp hmem
  exact ⟨k, Finset.mem_range.mp hk, BitVec.eq_of_toNat_eq h⟩

/-! ## The logarithms -/

theorem powersLoop_succ (n : Nat) : powersLoop (n + 1) = (powersLoop n).next n := by
  rw [powersLoop, List.range_succ, List.foldl_append]
  rfl

/-- **The loop** fills two tables: the powers, and for each the number of its turn. -/
theorem powersLoop_eq (n : Nat) : powersLoop n =
    ⟨fill (fun i => i) (fun i => timesThree^[i] 1) n (List.replicate 256 0),
      fill (fun i => (timesThree^[i] 1).toNat) (BitVec.ofNat 8) n (List.replicate 256 0),
      timesThree^[n] 1⟩ := by
  induction n with
  | zero => rfl
  | succ n ih =>
    rw [powersLoop_succ, ih, Powers.next, ← fill_succ, ← fill_succ, iterate_succ_apply']

theorem powTab_spec {i : Nat} (hi : i < 256) : powTab.getD i 0 = timesThree^[i] 1 := by
  have hpow : powTab =
      fill (fun i => i) (fun i => timesThree^[i] 1) 256 (List.replicate 256 0) := by
    rw [powTab, powersLoop_eq]
  have hroom : i < (List.replicate 256 (0 : u1byte)).length := by
    rwa [List.length_replicate]
  rw [hpow]
  exact getD_fill (f := fun i => i) (g := fun i => timesThree^[i] 1) hi hroom
    (fun j hij _ => Nat.ne_of_gt hij) 0

/-- **The logarithm of a power of 3.** -/
theorem logTab_spec {k : Nat} (hk : k < 255) :
    (logTab.getD (timesThree^[k] 1).toNat 0).toNat = k := by
  have hbyte : ∀ j, (timesThree^[j] 1).toNat < (List.replicate 256 (0 : u1byte)).length := by
    intro j
    rw [List.length_replicate]
    exact (timesThree^[j] 1).isLt
  rw [logTab, powersLoop_eq, List.getD_eq_getElem?_getD, List.getElem?_set, length_fill]
  split_ifs with hone hlt
  · -- the power itself is 1
    have hk0 : timesThree^[k] 1 = timesThree^[0] 1 := BitVec.eq_of_toNat_eq hone.symm
    rw [iterate_injOn hk (by decide) hk0]
    rfl
  · exact absurd (hbyte 0) hlt
  · have hlast : ∀ j, k < j → j < 256 → (timesThree^[j] 1).toNat ≠ (timesThree^[k] 1).toNat := by
      intro j hkj hj h
      rcases Nat.lt_or_ge j 255 with hj255 | hj255
      · exact Nat.ne_of_lt hkj (iterate_injOn hk hj255 (BitVec.eq_of_toNat_eq h.symm))
      · rw [show j = 255 by omega, timesThree_iterate] at h
        exact hone h
    rw [← List.getD_eq_getElem?_getD,
      getD_fill (f := fun i => (timesThree^[i] 1).toNat) (by omega) (hbyte k) hlast,
      BitVec.toNat_ofNat, Nat.mod_eq_of_lt (by omega)]

/-- **`ff_mult` is multiplication**: by the `k`th power of 3 it is `k` times by 3. -/
theorem ffMult_eq {k : Nat} (hk : k < 255) (b : u1byte) :
    ffMult (timesThree^[k] 1) b = timesThree^[k] b := by
  by_cases hb : b = 0
  · have hzero := (timesThree_linear.iterate k).map_zero
    rw [ffMult, if_neg (by simp [hb]), hb]
    exact hzero.symm
  · obtain ⟨j, hj, rfl⟩ := exists_iterate hb
    rw [ffMult, if_pos ⟨iterate_ne_zero k, hb⟩, logTab_spec hk, logTab_spec hj,
      powTab_spec (by omega), iterate_mod, iterate_add_apply]

/-! ## Substitution -/

theorem inverse_iterate {k : Nat} (hk : k < 255) :
    inverse (timesThree^[k] 1) = timesThree^[255 - k] 1 := by
  rw [inverse, if_pos (iterate_ne_zero k), logTab_spec hk, powTab_spec (by omega)]

theorem inverse_inverse (b : u1byte) : inverse (inverse b) = b := by
  by_cases hb : b = 0
  · rw [hb]
    decide
  · obtain ⟨k, hk, rfl⟩ := exists_iterate hb
    rw [inverse_iterate hk]
    rcases Nat.eq_zero_or_pos k with rfl | hpos
    · rw [timesThree_iterate, ← iterate_zero_apply timesThree 1, inverse_iterate (by decide)]
      exact timesThree_iterate 1
    · rw [inverse_iterate (by omega), show 255 - (255 - k) = k by omega]

/-- The bits that `affine` mixes, without the constant, and how they are taken apart. -/
theorem affine_left (p : u1byte) :
    let r := affine p ^^^ 0x63#8
    r.rotateLeft 1 ^^^ r.rotateLeft 3 ^^^ r.rotateLeft 6 = p := by
  have h : ∀ i < 256, (affine (BitVec.ofNat 8 i) ^^^ 0x63#8).rotateLeft 1 ^^^
      (affine (BitVec.ofNat 8 i) ^^^ 0x63#8).rotateLeft 3 ^^^
      (affine (BitVec.ofNat 8 i) ^^^ 0x63#8).rotateLeft 6 = BitVec.ofNat 8 i := by
    set_option maxRecDepth 8000 in decide
  have hp := h p.toNat p.isLt
  rwa [BitVec.ofNat_toNat, BitVec.setWidth_eq] at hp

theorem sbx_injective : Injective sbx := by
  intro a b h
  have hinv : inverse a = inverse b := by
    rw [← affine_left (inverse a), ← affine_left (inverse b)]
    exact congrArg (fun p => (p ^^^ 0x63#8).rotateLeft 1 ^^^ (p ^^^ 0x63#8).rotateLeft 3 ^^^
      (p ^^^ 0x63#8).rotateLeft 6) h
  rw [← inverse_inverse a, hinv, inverse_inverse]

/-- **`isb_tab` is the inverse of `sbx_tab`.** -/
theorem isb_sbx (i : u1byte) : isb (sbx i) = i := by
  have hof : BitVec.ofNat 8 i.toNat = i := by
    rw [BitVec.ofNat_toNat, BitVec.setWidth_eq]
  have hlast : ∀ j, i.toNat < j → j < 256 →
      (sbx (BitVec.ofNat 8 j)).toNat ≠ (sbx (BitVec.ofNat 8 i.toNat)).toNat := by
    intro j hij hj h
    have hsame := congrArg BitVec.toNat (sbx_injective (BitVec.eq_of_toNat_eq h))
    rw [hof, BitVec.toNat_ofNat, Nat.mod_eq_of_lt hj] at hsame
    exact Nat.ne_of_gt hij hsame
  have hfill := getD_fill (f := fun i => (sbx (BitVec.ofNat 8 i)).toNat)
    (g := BitVec.ofNat 8) (l := List.replicate 256 0) i.isLt
    (by rw [List.length_replicate]; exact (sbx _).isLt) hlast 0
  rwa [hof] at hfill

/-! ## Words of four bytes -/

def word (a b c d : u1byte) : u4byte :=
  (a.setWidth 32).rotateLeft (8 * 0) ^^^ (b.setWidth 32).rotateLeft (8 * 1) ^^^
    (c.setWidth 32).rotateLeft (8 * 2) ^^^ (d.setWidth 32).rotateLeft (8 * 3)

theorem byte_linear (n : Nat) : XorLinear fun x => byte x n :=
  (id.ushiftRight (8 * n)).setWidth 8

theorem column_linear (n : Nat) :
    XorLinear fun p : u1byte => (p.setWidth 32).rotateLeft (8 * n) :=
  (id.setWidth 32).rotateLeft (8 * n)

/-- **A word is the word of its bytes.** -/
theorem word_byte (x : u4byte) : word (byte x 0) (byte x 1) (byte x 2) (byte x 3) = x := by
  have hcolumn : ∀ n, XorLinear fun x => ((byte x n).setWidth 32).rotateLeft (8 * n) :=
    fun n => (column_linear n).comp (byte_linear n)
  have h : (fun x => word (byte x 0) (byte x 1) (byte x 2) (byte x 3)) = fun x => x :=
    (((hcolumn 0).xor (hcolumn 1)).xor (hcolumn 2)).xor (hcolumn 3) |>.eq_of_twoPow id
      (by decide)
  exact congrFun h x

theorem byte_column {m n : Nat} (hm : m < 4) (hn : n < 4) (p : u1byte) :
    byte ((p.setWidth 32).rotateLeft (8 * n)) m = if m = n then p else 0 := by
  have hbits : ∀ m < 4, ∀ n < 4, ∀ i < 8,
      byte (((BitVec.twoPow 8 i).setWidth 32).rotateLeft (8 * n)) m =
        if m = n then BitVec.twoPow 8 i else 0 := by
    decide
  have hlinear := (byte_linear m).comp (column_linear n)
  by_cases hmn : m = n
  · rw [if_pos hmn]
    exact congrFun (hlinear.eq_of_twoPow id fun i hi => (hbits m hm n hn i hi).trans
      (if_pos hmn)) p
  · rw [if_neg hmn]
    have hzero : XorLinear fun _ : u1byte => (0 : u1byte) := fun _ _ => BitVec.xor_self.symm
    exact congrFun (hlinear.eq_of_twoPow hzero fun i hi => (hbits m hm n hn i hi).trans
      (if_neg hmn)) p

theorem byte_word {a b c d : u1byte} : byte (word a b c d) 0 = a ∧ byte (word a b c d) 1 = b ∧
    byte (word a b c d) 2 = c ∧ byte (word a b c d) 3 = d := by
  have h : ∀ m < 4, byte (word a b c d) m = (if m = 0 then a else 0) ^^^
      (if m = 1 then b else 0) ^^^ (if m = 2 then c else 0) ^^^ if m = 3 then d else 0 := by
    intro m hm
    have hxor : ∀ x y, byte (x ^^^ y) m = byte x m ^^^ byte y m := byte_linear m
    rw [word, hxor, hxor, hxor, byte_column hm (by decide), byte_column hm (by decide),
      byte_column hm (by decide), byte_column hm (by decide)]
  refine ⟨(h 0 (by decide)).trans ?_, (h 1 (by decide)).trans ?_, (h 2 (by decide)).trans ?_,
    (h 3 (by decide)).trans ?_⟩ <;> simp

theorem shiftLeft_column {n : Nat} (hn : n < 4) (p : u1byte) :
    p.setWidth 32 <<< (8 * n) = (p.setWidth 32).rotateLeft (8 * n) := by
  have hbits : ∀ n < 4, ∀ i < 8, (BitVec.twoPow 8 i).setWidth 32 <<< (8 * n) =
      ((BitVec.twoPow 8 i).setWidth 32).rotateLeft (8 * n) := by
    decide
  exact congrFun (((id.setWidth 32).shiftLeft (8 * n)).eq_of_twoPow (column_linear n)
    fun i hi => hbits n hn i hi) p

theorem byte_or (x y : u4byte) (n : Nat) : byte (x ||| y) n = byte x n ||| byte y n := by
  rw [byte, byte, byte, BitVec.ushiftRight_or_distrib, BitVec.setWidth_or]

/-- **Shifted bytes** that are put together are a word. -/
theorem or_eq_word (a b c d : u1byte) :
    a.setWidth 32 ||| (b.setWidth 32 <<< 8) ||| (c.setWidth 32 <<< 16) |||
      (d.setWidth 32 <<< 24) = word a b c d := by
  have h : ∀ m < 4, byte (a.setWidth 32 ||| (b.setWidth 32 <<< 8) ||| (c.setWidth 32 <<< 16) |||
      (d.setWidth 32 <<< 24)) m = (if m = 0 then a else 0) ||| (if m = 1 then b else 0) |||
        (if m = 2 then c else 0) ||| if m = 3 then d else 0 := by
    intro m hm
    have ha : byte (a.setWidth 32) m = if m = 0 then a else 0 := by
      rw [← byte_column hm (by decide : 0 < 4) a, ← shiftLeft_column (by decide), Nat.mul_zero,
        BitVec.shiftLeft_zero]
    rw [byte_or, byte_or, byte_or, ha, ← byte_column hm (by decide : 1 < 4) b,
      ← byte_column hm (by decide : 2 < 4) c, ← byte_column hm (by decide : 3 < 4) d,
      ← shiftLeft_column (by decide), ← shiftLeft_column (by decide),
      ← shiftLeft_column (by decide)]
  rw [← word_byte (a.setWidth 32 ||| _ ||| _ ||| _), h 0 (by decide), h 1 (by decide),
    h 2 (by decide), h 3 (by decide)]
  simp

/-! ## Mixing -/

theorem ffMult_linear {a : u1byte} (ha : a ≠ 0) : XorLinear (ffMult a) := by
  obtain ⟨k, hk, rfl⟩ := exists_iterate ha
  have h : ffMult (timesThree^[k] 1) = timesThree^[k] := funext (ffMult_eq hk)
  rw [h]
  exact timesThree_linear.iterate k

def timesTwo (p : u1byte) : u1byte := timesThree p ^^^ p

theorem timesTwo_eq : timesThree^[25] = timesTwo :=
  (timesThree_linear.iterate 25).eq_of_twoPow (timesThree_linear.xor id) (by decide)

theorem ffMult_comm (a b : u1byte) : ffMult a b = ffMult b a := by
  simp only [ffMult, and_comm, Nat.add_comm]

theorem ffMult_xor (a a' b : u1byte) : ffMult (a ^^^ a') b = ffMult a b ^^^ ffMult a' b := by
  by_cases hb : b = 0
  · rw [ffMult, ffMult, ffMult, if_neg (by simp [hb]), if_neg (by simp [hb]),
      if_neg (by simp [hb])]
    decide
  · rw [ffMult_comm, ffMult_linear hb, ffMult_comm b, ffMult_comm b]

/-- **The products by powers of 2.** -/
theorem ffMult_timesTwo {k : Nat} (hk : 25 * k < 255) (b : u1byte) :
    ffMult (timesTwo^[k] 1) b = timesTwo^[k] b := by
  rw [← timesTwo_eq, ← Function.iterate_mul, ffMult_eq hk]

theorem ffMult_spec (p : u1byte) : ffMult 2 p = timesTwo p ∧ ffMult 3 p = timesTwo p ^^^ p ∧
    ffMult 9 p = timesTwo (timesTwo (timesTwo p)) ^^^ p ∧
    ffMult 11 p = timesTwo (timesTwo (timesTwo p)) ^^^ timesTwo p ^^^ p ∧
    ffMult 13 p = timesTwo (timesTwo (timesTwo p)) ^^^ timesTwo (timesTwo p) ^^^ p ∧
    ffMult 14 p = timesTwo (timesTwo (timesTwo p)) ^^^ timesTwo (timesTwo p) ^^^ timesTwo p := by
  have h1 : ffMult 1 p = p := ffMult_timesTwo (k := 0) (by decide) p
  have h2 : ffMult 2 p = timesTwo p := ffMult_timesTwo (k := 1) (by decide) p
  have h4 : ffMult 4 p = timesTwo (timesTwo p) := ffMult_timesTwo (k := 2) (by decide) p
  have h8 : ffMult 8 p = timesTwo (timesTwo (timesTwo p)) :=
    ffMult_timesTwo (k := 3) (by decide) p
  have h3 := ffMult_xor 2 1 p
  have h9 := ffMult_xor 8 1 p
  have h11 := ffMult_xor (8 ^^^ 2) 1 p
  have h13 := ffMult_xor (8 ^^^ 4) 1 p
  have h14 := ffMult_xor (8 ^^^ 4) 2 p
  rw [ffMult_xor 8 2] at h11
  rw [ffMult_xor 8 4] at h13 h14
  rw [h8, h1] at h9
  rw [h8, h2, h1] at h11
  rw [h8, h4, h1] at h13
  rw [h8, h4, h2] at h14
  rw [h2, h1] at h3
  exact ⟨h2, h3, h9, h11, h13, h14⟩

theorem ftColumn_eq (p : u1byte) :
    ftColumn p = word (timesTwo p) p p (timesTwo p ^^^ p) := by
  obtain ⟨h2, h3, -⟩ := ffMult_spec p
  rw [← h3, ← h2]
  exact or_eq_word _ _ _ _

theorem itColumn_eq (p : u1byte) : itColumn p =
    word (timesTwo (timesTwo (timesTwo p)) ^^^ timesTwo (timesTwo p) ^^^ timesTwo p)
      (timesTwo (timesTwo (timesTwo p)) ^^^ p)
      (timesTwo (timesTwo (timesTwo p)) ^^^ timesTwo (timesTwo p) ^^^ p)
      (timesTwo (timesTwo (timesTwo p)) ^^^ timesTwo p ^^^ p) := by
  obtain ⟨-, -, h9, h11, h13, h14⟩ := ffMult_spec p
  rw [← h14, ← h9, ← h13, ← h11]
  exact or_eq_word _ _ _ _

theorem word_linear {f g h k : u1byte → u1byte} (hf : XorLinear f) (hg : XorLinear g)
    (hh : XorLinear h) (hk : XorLinear k) : XorLinear fun p => word (f p) (g p) (h p) (k p) :=
  ((((column_linear 0).comp hf).xor ((column_linear 1).comp hg)).xor
    ((column_linear 2).comp hh)).xor ((column_linear 3).comp hk)

theorem timesTwo_linear : XorLinear timesTwo := timesThree_linear.xor id

theorem ftColumn_linear : XorLinear ftColumn := by
  rw [funext ftColumn_eq]
  exact word_linear timesTwo_linear id id (timesTwo_linear.xor id)

theorem itColumn_linear : XorLinear itColumn := by
  have h4 := timesTwo_linear.comp timesTwo_linear
  have h8 := timesTwo_linear.comp h4
  rw [funext itColumn_eq]
  exact word_linear ((h8.xor h4).xor timesTwo_linear) (h8.xor id) ((h8.xor h4).xor id)
    ((h8.xor timesTwo_linear).xor id)

/-- A word and its shift have no bit in common where their masks have none. -/
theorem and_shiftLeft_eq_zero {m : u4byte} {s : Nat} (h : m &&& m <<< s = 0) {x : u4byte}
    (hx : x &&& m = x) : x &&& x <<< s = 0 := by
  have hsplit : (x &&& m) &&& (x &&& m) <<< s = (x &&& x <<< s) &&& (m &&& m <<< s) := by
    rw [BitVec.shiftLeft_and_distrib]
    ac_rfl
  rw [hx, h] at hsplit
  rw [hsplit]
  exact BitVec.and_zero

/-- **The product in `star_x`** has no carry. -/
theorem mul_eq_xor {y : u4byte} (hy : y &&& 0x01010101#32 = y) :
    y * 0x1b#32 = y ^^^ y <<< 1 ^^^ (y ^^^ y <<< 1) <<< 3 := by
  have h27 : 0x1b#32 = (1#32 + 2#32) + (1#32 + 2#32) * 8#32 := by decide
  have htwo : BitVec.twoPow 32 1 = 2#32 := by decide
  have height : BitVec.twoPow 32 3 = 8#32 := by decide
  have hthree : y + y <<< 1 = y ^^^ y <<< 1 :=
    BitVec.add_eq_xor_of_and_eq_zero (and_shiftLeft_eq_zero (by decide) hy)
  have hmask : (y ^^^ y <<< 1) &&& 0x03030303#32 = y ^^^ y <<< 1 := by
    have hand : (y ^^^ y <<< 1) &&& 0x03030303#32 =
        (y &&& 0x03030303#32) ^^^ (y <<< 1 &&& 0x03030303#32) := (id.and _) y (y <<< 1)
    have hlow : y &&& 0x03030303#32 = y := by
      rw [← hy, BitVec.and_assoc]
      congr 1
    have hhigh : y <<< 1 &&& 0x03030303#32 = y <<< 1 := by
      rw [← hy, BitVec.shiftLeft_and_distrib, BitVec.and_assoc]
      congr 1
    rw [hand, hlow, hhigh]
  have hsum : y * 0x1b#32 = (y + y <<< 1) + (y + y <<< 1) <<< 3 := by
    rw [BitVec.shiftLeft_eq_mul_twoPow, BitVec.shiftLeft_eq_mul_twoPow, htwo, height, h27,
      BitVec.mul_add, ← BitVec.mul_assoc, BitVec.mul_add, BitVec.mul_one]
  rw [hsum, hthree]
  exact BitVec.add_eq_xor_of_and_eq_zero (and_shiftLeft_eq_zero (by decide) hmask)

theorem starX_linear : XorLinear starX := by
  have hmask : XorLinear fun x : u4byte => (x &&& 0x80808080#32) >>> 7 :=
    (id.and _).ushiftRight 7
  have hthree : XorLinear fun x : u4byte =>
      (x &&& 0x80808080#32) >>> 7 ^^^ (x &&& 0x80808080#32) >>> 7 <<< 1 :=
    hmask.xor (hmask.shiftLeft 1)
  have h : starX = fun x : u4byte => ((x &&& 0x7f7f7f7f#32) <<< 1) ^^^
      ((x &&& 0x80808080#32) >>> 7 ^^^ (x &&& 0x80808080#32) >>> 7 <<< 1 ^^^
        ((x &&& 0x80808080#32) >>> 7 ^^^ (x &&& 0x80808080#32) >>> 7 <<< 1) <<< 3) := by
    funext x
    rw [starX, mul_eq_xor]
    rw [BitVec.ushiftRight_and_distrib, BitVec.and_assoc]
    congr 1
  rw [h]
  exact ((id.and _).shiftLeft 1).xor (hthree.xor (hthree.shiftLeft 3))

theorem imixCol_linear : XorLinear imixCol := by
  have hu : XorLinear starX := starX_linear
  have hv : XorLinear fun x => starX (starX x) := hu.comp hu
  have hw : XorLinear fun x => starX (starX (starX x)) := hu.comp hv
  have ht : XorLinear fun x => starX (starX (starX x)) ^^^ x := hw.xor id
  exact ((hu.xor hv).xor hw).xor
    ((((hu.xor ht).rotateRight 8).xor ((hv.xor ht).rotateRight 16)).xor (ht.rotateRight 24))

/-- The mixing of a column, as `f_rn` finds it in the tables. -/
def mixCol (x : u4byte) : u4byte :=
  (ftColumn (byte x 0)).rotateLeft (8 * 0) ^^^ (ftColumn (byte x 1)).rotateLeft (8 * 1) ^^^
    (ftColumn (byte x 2)).rotateLeft (8 * 2) ^^^ (ftColumn (byte x 3)).rotateLeft (8 * 3)

/-- The mixing of a column, as `i_rn` finds it in the tables. -/
def unmixCol (x : u4byte) : u4byte :=
  (itColumn (byte x 0)).rotateLeft (8 * 0) ^^^ (itColumn (byte x 1)).rotateLeft (8 * 1) ^^^
    (itColumn (byte x 2)).rotateLeft (8 * 2) ^^^ (itColumn (byte x 3)).rotateLeft (8 * 3)

/-- **`imix_col` undoes the mixing.** -/
theorem imixCol_mixCol (x : u4byte) : imixCol (mixCol x) = x := by
  have hcolumn : ∀ n, XorLinear fun x => (ftColumn (byte x n)).rotateLeft (8 * n) :=
    fun n => (ftColumn_linear.comp (byte_linear n)).rotateLeft (8 * n)
  have hmix : XorLinear mixCol :=
    (((hcolumn 0).xor (hcolumn 1)).xor (hcolumn 2)).xor (hcolumn 3)
  refine congrFun ((imixCol_linear.comp hmix).eq_of_twoPow id ?_) x
  simp only [mixCol, ftColumn_eq]
  decide

/-- **The tables of the decryption hold `imix_col`.** -/
theorem unmixCol_eq (x : u4byte) : unmixCol x = imixCol x := by
  have hcolumn : ∀ n, XorLinear fun x => (itColumn (byte x n)).rotateLeft (8 * n) :=
    fun n => (itColumn_linear.comp (byte_linear n)).rotateLeft (8 * n)
  have hmix : XorLinear unmixCol :=
    (((hcolumn 0).xor (hcolumn 1)).xor (hcolumn 2)).xor (hcolumn 3)
  refine congrFun (hmix.eq_of_twoPow imixCol_linear ?_) x
  simp only [unmixCol, itColumn_eq]
  decide

/-! ## The cipher -/

def addWords (b k : State) : State := Vector.ofFn fun n => b.get n ^^^ k.get n

def substitute (b : State) : State := Vector.ofFn fun n =>
  word (sbx (byte (b.get n) 0)) (sbx (byte (b.after n 1) 1)) (sbx (byte (b.after n 2) 2))
    (sbx (byte (b.after n 3) 3))

def substituteBack (b : State) : State := Vector.ofFn fun n =>
  word (isb (byte (b.get n) 0)) (isb (byte (b.after n 3) 1)) (isb (byte (b.after n 2) 2))
    (isb (byte (b.after n 1) 3))

theorem State.after_eq (b : State) (n : Fin 4) :
    b.after n 1 = b.get (n + 1) ∧ b.after n 2 = b.get (n + 2) ∧ b.after n 3 = b.get (n + 3) :=
  ⟨rfl, rfl, rfl⟩

theorem State.get_ofFn (f : Fin 4 → u4byte) (n : Fin 4) : (Vector.ofFn f).get n = f n :=
  Vector.getElem_ofFn n.isLt

theorem State.ext {a b : State} (h : ∀ n, a.get n = b.get n) : a = b :=
  Vector.ext fun i hi => h ⟨i, hi⟩

/-- The cipher of `RIJNDAEL.CPP`, without its tables. -/
def cipher : KeyAlternating State where
  add := addWords
  sub := substitute
  subInv := substituteBack
  mix b := Vector.ofFn fun n => mixCol (b.get n)
  mixInv b := Vector.ofFn fun n => imixCol (b.get n)
  add_add_cancel a k := State.ext fun n => by
    simp only [addWords, State.get_ofFn]
    rw [BitVec.xor_assoc, BitVec.xor_self, BitVec.xor_zero]
  subInv_sub a := State.ext fun n => by
    have hback : ∀ n : Fin 4, n + 3 + 1 = n ∧ n + 2 + 2 = n ∧ n + 1 + 3 = n := by decide
    obtain ⟨h1, h2, h3⟩ := hback n
    simp only [substitute, substituteBack, (State.after_eq _ _).1, (State.after_eq _ _).2.1,
      (State.after_eq _ _).2.2, State.get_ofFn, byte_word.1, byte_word.2.1, byte_word.2.2.1,
      byte_word.2.2.2, isb_sbx, h1, h2, h3, word_byte]
  mixInv_mix a := State.ext fun n => by
    simp only [State.get_ofFn, imixCol_mixCol]
  mixInv_add a b := State.ext fun n => by
    simp only [addWords, State.get_ofFn]
    exact imixCol_linear _ _

def roundKey (e : Vector u4byte 64) (k : Nat) : State := Vector.ofFn fun n => e.getD (k + n) 0

/-- The keys of `m` rounds, from word `kp` of the schedule on. -/
def roundKeys (e : Vector u4byte 64) (kp : Nat) : Nat → List State
  | 0 => []
  | m + 1 => roundKey e kp :: roundKeys e (kp + 4) m

theorem roundKeys_add (e : Vector u4byte 64) (m' : Nat) : ∀ m kp,
    roundKeys e kp (m + m') = roundKeys e kp m ++ roundKeys e (kp + 4 * m) m'
  | 0, kp => by rw [Nat.zero_add]; rfl
  | m + 1, kp => by
    have hkp : kp + 4 + 4 * m = kp + 4 * (m + 1) := by omega
    rw [Nat.add_right_comm, roundKeys, roundKeys_add e m' m (kp + 4),
      roundKeys, List.cons_append, hkp]

theorem fRn_eq (b : State) (e : Vector u4byte 64) (kp : Nat) :
    (Vector.ofFn fun n => fRn b n (e.getD (kp + n) 0)) = cipher.round b (roundKey e kp) := by
  refine State.ext fun n => ?_
  simp only [KeyAlternating.round, cipher, addWords, roundKey, substitute, State.get_ofFn, mixCol,
    byte_word.1, byte_word.2.1, byte_word.2.2.1, byte_word.2.2.2]
  rfl

theorem fRl_eq (b : State) (e : Vector u4byte 64) (kp : Nat) :
    (Vector.ofFn fun n => fRl b n (e.getD (kp + n) 0)) =
      cipher.add (cipher.sub b) (roundKey e kp) := by
  refine State.ext fun n => ?_
  simp only [cipher, addWords, roundKey, substitute, State.get_ofFn]
  rfl

theorem iRl_eq (b : State) (d : Vector u4byte 64) (kp : Nat) :
    (Vector.ofFn fun n => iRl b n (d.getD (kp + n) 0)) =
      cipher.add (cipher.subInv b) (roundKey d kp) := by
  refine State.ext fun n => ?_
  simp only [cipher, addWords, roundKey, substituteBack, State.get_ofFn]
  rfl

/-- **A round of the decryption** adds what `imix_col` makes of the key. -/
theorem iRn_eq (b : State) {d e : Vector u4byte 64} {k : Nat}
    (hd : ∀ n < 4, d.getD (k + n) 0 = imixCol (e.getD (k + n) 0)) :
    (Vector.ofFn fun n => iRn b n (d.getD (k + n) 0)) = cipher.roundInv b (roundKey e k) := by
  refine State.ext fun n => ?_
  simp only [KeyAlternating.roundInv, cipher, addWords, roundKey, substituteBack, State.get_ofFn,
    ← unmixCol_eq, unmixCol, byte_word.1, byte_word.2.1, byte_word.2.2.1, byte_word.2.2.2]
  rw [hd n n.isLt, ← unmixCol_eq]
  rfl

/-! ## Encryption and decryption -/

theorem fNrounds_eq (e : Vector u4byte 64) : ∀ (m : Nat) (b : State) (kp : Nat),
    fNrounds e m (b, kp) = ((roundKeys e kp m).foldl cipher.round b, kp + 4 * m)
  | 0, _, _ => rfl
  | m + 1, b, kp => by
    have hkp : kp + 4 + 4 * m = kp + 4 * (m + 1) := by omega
    rw [fNrounds, fRn_eq, fNrounds_eq e m, roundKeys, List.foldl_cons, hkp]

theorem iNrounds_eq {d e : Vector u4byte 64} {kp : Nat} : ∀ (m : Nat) (b : State),
    (∀ i, kp + 4 ≤ i → i < kp + 4 + 4 * m → d.getD i 0 = imixCol (e.getD i 0)) →
    iNrounds d m (b, kp + 4 * m) = ((roundKeys e (kp + 4) m).reverse.foldl cipher.roundInv b, kp)
  | 0, _, _ => rfl
  | m + 1, b, hd => by
    have hkp : kp + 4 * (m + 1) = kp + 4 + 4 * m := by omega
    have hback : kp + 4 + 4 * m - 4 = kp + 4 * m := by omega
    have hround := iRn_eq b (d := d) (e := e) (k := kp + 4 + 4 * m) fun n hn =>
      hd _ (by omega) (by omega)
    rw [iNrounds, hkp, hround, hback, iNrounds_eq m _ fun i hi hlt => hd i hi (by omega),
      roundKeys_add e 1 m (kp + 4), List.reverse_append]
    rfl

def words (blk : List UInt8) : State := Vector.ofFn fun n => u4byteIn (blk.drop (4 * n))

theorem blockIn_eq (blk : List UInt8) (e : Vector u4byte 64) (k : Nat) :
    blockIn blk e k = cipher.add (words blk) (roundKey e k) := by
  refine State.ext fun n => ?_
  simp only [blockIn, cipher, addWords, words, roundKey, State.get_ofFn]

theorem length_u4byteOut (x : u4byte) : (u4byteOut x).length = 4 := length_toLE 4 _

theorem blockOut_eq (b : State) : blockOut b =
    u4byteOut (b.get 0) ++ u4byteOut (b.get 1) ++ u4byteOut (b.get 2) ++ u4byteOut (b.get 3) := by
  rw [List.append_assoc, List.append_assoc, ← List.append_nil (u4byteOut (b.get 3))]
  rfl

theorem length_blockOut (b : State) : (blockOut b).length = 16 := by
  simp only [blockOut_eq, List.length_append, length_u4byteOut]

theorem u4byteIn_out (x : u4byte) (rest : List UInt8) : u4byteIn (u4byteOut x ++ rest) = x := by
  rw [u4byteIn, List.take_left' (length_u4byteOut x), u4byteOut, ofLE_toLE_of_lt x.isLt,
    BitVec.ofNat_toNat, BitVec.setWidth_eq]

theorem u4byteOut_in {l : List UInt8} (h : 4 ≤ l.length) : u4byteOut (u4byteIn l) = l.take 4 := by
  have hlen : (l.take 4).length = 4 := List.length_take_of_le h
  have hlt : ofLE (l.take 4) < 2 ^ 32 := by
    have := ofLE_lt (l.take 4)
    rwa [hlen] at this
  rw [u4byteOut, u4byteIn, BitVec.toNat_ofNat, Nat.mod_eq_of_lt hlt]
  have hback := toLE_ofLE (l.take 4)
  rwa [hlen] at hback

theorem words_blockOut (b : State) : words (blockOut b) = b := by
  have h0 : (u4byteOut (b.get 0)).length = 4 := length_u4byteOut _
  have h1 : (u4byteOut (b.get 0) ++ u4byteOut (b.get 1)).length = 8 := by
    rw [List.length_append, length_u4byteOut, length_u4byteOut]
  have h2 : (u4byteOut (b.get 0) ++ u4byteOut (b.get 1) ++ u4byteOut (b.get 2)).length = 12 := by
    rw [List.length_append, h1, length_u4byteOut]
  refine State.ext fun n => ?_
  rw [words, State.get_ofFn]
  match n with
  | 0 =>
    rw [blockOut_eq, List.append_assoc, List.append_assoc]
    exact u4byteIn_out _ _
  | 1 =>
    show u4byteIn ((blockOut b).drop 4) = b.get 1
    rw [blockOut_eq, List.append_assoc, List.append_assoc, List.drop_left' h0]
    exact u4byteIn_out _ _
  | 2 =>
    show u4byteIn ((blockOut b).drop 8) = b.get 2
    rw [blockOut_eq, List.append_assoc, List.drop_left' h1]
    exact u4byteIn_out _ _
  | 3 =>
    show u4byteIn ((blockOut b).drop 12) = b.get 3
    rw [blockOut_eq, List.drop_left' h2, ← List.append_nil (u4byteOut (b.get 3))]
    exact u4byteIn_out _ _

theorem blockOut_words {blk : List UInt8} (h : blk.length = 16) : blockOut (words blk) = blk := by
  have hword : ∀ n : Fin 4, u4byteOut ((words blk).get n) = (blk.drop (4 * n)).take 4 := by
    intro n
    rw [words, State.get_ofFn, u4byteOut_in]
    rw [List.length_drop, h]
    omega
  have hlast : (blk.drop 12).take 4 = blk.drop 12 := by
    rw [List.take_of_length_le (by rw [List.length_drop, h])]
  have htwo : ∀ k, (blk.drop k).take 4 ++ blk.drop (k + 4) = blk.drop k := fun k => by
    rw [← List.drop_drop, List.take_append_drop]
  rw [blockOut_eq, hword, hword, hword, hword, List.append_assoc, List.append_assoc]
  show (blk.drop 0).take 4 ++ ((blk.drop 4).take 4 ++ ((blk.drop 8).take 4 ++
    (blk.drop 12).take 4)) = blk
  rw [hlast, htwo 8, htwo 4, htwo 0, List.drop_zero]

theorem getD_foldl_setIfInBounds {m : Nat} (f : Nat → u4byte) : ∀ (ns : List Nat)
    (d : Vector u4byte m) {j : Nat}, j < m →
    (ns.foldl (fun d i => d.setIfInBounds i (f i)) d).getD j 0 =
      if j ∈ ns then f j else d.getD j 0
  | [], d, j, _ => rfl
  | n :: ns, d, j, hj => by
    have hset : (d.setIfInBounds n (f n)).getD j 0 = if n = j then f j else d.getD j 0 := by
      simp only [Vector.getD, Vector.toArray_setIfInBounds, Array.getD_eq_getD_getElem?,
        Array.getElem?_setIfInBounds]
      split_ifs with hnj hroom
      · rw [hnj]
        rfl
      · exact absurd (by rw [Vector.size_toArray]; omega) hroom
      · rfl
    rw [List.foldl_cons, getD_foldl_setIfInBounds f ns _ hj, hset]
    by_cases hmem : j ∈ ns
    · rw [if_pos hmem, if_pos (List.mem_cons_of_mem n hmem)]
    · by_cases hnj : n = j
      · rw [if_neg hmem, if_pos hnj, if_pos (hnj ▸ List.mem_cons_self)]
      · rw [if_neg hmem, if_neg hnj, if_neg]
        exact fun h => (List.mem_cons.mp h).elim (fun h => hnj h.symm) hmem

namespace AESCryptor

variable {c : AESCryptor}

/-- The schedules of an object whose key has been set. -/
structure Keyed (c : AESCryptor) : Prop where
  kLen : c.kLen = 4 ∨ c.kLen = 6 ∨ c.kLen = 8
  first : ∀ i < 4, c.dKey.getD i 0 = c.eKey.getD i 0
  mixed : ∀ i, 4 ≤ i → i < 4 * c.kLen + 24 → c.dKey.getD i 0 = imixCol (c.eKey.getD i 0)

/-- **`set_key`** with a key of 128, 192 or 256 bits, whatever was in the object. -/
theorem keyed_setKey (c : AESCryptor) (inKey : List UInt8) {keyLen : Nat}
    (h : keyLen = 128 ∨ keyLen = 192 ∨ keyLen = 256) : (c.setKey inKey keyLen).Keyed where
  kLen := by
    have hlen : ∀ k, (c.setKey inKey k).kLen = (k + 31) / 32 := fun _ => rfl
    rw [hlen]
    rcases h with rfl | rfl | rfl <;> decide
  first i hi := by
    rw [setKey]
    dsimp only
    rw [getD_foldl_setIfInBounds _ _ _ (by omega), if_neg,
      getD_foldl_setIfInBounds _ _ _ (by omega), if_pos]
    · have : i = 0 ∨ i = 1 ∨ i = 2 ∨ i = 3 := by omega
      simpa using this
    · rw [List.mem_range'_1]
      omega
  mixed i hi hlt := by
    have hlen : (c.setKey inKey keyLen).kLen = (keyLen + 31) / 32 := rfl
    have hle : (keyLen + 31) / 32 ≤ 8 := by
      rcases h with rfl | rfl | rfl <;> decide
    rw [hlen] at hlt
    rw [setKey]
    dsimp only
    rw [getD_foldl_setIfInBounds _ _ _ (by omega), if_pos]
    rw [List.mem_range'_1]
    omega

theorem Keyed.encrypt_eq (h : c.Keyed) (blk : List UInt8) : c.encrypt blk =
    blockOut (cipher.encrypt (roundKey c.eKey 0) (roundKeys c.eKey 4 (c.kLen + 5))
      (roundKey c.eKey (4 * c.kLen + 24)) (words blk)) := by
  have hrounds : ∀ m m' s,
      fNrounds c.eKey m' (fNrounds c.eKey m s) = fNrounds c.eKey (m + m') s := by
    intro m m' s
    rw [fNrounds_eq, fNrounds_eq, fNrounds_eq, roundKeys_add, List.foldl_append, Nat.mul_add,
      Nat.add_assoc]
  have hall : fNrounds c.eKey 9 (if 4 < c.kLen then fNrounds c.eKey 2
        (if 6 < c.kLen then fNrounds c.eKey 2 (blockIn blk c.eKey 0, 4)
          else (blockIn blk c.eKey 0, 4))
      else if 6 < c.kLen then fNrounds c.eKey 2 (blockIn blk c.eKey 0, 4)
        else (blockIn blk c.eKey 0, 4)) =
      fNrounds c.eKey (c.kLen + 5) (blockIn blk c.eKey 0, 4) := by
    rcases h.kLen with hk | hk | hk <;> simp [hk, hrounds]
  have hlast : 4 + 4 * (c.kLen + 5) = 4 * c.kLen + 24 := by omega
  have hdef : c.encrypt blk = (fun s : State × Nat => blockOut (Vector.ofFn fun n =>
      fRl s.1 n (c.eKey.getD (s.2 + n) 0))) (fNrounds c.eKey (c.kLen + 5)
        (blockIn blk c.eKey 0, 4)) := by
    rw [← hall]
    rfl
  rw [hdef, fNrounds_eq]
  dsimp only
  rw [fRl_eq, blockIn_eq, hlast, KeyAlternating.encrypt]

theorem Keyed.decrypt_eq (h : c.Keyed) (blk : List UInt8) : c.decrypt blk =
    blockOut (cipher.decrypt (roundKey c.eKey 0) (roundKeys c.eKey 4 (c.kLen + 5))
      (roundKey c.eKey (4 * c.kLen + 24)) (words blk)) := by
  have hrounds : ∀ m m' s,
      iNrounds c.dKey m' (iNrounds c.dKey m s) = iNrounds c.dKey (m + m') s := by
    intro m m' s
    induction m generalizing s with
    | zero => rw [Nat.zero_add]; rfl
    | succ m ih =>
      obtain ⟨b, kp⟩ := s
      rw [Nat.add_right_comm, iNrounds, iNrounds, ih]
  have hall : iNrounds c.dKey 9 (if 4 < c.kLen then iNrounds c.dKey 2
        (if 6 < c.kLen then
            iNrounds c.dKey 2 (blockIn blk c.eKey (4 * c.kLen + 24), 4 * (c.kLen + 5))
          else (blockIn blk c.eKey (4 * c.kLen + 24), 4 * (c.kLen + 5)))
      else if 6 < c.kLen then
          iNrounds c.dKey 2 (blockIn blk c.eKey (4 * c.kLen + 24), 4 * (c.kLen + 5))
        else (blockIn blk c.eKey (4 * c.kLen + 24), 4 * (c.kLen + 5))) =
      iNrounds c.dKey (c.kLen + 5)
        (blockIn blk c.eKey (4 * c.kLen + 24), 0 + 4 * (c.kLen + 5)) := by
    rw [Nat.zero_add]
    rcases h.kLen with hk | hk | hk <;> simp [hk, hrounds]
  have hfirst : roundKey c.dKey 0 = roundKey c.eKey 0 := State.ext fun n => by
    rw [roundKey, roundKey, State.get_ofFn, State.get_ofFn, Nat.zero_add]
    exact h.first n n.isLt
  have hdef : c.decrypt blk = (fun s : State × Nat => blockOut (Vector.ofFn fun n =>
      iRl s.1 n (c.dKey.getD (s.2 + n) 0))) (iNrounds c.dKey (c.kLen + 5)
        (blockIn blk c.eKey (4 * c.kLen + 24), 0 + 4 * (c.kLen + 5))) := by
    rw [← hall]
    rfl
  rw [hdef, iNrounds_eq (e := c.eKey) _ _ fun i hi hlt => h.mixed i (by omega) (by omega)]
  dsimp only
  rw [iRl_eq, blockIn_eq, hfirst, KeyAlternating.decrypt]

theorem Keyed.undoes (h : c.Keyed) {blk : List UInt8} (hblk : blk.length = 16) :
    c.decrypt (c.encrypt blk) = blk := by
  rw [h.decrypt_eq, h.encrypt_eq, words_blockOut, cipher.undoes, blockOut_words hblk]

/-- **Decryption undoes encryption**: for every key of 128, 192 or 256 bits and every block,
whatever was in the object before. -/
theorem decrypt_encrypt (c : AESCryptor) (inKey : List UInt8) {keyLen : Nat}
    (h : keyLen = 128 ∨ keyLen = 192 ∨ keyLen = 256) {blk : List UInt8} (hblk : blk.length = 16) :
    (c.setKey inKey keyLen).decrypt ((c.setKey inKey keyLen).encrypt blk) = blk :=
  (c.keyed_setKey inKey h).undoes hblk

end AESCryptor

/-! ## The encrypted files -/

/-- What `set_key` with a key of 256 bits, `encrypt` and `decrypt` make of a block, in an object
with any contents. -/
def aes (c : AESCryptor) : E3D.AESCryptor where
  encrypt key blk := (c.setKey key 256).encrypt blk
  decrypt key blk := (c.setKey key 256).decrypt blk
  encrypt_length _ _ _ := length_blockOut _
  decrypt_length _ _ _ := length_blockOut _

theorem inverts (c : AESCryptor) (key : List UInt8) : (aes c).Inverts key := fun _ hb =>
  (c.keyed_setKey key (.inr (.inr rfl))).undoes hb

open E3D Machine Runs in
/-- **With the program's own cipher**, whatever the memory of its object holds, the encrypted file
of a source that is not empty reads like the source, under every key. -/
theorem encodeFile_reads (c : AESCryptor) (key source sourceHash : List UInt8) (hne : source ≠ [])
    (hsize : source.length < 2 ^ 63) (hhash : sourceHash.length = 20) (cb : Option Progress)
    (hcb : ∀ f ∈ cb, ∀ type para1 para2, f type para1 para2 = true) (r₀ : FileReader)
    (fuel : Nat) (hfuel : 6 ≤ fuel) :
    ∃ r, FileReader.setFile fuel r₀ ⟨encodeFile (aes c) source key sourceHash cb, 0⟩ = some r ∧
      ∀ ops, Along (fun f op => (plainStep f op).1) InsideFile ⟨source, 0⟩ ops →
        replies (FileReader.step (aes c)) (r.setKey (aes c) key) ops =
          replies plainStep ⟨source, 0⟩ ops := by
  obtain ⟨r, v, hset, hmirrors⟩ := mirrors_setKey (aes c) key hcb hne hsize hhash r₀ hfuel
  refine ⟨r, hset, fun ops hops => ?_⟩
  exact (simulates (fun r f op hm hop => hm.step (inverts c key) hop) ops _ _ hmirrors hops).1

def untouched : AESCryptor := ⟨0, Vector.replicate 64 0, Vector.replicate 64 0⟩

/-- The zero block under the zero key of 128 bits. -/
theorem decrypt_encrypt_zero :
    (untouched.setKey (List.replicate 16 0) 128).decrypt
      ((untouched.setKey (List.replicate 16 0) 128).encrypt (List.replicate 16 0)) =
        List.replicate 16 0 :=
  untouched.decrypt_encrypt (List.replicate 16 0) (.inl rfl) List.length_replicate

open E3D Machine Runs in
/-- Three bytes, in three reads. -/
theorem encodeFile_reads_three :
    ∃ r, FileReader.setFile 6 freshReader ⟨encodeFile (aes untouched) [10, 20, 30]
        (List.replicate 32 0) (List.replicate 20 0) none, 0⟩ = some r ∧
      replies (FileReader.step (aes untouched)) (r.setKey (aes untouched) (List.replicate 32 0))
          [.getFileSize, .read 1, .seek 1 .SEEK_CUR, .read 5, .seek 1 .SEEK_SET, .read 2] =
        [.size 3, .bytes (some [10]), .moved (some 2), .bytes (some [30]), .moved (some 1),
          .bytes (some [20, 30])] := by
  obtain ⟨r, hset, hread⟩ := encodeFile_reads untouched (List.replicate 32 0) [10, 20, 30]
    (List.replicate 20 0) (by decide) (by decide) List.length_replicate none
    (fun f hf => absurd hf (Option.not_mem_none f)) freshReader 6 (le_refl 6)
  refine ⟨r, hset, (hread _ ?_).trans (by decide)⟩
  simp only [along_cons, along_nil, InsideFile, plainStep]
  decide

end DWindow.Rijndael
