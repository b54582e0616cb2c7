import DWindow.Checksum.Video
import DWindow.Lib.Blocks
import DWindow.Lib.XorLinear

/-!
# SHA-1 in pieces

`SHA1_Hash` of `SHA1.cpp` keeps a block in `wbuf` and transforms it when it is full, and
`SHA1_Finish` pads what is left there, word by word in the order of the machine's memory.
However a message is cut into calls, the digest is the one of the message: the transforms of
the blocks of the message, a one bit, zeros and the length (`finish_foldl_update`).

So `SHA1Hash` and `sha1_file`, which reads a file piece by piece, agree (`SHA1Hash_eq`,
`sha1File_eq`).
-/

namespace DWindow.Checksum

open Blocks Buffer LittleEndian XorLinear

abbrev UINT := BitVec 32

def rotate32 (x : UINT) (n : Nat) : UINT := x.rotateLeft n

/-- `SHA_BLOCK32`, on a machine with the low byte first. -/
def shaBlock32 (x : UINT) : UINT :=
  (rotate32 x 8 &&& 0x00ff00ff#32) ||| (rotate32 x 24 &&& 0xff00ff00#32)

def f0to19 (x y z : UINT) : UINT := (x &&& y) ^^^ (~~~x &&& z)
def f20to39 (x y z : UINT) : UINT := x ^^^ y ^^^ z
def f40to59 (x y z : UINT) : UINT := (x &&& y) ^^^ (x &&& z) ^^^ (y &&& z)
def f60to79 (x y z : UINT) : UINT := f20to39 x y z

/-- `a` to `e`, and the `hash` they are added to. -/
structure Registers where
  a : UINT
  b : UINT
  c : UINT
  d : UINT
  e : UINT
deriving DecidableEq

namespace Registers

protected def add (r s : Registers) : Registers :=
  ⟨r.a + s.a, r.b + s.b, r.c + s.c, r.d + s.d, r.e + s.e⟩

def toList (r : Registers) : List UINT := [r.a, r.b, r.c, r.d, r.e]

end Registers

/-- `SHA1_STATETYPE`, with the bytes of `wbuf`. -/
structure SHA1_STATETYPE where
  wbuf : List UInt8
  hash : Registers
  count0 : UINT
  count1 : UINT

/-- `wbuf[i]`. -/
def getWord (wbuf : List UInt8) (i : Nat) : UINT := BitVec.ofNat 32 (ofLE (window wbuf (4 * i) 4))

/-- `wbuf[i] = x`. -/
def setWord (wbuf : List UInt8) (i : Nat) (x : UINT) : List UInt8 :=
  writeAt wbuf (4 * i) (toLE 4 x.toNat)

/-- The array `w` of a transform. -/
def schedule (wbuf : List UInt8) : List UINT :=
  (List.range' 16 64).foldl
    (fun w i => w ++ [rotate32 (w.getD (i - 3) 0 ^^^ w.getD (i - 8) 0 ^^^ w.getD (i - 14) 0 ^^^
      w.getD (i - 16) 0) 1])
    ((List.range 16).map fun i => shaBlock32 (getWord wbuf i))

def shaRound (w : List UINT) (func : UINT → UINT → UINT → UINT) (k : UINT) (r : Registers)
    (i : Nat) : Registers where
  a := rotate32 r.a 5 + func r.b r.c r.d + r.e + k + w.getD i 0
  b := r.a
  c := rotate32 r.b 30
  d := r.c
  e := r.d

/-- The hash that the transform of a block leaves. -/
def compress (hash : Registers) (block : List UInt8) : Registers :=
  let w := schedule block
  let r := (List.range' 0 20).foldl (shaRound w f0to19 0x5a827999#32) hash
  let r := (List.range' 20 20).foldl (shaRound w f20to39 0x6ed9eba1#32) r
  let r := (List.range' 40 20).foldl (shaRound w f40to59 0x8f1bbcdc#32) r
  let r := (List.range' 60 20).foldl (shaRound w f60to79 0xca62c1d6#32) r
  hash.add r

/-- The `hash` that `SHA1_Start` sets. -/
def initialHash : Registers :=
  ⟨0x67452301#32, 0xefcdab89#32, 0x98badcfe#32, 0x10325476#32, 0xc3d2e1f0#32⟩

/-- The bytes that `SHA1_Finish` takes from the hash. -/
def digest (hash : Registers) : List UInt8 :=
  (List.range 20).map fun i =>
    UInt8.ofNat ((hash.toList.getD (i / 4) 0).ushiftRight (8 * (3 - i % 4))).toNat

/-- The length that `SHA1_Finish` writes into the last two words. -/
def lengthWords (wbuf : List UInt8) (count0 count1 : UINT) : List UInt8 :=
  setWord
    (setWord wbuf 14 (shaBlock32 (count1.shiftLeft 3 ||| count0.ushiftRight 29)))
    15 (shaBlock32 (count0.shiftLeft 3))

def shaMask (i : Nat) : UINT :=
  [0x00000000#32, 0x000000ff#32, 0x0000ffff#32, 0x00ffffff#32].getD i 0

def shaBits (i : Nat) : UINT :=
  [0x00000080#32, 0x00008000#32, 0x00800000#32, 0x80000000#32].getD i 0

/-- The zeros that `SHA1_Finish` writes from word `i` on. -/
def zeroWords (wbuf : List UInt8) (i : Nat) : List UInt8 :=
  (List.range' i (14 - i)).foldl (fun wbuf i => setWord wbuf i 0) wbuf

namespace SHA1_STATETYPE

/-- `SHA1_Transform`. -/
def transform (s : SHA1_STATETYPE) : SHA1_STATETYPE := { s with hash := compress s.hash s.wbuf }

/-- `SHA1_Start`. -/
def start (s : SHA1_STATETYPE) : SHA1_STATETYPE :=
  { s with hash := initialHash, count0 := 0, count1 := 0 }

/-- The loop of `SHA1_Hash`, from place `ipos` on. -/
def hashLoop : Nat → Nat → List UInt8 → SHA1_STATETYPE → SHA1_STATETYPE
  | 0, _, _, s => s
  | fuel + 1, ipos, data, s =>
    let ispace := 64 - ipos
    if ispace ≤ data.length then
      hashLoop fuel 0 (data.drop ispace)
        { s with wbuf := writeAt s.wbuf ipos (data.take ispace) }.transform
    else { s with wbuf := writeAt s.wbuf ipos data }

/-- The length, with the carry of `SHA1_Hash`. -/
def addCount (s : SHA1_STATETYPE) (size : UINT) : SHA1_STATETYPE :=
  { s with
    count0 := s.count0 + size
    count1 := if s.count0 + size < size then s.count1 + 1#32 else s.count1 }

/-- `SHA1_Hash`. -/
def update (s : SHA1_STATETYPE) (data : List UInt8) : SHA1_STATETYPE :=
  hashLoop (data.length + 1) (s.count0 &&& 63#32).toNat data
    (s.addCount (BitVec.ofNat 32 data.length))

/-- `SHA1_Finish` up to the length: the one bit at place `i`, and zeros. -/
def pad (s : SHA1_STATETYPE) (i : Nat) : SHA1_STATETYPE :=
  let s := { s with
    wbuf := setWord s.wbuf (i / 4)
      (getWord s.wbuf (i / 4) &&& shaMask (i % 4) ||| shaBits (i % 4)) }
  if 64 - 9 < i then
    let s := (if i < 60 then { s with wbuf := setWord s.wbuf 15 0 } else s).transform
    { s with wbuf := zeroWords s.wbuf 0 }
  else { s with wbuf := zeroWords s.wbuf (i / 4 + 1) }

/-- `SHA1_Finish`: the twenty bytes. -/
def finish (s : SHA1_STATETYPE) : List UInt8 :=
  let s := s.pad (s.count0 &&& 63#32).toNat
  digest { s with wbuf := lengthWords s.wbuf s.count0 s.count1 }.transform.hash

end SHA1_STATETYPE

/-- The state that `SHA1Hash` and `sha1_file` clear. -/
def cleared : SHA1_STATETYPE := ⟨List.replicate 64 0, ⟨0, 0, 0, 0, 0⟩, 0, 0⟩

def SHA1Hash (data : List UInt8) : List UInt8 := (cleared.start.update data).finish

/-- The loop of `sha1_file`: what `fread` returns is the next 32768 bytes, or what is left. -/
def sha1FileLoop : Nat → List UInt8 → SHA1_STATETYPE → SHA1_STATETYPE
  | 0, _, s => s
  | fuel + 1, rest, s =>
    let buf := rest.take 32768
    if 0 < buf.length then sha1FileLoop fuel (rest.drop 32768) (s.update buf) else s

def sha1File (file : List UInt8) : List UInt8 :=
  (sha1FileLoop (file.length + 1) file cleared.start).finish

/-! ## The message -/

/-- What stands behind a message of `n` bytes: a one bit, zeros, and the length in bits. -/
def padding (n : Nat) : List UInt8 :=
  128 :: List.replicate ((119 - n % 64) % 64) 0 ++ (toLE 8 (8 * n)).reverse

def sha1 (m : List UInt8) : List UInt8 :=
  digest (absorb 64 compress initialHash (m ++ padding m.length)).1

example : SHA1Hash [97, 98, 99] =
    [0xa9, 0x99, 0x3e, 0x36, 0x47, 0x06, 0x81, 0x6a, 0xba, 0x3e,
      0x25, 0x71, 0x78, 0x50, 0xc2, 0x6c, 0x9c, 0xd0, 0xd8, 0x9d] := by
  decide +kernel

/-! ## Words -/

theorem setWord_eq (wbuf : List UInt8) (i : Nat) (x : UINT) :
    setWord wbuf i x = wbuf.take (4 * i) ++ toLE 4 x.toNat ++ wbuf.drop (4 * i + 4) := by
  rw [setWord, writeAt, length_toLE]

theorem shaMask_toNat {k : Nat} (hk : k < 4) : (shaMask k).toNat = 2 ^ (8 * k) - 1 := by
  obtain rfl | rfl | rfl | rfl : k = 0 ∨ k = 1 ∨ k = 2 ∨ k = 3 := by omega
  all_goals rfl

theorem shaBits_toNat {k : Nat} (hk : k < 4) : (shaBits k).toNat = 2 ^ (8 * k) * 128 := by
  obtain rfl | rfl | rfl | rfl : k = 0 ∨ k = 1 ∨ k = 2 ∨ k = 3 := by omega
  all_goals rfl

/-- **A marked word**: the bytes in front of the one bit stay, the others are cleared. -/
theorem toLE_mark {word : List UInt8} (hword : word.length = 4) {k : Nat} (hk : k < 4) :
    toLE 4 (BitVec.ofNat 32 (ofLE word) &&& shaMask k ||| shaBits k).toNat =
      word.take k ++ 128 :: List.replicate (3 - k) 0 := by
  have hpow : 2 ^ (8 * k) = 256 ^ k := Nat.pow_mul 2 8 k
  have hlt : ofLE word < 2 ^ 32 := by
    have := ofLE_lt word
    rwa [hword] at this
  have hlow : ofLE word % 2 ^ (8 * k) < 2 ^ (8 * k) := Nat.mod_lt _ (Nat.two_pow_pos _)
  have hmarked : (BitVec.ofNat 32 (ofLE word) &&& shaMask k ||| shaBits k).toNat =
      ofLE (word.take k ++ 128 :: List.replicate (3 - k) 0) := by
    rw [BitVec.toNat_or, BitVec.toNat_and, BitVec.toNat_ofNat, Nat.mod_eq_of_lt hlt,
      shaMask_toNat hk, shaBits_toNat hk, Nat.and_two_pow_sub_one_eq_mod, Nat.or_comm,
      ← Nat.two_pow_add_eq_or_of_lt hlow, ofLE_append, ofLE_take, ofLE, ofLE_replicate_zero,
      List.length_take, hword, min_eq_left (Nat.le_of_lt hk), hpow, Nat.add_comm]
    rfl
  have hlen : (word.take k ++ 128 :: List.replicate (3 - k) 0).length = 4 := by
    rw [List.length_append, List.length_take, List.length_cons, List.length_replicate, hword]
    omega
  have hbytes := toLE_ofLE (word.take k ++ 128 :: List.replicate (3 - k) 0)
  rwa [hlen, ← hmarked] at hbytes

theorem foldl_setWord_zero (wbuf : List UInt8) (i n : Nat) (h : 4 * (i + n) ≤ wbuf.length) :
    (List.range' i n).foldl (fun wbuf i => setWord wbuf i 0) wbuf =
      wbuf.take (4 * i) ++ List.replicate (4 * n) 0 ++ wbuf.drop (4 * (i + n)) := by
  induction n with
  | zero => simp
  | succ n ih =>
    have hlen : (wbuf.take (4 * i) ++ List.replicate (4 * n) (0 : UInt8)).length =
        4 * (i + n) := by
      rw [List.length_append, List.length_take, List.length_replicate]
      omega
    have hmore : List.replicate (4 * (n + 1)) (0 : UInt8) =
        List.replicate (4 * n) 0 ++ List.replicate 4 0 := by
      rw [← List.replicate_add, Nat.mul_succ]
    rw [List.range'_concat, List.foldl_append, ih (by omega), List.foldl_cons, List.foldl_nil,
      Nat.one_mul, setWord_eq, List.take_left' hlen, List.drop_append,
      List.drop_of_length_le (by omega), List.nil_append, List.drop_drop, hlen, hmore]
    have hdrop : 4 * (i + n) + (4 * (i + n) + 4 - 4 * (i + n)) = 4 * (i + (n + 1)) := by omega
    rw [hdrop, BitVec.ofNat_eq_ofNat, BitVec.toNat_ofNat, Nat.zero_mod, toLE_zero]
    simp only [List.append_assoc]

/-- The words up to the length are cleared from word `i` on. -/
theorem zeroWords_eq {wbuf : List UInt8} (hroom : wbuf.length = 64) {i : Nat} (hi : i ≤ 14) :
    (zeroWords wbuf i).length = 64 ∧
      (zeroWords wbuf i).take 56 = wbuf.take (4 * i) ++ List.replicate (56 - 4 * i) 0 := by
  have hcount : 4 * (14 - i) = 56 - 4 * i := by omega
  have hend : 4 * (i + (14 - i)) = 56 := by omega
  have hfront : (wbuf.take (4 * i) ++ List.replicate (56 - 4 * i) (0 : UInt8)).length = 56 := by
    rw [List.length_append, List.length_take, List.length_replicate]
    omega
  rw [zeroWords, foldl_setWord_zero wbuf i (14 - i) (by omega), hcount, hend]
  refine ⟨?_, List.take_left' hfront⟩
  rw [List.length_append, hfront, List.length_drop, hroom]

/-! ## The length -/

theorem xorLinear_shaBlock32 : XorLinear shaBlock32 := by
  have hxor : shaBlock32 = fun x =>
      (rotate32 x 8 &&& 0x00ff00ff#32) ^^^ (rotate32 x 24 &&& 0xff00ff00#32) := by
    funext x
    apply BitVec.or_eq_xor_of_and_eq_zero
    have hmasks : (0x00ff00ff#32 &&& 0xff00ff00#32) = 0#32 := by decide
    calc rotate32 x 8 &&& 0x00ff00ff#32 &&& (rotate32 x 24 &&& 0xff00ff00#32)
        = rotate32 x 8 &&& rotate32 x 24 &&& (0x00ff00ff#32 &&& 0xff00ff00#32) := by ac_rfl
      _ = 0#32 := by rw [hmasks, BitVec.and_zero]
  rw [hxor]
  exact ((XorLinear.id.rotateLeft 8).and _).xor ((XorLinear.id.rotateLeft 24).and _)

/-- Byte `k` of a word. -/
def byteOf (k : Nat) (x : UINT) : BitVec 8 := (x >>> (8 * k)).setWidth 8

theorem toLE_word (x : UINT) :
    toLE 4 x.toNat = (List.range 4).map fun k => UInt8.ofBitVec (byteOf k x) := by
  have hbyte : ∀ k, UInt8.ofBitVec (byteOf k x) = UInt8.ofNat (x.toNat / 2 ^ (8 * k)) := by
    intro k
    apply UInt8.toNat_inj.mp
    rw [UInt8.toNat_ofBitVec, byteOf, BitVec.toNat_setWidth, BitVec.toNat_ushiftRight,
      Nat.shiftRight_eq_div_pow, UInt8.toNat_ofNat']
  simp only [hbyte, toLE, List.range, List.range.loop, List.map_cons, List.map_nil,
    Nat.div_div_eq_div_mul]
  norm_num

/-- **`SHA_BLOCK32`** turns the bytes of a word around. -/
theorem toLE_shaBlock32 (x : UINT) : toLE 4 (shaBlock32 x).toNat = (toLE 4 x.toNat).reverse := by
  have hbyte : ∀ k < 4, byteOf k (shaBlock32 x) = byteOf (3 - k) x := by
    intro k hk
    have hlinear : ∀ j, XorLinear (byteOf j) := fun j => (XorLinear.id.ushiftRight _).setWidth _
    refine congrFun (((hlinear k).comp xorLinear_shaBlock32).eq_of_twoPow (hlinear (3 - k)) ?_) x
    revert k
    decide
  rw [toLE_word, toLE_word]
  simp only [List.range, List.range.loop, List.map_cons, List.map_nil, List.reverse_cons,
    List.reverse_nil, List.nil_append, List.cons_append]
  rw [hbyte 0 (by decide), hbyte 1 (by decide), hbyte 2 (by decide), hbyte 3 (by decide)]

/-- **The last two words** are the length in bits, high byte first. -/
theorem lengthWords_eq {wbuf : List UInt8} (hroom : wbuf.length = 64) (n : Nat) :
    lengthWords wbuf (BitVec.ofNat 32 n) (BitVec.ofNat 32 (n / 2 ^ 32)) =
      wbuf.take 56 ++ (toLE 8 (8 * n)).reverse := by
  have hlow : ((BitVec.ofNat 32 n).shiftLeft 3).toNat = 8 * n % 256 ^ 4 := by
    have := BitVec.toNat_shiftLeft (x := BitVec.ofNat 32 n) (n := 3)
    rw [BitVec.toNat_ofNat, Nat.shiftLeft_eq] at this
    refine this.trans ?_
    norm_num
    omega
  have hhigh : ((BitVec.ofNat 32 (n / 2 ^ 32)).shiftLeft 3 |||
      (BitVec.ofNat 32 n).ushiftRight 29).toNat = 8 * n / 256 ^ 4 % 256 ^ 4 := by
    have hleft : ((BitVec.ofNat 32 (n / 2 ^ 32)).shiftLeft 3).toNat =
        2 ^ 3 * (n / 2 ^ 32 % 2 ^ 29) := by
      have := BitVec.toNat_shiftLeft (x := BitVec.ofNat 32 (n / 2 ^ 32)) (n := 3)
      rw [BitVec.toNat_ofNat, Nat.shiftLeft_eq] at this
      refine this.trans ?_
      omega
    have hright : ((BitVec.ofNat 32 n).ushiftRight 29).toNat = n % 2 ^ 32 / 2 ^ 29 := by
      have := BitVec.toNat_ushiftRight (BitVec.ofNat 32 n) 29
      rwa [BitVec.toNat_ofNat, Nat.shiftRight_eq_div_pow] at this
    have hsmall : n % 2 ^ 32 / 2 ^ 29 < 2 ^ 3 := by omega
    rw [BitVec.toNat_or, hleft, hright, ← Nat.two_pow_add_eq_or_of_lt hsmall]
    norm_num
    omega
  have hfront : (wbuf.take 56 ++ (toLE 4 (8 * n / 256 ^ 4)).reverse).length = 60 := by
    rw [List.length_append, List.length_take, List.length_reverse, length_toLE, hroom]
    rfl
  have hend : (wbuf.take 56 ++ (toLE 4 (8 * n / 256 ^ 4)).reverse ++ wbuf.drop 60).drop 64 =
      [] := by
    apply List.drop_of_length_le
    rw [List.length_append, hfront, List.length_drop, hroom]
  rw [lengthWords, setWord_eq wbuf, toLE_shaBlock32, hhigh, toLE_mod, setWord_eq,
    toLE_shaBlock32, hlow, toLE_mod, List.take_left' hfront, hend, List.append_nil,
    toLE_add 4 4, List.reverse_append, List.append_assoc]

/-! ## Every cut of a message -/

namespace SHA1_STATETYPE

/-- The state behind the bytes `m`: the hash of their whole blocks, the bytes that are left at
the front of `wbuf`, and the length. -/
structure Represents (s : SHA1_STATETYPE) (m : List UInt8) : Prop where
  room : s.wbuf.length = 64
  hash : s.hash = (absorb 64 compress initialHash m).1
  held : s.wbuf.take (m.length % 64) = (absorb 64 compress initialHash m).2
  low : s.count0 = BitVec.ofNat 32 m.length
  high : s.count1 = BitVec.ofNat 32 (m.length / 2 ^ 32)

theorem Represents.place {s : SHA1_STATETYPE} {m : List UInt8} (h : Represents s m) :
    (s.count0 &&& 63#32).toNat = m.length % 64 := by
  have hmask : (63#32).toNat = 2 ^ 6 - 1 := rfl
  rw [h.low, BitVec.toNat_and, BitVec.toNat_ofNat, hmask, Nat.and_two_pow_sub_one_eq_mod]
  omega

theorem represents_start {s : SHA1_STATETYPE} (hroom : s.wbuf.length = 64) :
    Represents s.start [] where
  room := hroom
  hash := rfl
  held := rfl
  low := rfl
  high := rfl

/-- **The loop of `SHA1_Hash`** absorbs what stands in front of the place and the data. -/
theorem hashLoop_absorb : ∀ (fuel ipos : Nat) (data : List UInt8) (s : SHA1_STATETYPE),
    data.length < fuel → ipos < 64 → s.wbuf.length = 64 →
    (hashLoop fuel ipos data s).hash =
        (absorb 64 compress s.hash (s.wbuf.take ipos ++ data)).1 ∧
      (hashLoop fuel ipos data s).wbuf.length = 64 ∧
      (hashLoop fuel ipos data s).wbuf.take ((ipos + data.length) % 64) =
        (absorb 64 compress s.hash (s.wbuf.take ipos ++ data)).2 ∧
      (hashLoop fuel ipos data s).count0 = s.count0 ∧
      (hashLoop fuel ipos data s).count1 = s.count1 := by
  intro fuel
  induction fuel with
  | zero => intro ipos data s hfuel; exact absurd hfuel (Nat.not_lt_zero _)
  | succ fuel ih =>
    intro ipos data s hfuel hipos hroom
    have htake : (s.wbuf.take ipos).length = ipos := by
      rw [List.length_take]
      omega
    have hall : (s.wbuf.take ipos ++ data).length = ipos + data.length := by
      rw [List.length_append, htake]
    rw [hashLoop]
    by_cases hspace : 64 - ipos ≤ data.length
    · -- the block is full
      have hblock : writeAt s.wbuf ipos (data.take (64 - ipos)) =
          (s.wbuf.take ipos ++ data).take 64 := by
        have hlen : (data.take (64 - ipos)).length = 64 - ipos := by
          rw [List.length_take]
          omega
        rw [writeAt, hlen, List.drop_of_length_le (l := s.wbuf) (by omega), List.append_nil,
          List.take_append, htake, List.take_of_length_le (l := s.wbuf.take ipos) (by omega)]
      have hrest : data.drop (64 - ipos) = (s.wbuf.take ipos ++ data).drop 64 := by
        rw [List.drop_append, htake, List.drop_of_length_le (l := s.wbuf.take ipos) (by omega),
          List.nil_append]
      have hlen : (writeAt s.wbuf ipos (data.take (64 - ipos))).length = 64 := by
        rw [hblock, List.length_take]
        omega
      have hmod : (0 + (data.drop (64 - ipos)).length) % 64 = (ipos + data.length) % 64 := by
        rw [List.length_drop]
        omega
      have hnext := ih 0 (data.drop (64 - ipos))
        { s with wbuf := writeAt s.wbuf ipos (data.take (64 - ipos)) }.transform
        (by rw [List.length_drop]; omega) (by decide) hlen
      rw [hmod, List.take_zero, List.nil_append] at hnext
      rw [if_pos hspace, absorb_of_le (by decide) (by omega), ← hblock, ← hrest]
      exact hnext
    · have hlen : ipos + data.length < 64 := by omega
      rw [if_neg hspace, absorb_of_lt (by omega), Nat.mod_eq_of_lt hlen]
      refine ⟨rfl, (length_writeAt (by omega)).trans hroom, ?_, rfl, rfl⟩
      exact List.take_left' hall

theorem Represents.addCount {s : SHA1_STATETYPE} {m : List UInt8} (h : Represents s m)
    {data : List UInt8} (hdata : data.length < 2 ^ 32) :
    (s.addCount (BitVec.ofNat 32 data.length)).count0 = BitVec.ofNat 32 (m ++ data).length ∧
      (s.addCount (BitVec.ofNat 32 data.length)).count1 =
        BitVec.ofNat 32 ((m ++ data).length / 2 ^ 32) := by
  have hlow : s.count0 + BitVec.ofNat 32 data.length = BitVec.ofNat 32 (m ++ data).length := by
    rw [h.low, List.length_append, BitVec.ofNat_add]
  refine ⟨hlow, ?_⟩
  simp only [SHA1_STATETYPE.addCount, hlow, h.high, BitVec.lt_def, BitVec.toNat_ofNat,
    List.length_append, Nat.mod_eq_of_lt hdata]
  split <;> apply BitVec.eq_of_toNat_eq
  · rw [BitVec.toNat_add, BitVec.toNat_ofNat, BitVec.toNat_ofNat, BitVec.toNat_ofNat]
    omega
  · rw [BitVec.toNat_ofNat, BitVec.toNat_ofNat]
    omega

/-- **`SHA1_Hash`** goes on with the message. -/
theorem Represents.update {s : SHA1_STATETYPE} {m : List UInt8} (h : Represents s m)
    {data : List UInt8} (hdata : data.length < 2 ^ 32) :
    Represents (s.update data) (m ++ data) := by
  obtain ⟨hhash, hroom, hleft, hcount0, hcount1⟩ :=
    hashLoop_absorb (data.length + 1) (m.length % 64) data
      (s.addCount (BitVec.ofNat 32 data.length)) (Nat.lt_succ_self _)
      (Nat.mod_lt _ (by decide)) h.room
  have hcarry := h.addCount hdata
  have hmod : (m.length % 64 + data.length) % 64 = (m ++ data).length % 64 := by
    rw [List.length_append, Nat.mod_add_mod]
  have hfront : (s.addCount (BitVec.ofNat 32 data.length)).wbuf.take (m.length % 64) =
      (absorb 64 compress initialHash m).2 := h.held
  have hold : (s.addCount (BitVec.ofNat 32 data.length)).hash =
      (absorb 64 compress initialHash m).1 := h.hash
  rw [hfront, hold, ← absorb_append (by decide)] at hhash hleft
  rw [hmod] at hleft
  rw [SHA1_STATETYPE.update, h.place]
  exact ⟨hroom, hhash, hleft, hcount0.trans hcarry.1, hcount1.trans hcarry.2⟩

/-! ### What is behind the message -/

section

variable {s : SHA1_STATETYPE} {i : Nat}

theorem mark_eq {wbuf : List UInt8} (hroom : wbuf.length = 64) (hi : i < 64) :
    setWord wbuf (i / 4) (getWord wbuf (i / 4) &&& shaMask (i % 4) ||| shaBits (i % 4)) =
      wbuf.take i ++ 128 :: List.replicate (3 - i % 4) 0 ++ wbuf.drop (4 * (i / 4) + 4) := by
  have hword : (window wbuf (4 * (i / 4)) 4).length = 4 := length_window (by omega)
  have hfront : wbuf.take (4 * (i / 4)) ++ (window wbuf (4 * (i / 4)) 4).take (i % 4) =
      wbuf.take i := by
    have hplace : 4 * (i / 4) + i % 4 = i := by omega
    rw [window, List.take_take, min_eq_left (by omega), ← List.take_add, hplace]
  rw [setWord_eq, getWord, toLE_mark hword (by omega), ← hfront]
  simp only [List.append_assoc]

theorem length_mark {l : List UInt8} (hl : i ≤ l.length) (n : Nat) :
    (l.take i ++ 128 :: List.replicate n 0).length = i + 1 + n := by
  rw [List.length_append, List.length_take, List.length_cons, List.length_replicate]
  omega

theorem pad_count (s : SHA1_STATETYPE) (i : Nat) :
    (s.pad i).count0 = s.count0 ∧ (s.pad i).count1 = s.count1 := by
  simp only [pad, transform]
  split <;> [split; skip] <;> exact ⟨rfl, rfl⟩

/-- **There is room** for the length. -/
theorem pad_of_le (hroom : s.wbuf.length = 64) (hi : i ≤ 55) :
    (s.pad i).hash = s.hash ∧ (s.pad i).wbuf.length = 64 ∧
      (s.pad i).wbuf.take 56 = s.wbuf.take i ++ 128 :: List.replicate (55 - i) 0 := by
  have hmarked : (s.wbuf.take i ++ 128 :: List.replicate (3 - i % 4) 0).length =
      4 * (i / 4 + 1) := by
    rw [length_mark (by omega)]
    omega
  have hzeros : List.replicate (3 - i % 4) (0 : UInt8) ++
      List.replicate (56 - 4 * (i / 4 + 1)) 0 = List.replicate (55 - i) 0 := by
    rw [← List.replicate_add]
    congr 1
    omega
  have hpad : s.pad i = { s with
      wbuf := zeroWords (s.wbuf.take i ++ 128 :: List.replicate (3 - i % 4) 0 ++
        s.wbuf.drop (4 * (i / 4) + 4)) (i / 4 + 1) } := by
    simp only [pad, mark_eq hroom (Nat.lt_of_le_of_lt hi (by decide)),
      if_neg (show ¬ 64 - 9 < i by omega)]
  have hroom' : (s.wbuf.take i ++ 128 :: List.replicate (3 - i % 4) 0 ++
      s.wbuf.drop (4 * (i / 4) + 4)).length = 64 := by
    rw [List.length_append, hmarked, List.length_drop]
    omega
  obtain ⟨hlen, htake⟩ := zeroWords_eq hroom' (show i / 4 + 1 ≤ 14 by omega)
  rw [hpad]
  refine ⟨rfl, hlen, htake.trans ?_⟩
  rw [List.take_left' hmarked, List.append_assoc, List.cons_append, hzeros]

/-- The last word of a block without room for the length. -/
theorem mark_last (hroom : s.wbuf.length = 64) (hi : 55 < i) (hlt : i < 64) :
    (if i < 60 then
        setWord (s.wbuf.take i ++ 128 :: List.replicate (3 - i % 4) 0 ++
          s.wbuf.drop (4 * (i / 4) + 4)) 15 0
      else s.wbuf.take i ++ 128 :: List.replicate (3 - i % 4) 0 ++
        s.wbuf.drop (4 * (i / 4) + 4)) =
      s.wbuf.take i ++ 128 :: List.replicate (63 - i) 0 := by
  have hmarked := length_mark (show i ≤ s.wbuf.length by omega) (3 - i % 4)
  split
  case isTrue h =>
    have hfront : (s.wbuf.take i ++ 128 :: List.replicate (3 - i % 4) 0).length = 60 := by omega
    have hend : (s.wbuf.take i ++ 128 :: List.replicate (3 - i % 4) 0 ++
        s.wbuf.drop (4 * (i / 4) + 4)).drop 64 = [] := by
      apply List.drop_of_length_le
      rw [List.length_append, hfront, List.length_drop]
      omega
    have hzeros : List.replicate (3 - i % 4) (0 : UInt8) ++ List.replicate 4 0 =
        List.replicate (63 - i) 0 := by
      rw [← List.replicate_add]
      congr 1
      omega
    rw [setWord_eq, List.take_left' hfront, hend, List.append_nil, BitVec.ofNat_eq_ofNat,
      BitVec.toNat_ofNat, Nat.zero_mod, toLE_zero, List.append_assoc, List.cons_append, hzeros]
  case isFalse h =>
    have hzeros : 3 - i % 4 = 63 - i := by omega
    rw [List.drop_of_length_le (l := s.wbuf) (by omega), List.append_nil, hzeros]

/-- **There is no room**: the block is transformed, and the next is clear up to the length. -/
theorem pad_of_lt (hroom : s.wbuf.length = 64) (hi : 55 < i) (hlt : i < 64) :
    (s.pad i).hash = compress s.hash (s.wbuf.take i ++ 128 :: List.replicate (63 - i) 0) ∧
      (s.pad i).wbuf.length = 64 ∧ (s.pad i).wbuf.take 56 = List.replicate 56 0 := by
  have hroom' : (s.wbuf.take i ++ 128 :: List.replicate (63 - i) 0).length = 64 := by
    rw [length_mark (by omega)]
    omega
  obtain ⟨hlen, htake⟩ := zeroWords_eq hroom' (Nat.zero_le 14)
  have hpad : s.pad i = { s with
      hash := compress s.hash (s.wbuf.take i ++ 128 :: List.replicate (63 - i) 0)
      wbuf := zeroWords (s.wbuf.take i ++ 128 :: List.replicate (63 - i) 0) 0 } := by
    have hlast := mark_last hroom hi hlt
    rw [← hlast]
    simp only [pad, mark_eq hroom hlt, if_pos (show 64 - 9 < i by omega), transform]
    split <;> rfl
  rw [hpad]
  exact ⟨rfl, hlen, htake⟩

end

theorem Represents.finish_eq {s : SHA1_STATETYPE} {m : List UInt8} (h : Represents s m) :
    s.finish = digest (compress (s.pad (m.length % 64)).hash
      ((s.pad (m.length % 64)).wbuf.take 56 ++ (toLE 8 (8 * m.length)).reverse)) := by
  have hroom := h.room
  have hplace : m.length % 64 < 64 := Nat.mod_lt _ (by decide)
  obtain ⟨hcount0, hcount1⟩ := pad_count s (m.length % 64)
  have hlen : (s.pad (m.length % 64)).wbuf.length = 64 := by
    rcases Nat.lt_or_ge 55 (m.length % 64) with hi | hi
    · exact (pad_of_lt hroom hi hplace).2.1
    · exact (pad_of_le hroom hi).2.1
  have hlength : lengthWords (s.pad (m.length % 64)).wbuf (s.pad (m.length % 64)).count0
      (s.pad (m.length % 64)).count1 =
      (s.pad (m.length % 64)).wbuf.take 56 ++ (toLE 8 (8 * m.length)).reverse := by
    rw [hcount0, hcount1, h.low, h.high, lengthWords_eq hlen]
  rw [SHA1_STATETYPE.finish, h.place, ← hlength, transform]

/-- **`SHA1_Finish`** makes the digest of the message. -/
theorem Represents.finish {s : SHA1_STATETYPE} {m : List UInt8} (h : Represents s m) :
    s.finish = sha1 m := by
  have hroom := h.room
  have hplace : m.length % 64 < 64 := Nat.mod_lt _ (by decide)
  rw [h.finish_eq, sha1, absorb_append (by decide), ← h.hash, ← h.held, padding]
  refine congrArg digest ?_
  rcases Nat.lt_or_ge 55 (m.length % 64) with hi | hi
  · obtain ⟨hhash, -, htake⟩ := pad_of_lt hroom hi hplace
    have hfirst : (s.wbuf.take (m.length % 64) ++
        128 :: List.replicate (63 - m.length % 64) 0).length = 64 := by
      rw [length_mark (by omega)]
      omega
    have hsecond : (List.replicate 56 0 ++ (toLE 8 (8 * m.length)).reverse).length = 64 := by
      rw [List.length_append, List.length_replicate, List.length_reverse, length_toLE]
    have hzeros : List.replicate ((119 - m.length % 64) % 64) (0 : UInt8) =
        List.replicate (63 - m.length % 64) 0 ++ List.replicate 56 0 := by
      rw [← List.replicate_add]
      congr 1
      omega
    have hblocks : s.wbuf.take (m.length % 64) ++
        (128 :: List.replicate ((119 - m.length % 64) % 64) 0 ++ (toLE 8 (8 * m.length)).reverse) =
        s.wbuf.take (m.length % 64) ++ 128 :: List.replicate (63 - m.length % 64) 0 ++
          (List.replicate 56 0 ++ (toLE 8 (8 * m.length)).reverse) := by
      rw [hzeros]
      simp only [List.append_assoc, List.cons_append]
    rw [hhash, htake, hblocks, absorb_block_append (by decide) hfirst,
      absorb_block (by decide) hsecond]
  · obtain ⟨hhash, hlen, htake⟩ := pad_of_le hroom hi
    have hzeros : (119 - m.length % 64) % 64 = 55 - m.length % 64 := by omega
    have hblock : (s.wbuf.take (m.length % 64) ++
        128 :: List.replicate (55 - m.length % 64) 0 ++ (toLE 8 (8 * m.length)).reverse).length =
        64 := by
      rw [List.length_append, length_mark (by omega), List.length_reverse, length_toLE]
      omega
    rw [hhash, htake, hzeros, ← List.append_assoc, absorb_block (by decide) hblock]

theorem Represents.foldl_update : ∀ (pieces : List (List UInt8)) {s : SHA1_STATETYPE}
    {m : List UInt8}, Represents s m → (∀ piece ∈ pieces, piece.length < 2 ^ 32) →
    Represents (pieces.foldl SHA1_STATETYPE.update s) (m ++ pieces.flatten) := by
  intro pieces
  induction pieces with
  | nil =>
    intro s m h _
    rwa [List.flatten_nil, List.append_nil]
  | cons piece pieces ih =>
    intro s m h hpieces
    rw [List.forall_mem_cons] at hpieces
    have hnext := ih (h.update hpieces.1) hpieces.2
    rwa [List.append_assoc] at hnext

/-- **However a message is cut**, and whatever the state held before, the digest is the one of
the message. -/
theorem finish_foldl_update {s : SHA1_STATETYPE} (hroom : s.wbuf.length = 64)
    {pieces : List (List UInt8)} (hpieces : ∀ piece ∈ pieces, piece.length < 2 ^ 32) :
    (pieces.foldl SHA1_STATETYPE.update s.start).finish = sha1 pieces.flatten := by
  have h := (represents_start hroom).foldl_update pieces hpieces
  exact h.finish

/-- An empty piece, a piece that ends a block, and a piece of one byte. -/
theorem finish_foldl_update_three :
    ([[], List.replicate 64 7, [9]].foldl SHA1_STATETYPE.update cleared.start).finish =
      sha1 [[], List.replicate 64 7, [9]].flatten :=
  finish_foldl_update rfl (by simp)

theorem Represents.sha1FileLoop : ∀ (fuel : Nat) (rest : List UInt8) {s : SHA1_STATETYPE}
    {m : List UInt8}, rest.length < fuel → Represents s m →
    Represents (Checksum.sha1FileLoop fuel rest s) (m ++ rest) := by
  intro fuel
  induction fuel with
  | zero => intro rest s m hfuel; exact absurd hfuel (Nat.not_lt_zero _)
  | succ fuel ih =>
    intro rest s m hfuel h
    have hlen : (rest.take 32768).length ≤ 32768 := List.length_take_le _ _
    rw [Checksum.sha1FileLoop]
    by_cases hbuf : 0 < (rest.take 32768).length
    · rw [List.length_take] at hbuf
      have hdrop : (rest.drop 32768).length < fuel := by
        rw [List.length_drop]
        omega
      have hpiece : (rest.take 32768).length < 2 ^ 32 := by omega
      have hnext := ih (rest.drop 32768) hdrop (h.update hpiece)
      rw [List.append_assoc, List.take_append_drop] at hnext
      simpa only [List.length_take, if_pos hbuf] using hnext
    · have hnil : rest = [] := by
        rw [List.length_take] at hbuf
        exact List.length_eq_zero_iff.mp (by omega)
      rw [if_neg hbuf, hnil, List.append_nil]
      exact h

end SHA1_STATETYPE

/-- **`sha1_file`** makes the digest of the file, of any size. -/
theorem sha1File_eq (file : List UInt8) : sha1File file = sha1 file := by
  have hroom : cleared.wbuf.length = 64 := List.length_replicate
  exact ((SHA1_STATETYPE.represents_start hroom).sha1FileLoop _ file
    (Nat.lt_succ_self _)).finish

theorem SHA1Hash_eq {data : List UInt8} (h : data.length < 2 ^ 32) :
    SHA1Hash data = sha1 data := by
  have hroom : cleared.wbuf.length = 64 := List.length_replicate
  exact ((SHA1_STATETYPE.represents_start hroom).update h).finish

end DWindow.Checksum
