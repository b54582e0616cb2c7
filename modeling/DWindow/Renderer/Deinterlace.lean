import Mathlib.Data.List.Range
import Mathlib.Data.Nat.Bitwise
import Mathlib.Data.Set.Function
import Mathlib.Tactic.Ring

/-!
# Deinterlacing copies

`unpack_YUY2.cpp` copies the planes of an image into textures; with `deinterlace` the lines of the
first field come above those of the second one.  Each loop has its own formula for the source
line `i` of a plane with `H` lines, `((i<<1)%H) + i/D`: with `D = H/2` it goes through the even
lines and then through the odd ones, with `D = H` it goes through the even lines twice.

* `permuted_bijOn`: the order of the lines that is meant takes each line once.
* `sourceLine_half`, `sourceLine_whole`: what the formula is in the two cases.
* `written_blocks`: what the writes of a line leave at a pixel.
* `deinterlaced_iff`: when each of the four functions copies the lines in that order.
-/

namespace DWindow.Renderer

/-! ## Writes -/

/-- The memory of the source, by the distance from `src`. -/
abbrev Memory := Int → UInt8

/-- A write into a plane: where it starts, and its bytes. -/
structure Write where
  dst : Int
  bytes : List UInt8

def memcpy (dst : Int) (src : Memory) (start : Int) (n : Nat) : Write :=
  ⟨dst, (List.range n).map fun (k : Nat) => src (start + k)⟩

def written (ws : List Write) (a : Int) : Option UInt8 :=
  ws.foldl (fun b w =>
    if w.dst ≤ a ∧ a < w.dst + w.bytes.length then w.bytes[(a - w.dst).toNat]? else b) none

/-- The source line of `i`, in a plane with `h` lines; `d` is the divisor of the loop. -/
def sourceLine (deinterlace : Bool) (i h d : Nat) : Nat :=
  if !deinterlace then i else (i <<< 1) % h + i / d

/-- The writes of a loop over `h` lines that copies `n` bytes of each line: `line` is the address of
a source line, `dst` that of an output line. -/
def copyLines (src : Memory) (h n : Nat) (source : Nat → Nat) (line dst : Nat → Int) :
    List (List Write) :=
  (List.range h).map fun i => [memcpy (dst i) src (line (source i)) n]

/-- The writes to the planes, line by line. -/
structure Planes where
  Y : List (List Write)
  UV : List (List Write)

/-! ## The copies -/

def copyNv12 (width height : Nat) (src : Memory) (strideSrc strideY strideUV : Int)
    (deinterlace : Bool) : Planes where
  Y := copyLines src height width (fun i => sourceLine deinterlace i height height)
    (fun line => line * strideSrc) (fun i => i * strideY)
  UV := copyLines src (height / 2) width
    (fun i => sourceLine deinterlace i (height / 2) (height / 2))
    (fun line => height * strideSrc + line * strideSrc) (fun i => i * strideUV)

/-- The writes of `copy_yv12`, whose two chroma planes stand one behind the other. -/
structure PlanesYv12 where
  Y : List (List Write)
  V : List (List Write)
  U : List (List Write)

def copyYv12 (width height : Nat) (src : Memory) (strideSrc strideY strideUV : Int)
    (deinterlace : Bool) : PlanesYv12 where
  Y := copyLines src height width (fun i => sourceLine deinterlace i height height)
    (fun line => line * strideSrc) (fun i => i * strideY)
  V := copyLines src (height / 2) (width / 2)
    (fun i => sourceLine deinterlace i (height / 2) (height / 4))
    (fun line => height * strideSrc + (line * strideSrc).tdiv 2) (fun i => i * strideUV)
  U := copyLines src (height / 2) (width / 2)
    (fun i => sourceLine deinterlace i (height / 2) (height / 4))
    (fun line => (height * strideSrc * 5).tdiv 4 + (line * strideSrc).tdiv 2)
    (fun i => (height / 2 : Nat) * strideUV + i * strideUV)

def copyP01x (width height : Nat) (src : Memory) (strideSrc strideY strideUV : Int)
    (deinterlace : Bool) : Planes where
  Y := copyLines src height (width * 2) (fun i => sourceLine deinterlace i height height)
    (fun line => line * strideSrc) (fun i => i * strideY)
  UV := copyLines src (height / 2) (width * 2)
    (fun i => sourceLine deinterlace i (height / 2) (height / 2))
    (fun line => height * strideSrc + line * strideSrc) (fun i => i * strideUV)

/-! ## Sixteen pixels at a time -/

/-- `_mm_loadu_si128`: eight words. -/
def loadu (src : Memory) (a : Int) : List UInt16 :=
  (List.range 8).map fun (k : Nat) =>
    (src (a + 2 * k)).toUInt16 + 256 * (src (a + 2 * k + 1)).toUInt16

/-- `_mm_and_si128` with `_mm_set1_epi16(mask)`. -/
def andMask (mask : UInt16) (m : List UInt16) : List UInt16 := m.map (· &&& mask)

/-- `_mm_srli_epi16`. -/
def srli (n : UInt16) (m : List UInt16) : List UInt16 := m.map (· >>> n)

/-- A signed word as a byte, as near as it comes. -/
def saturate (w : UInt16) : UInt8 :=
  if 0x8000 ≤ w then 0 else if 0xff < w then 0xff else w.toUInt8

/-- `_mm_packus_epi16`. -/
def packus (m m' : List UInt16) : List UInt8 := (m ++ m').map saturate

/-- The bytes that a turn of the inner loop stores in the two planes. -/
def unpackBlock (src : Memory) (a : Int) : List UInt8 × List UInt8 :=
  let m1 := loadu src a
  let m2 := loadu src (a + 16)
  (packus (andMask 0x00ff m1) (andMask 0x00ff m2),
    packus (srli 8 (andMask 0xff00 m1)) (srli 8 (andMask 0xff00 m2)))

def unpackYUY2 (width height : Nat) (src : Memory) (strideSrc strideY strideUV : Int)
    (deinterlace : Bool) : Planes where
  Y := (List.range height).map fun (y : Nat) =>
    let line := sourceLine deinterlace y height height
    (List.range (width / 16)).map fun (x : Nat) =>
      ⟨strideY * y + 16 * x, (unpackBlock src (strideSrc * line + 32 * x)).1⟩
  UV := (List.range height).map fun (y : Nat) =>
    let line := sourceLine deinterlace y height height
    (List.range (width / 16)).map fun (x : Nat) =>
      ⟨strideUV * y + 16 * x, (unpackBlock src (strideSrc * line + 32 * x)).2⟩

/-! ## The order that is meant -/

/-- The source line of an output line: the even lines, then the odd ones. -/
def permuted (H y : Nat) : Nat := if y < H / 2 then 2 * y else 2 * (y - H / 2) + 1

theorem permuted_bijOn {H : Nat} (h : 2 ∣ H) :
    Set.BijOn (permuted H) {y | y < H} {y | y < H} := by
  refine ⟨fun y hy => ?_, fun y hy z hz heq => ?_, fun l hl => ?_⟩
  · simp only [Set.mem_ofPred_eq, permuted] at hy ⊢
    split <;> omega
  · simp only [Set.mem_ofPred_eq, permuted] at hy hz heq
    split at heq <;> split at heq <;> omega
  · simp only [Set.mem_ofPred_eq, Set.mem_image, permuted] at hl ⊢
    obtain heven | hodd := Nat.mod_two_eq_zero_or_one l
    · exact ⟨l / 2, by omega, by rw [if_pos (by omega)]; omega⟩
    · exact ⟨H / 2 + l / 2, by omega, by rw [if_neg (by omega)]; omega⟩

/-- With half the lines as the divisor the formula is right. -/
theorem sourceLine_half {H y : Nat} (h : 2 ∣ H) (hy : y < H) :
    sourceLine true y H (H / 2) = permuted H y := by
  have hshift : y <<< 1 = 2 * y := by rw [Nat.shiftLeft_eq]; ring
  rw [sourceLine, permuted, hshift]
  simp only [Bool.not_true, Bool.false_eq_true, if_false]
  split
  · next hlt =>
    rw [Nat.mod_eq_of_lt (by omega), Nat.div_eq_of_lt hlt, Nat.add_zero]
  · next hge =>
    have hmod : 2 * y % H = 2 * y - H := by
      rw [Nat.mod_eq_sub_mod (by omega), Nat.mod_eq_of_lt (by omega)]
    have hdiv : y / (H / 2) = 1 := Nat.div_eq_of_lt_le (by omega) (by omega)
    rw [hmod, hdiv]
    omega

/-- With all of them it takes the even lines twice. -/
theorem sourceLine_whole {H y : Nat} (h : 2 ∣ H) (hy : y < H) :
    sourceLine true y H H = if y < H / 2 then 2 * y else 2 * (y - H / 2) := by
  have hshift : y <<< 1 = 2 * y := by rw [Nat.shiftLeft_eq]; ring
  rw [sourceLine, hshift, Nat.div_eq_of_lt hy]
  simp only [Bool.not_true, Bool.false_eq_true, if_false]
  split
  · next hlt => rw [Nat.mod_eq_of_lt (by omega), Nat.add_zero]
  · next hge =>
    rw [Nat.mod_eq_sub_mod (by omega), Nat.mod_eq_of_lt (by omega)]
    omega

/-! ## What is left at a pixel -/

/-- Blocks of `c` bytes, one behind the other. -/
def blocks (base : Int) (c n : Nat) (f : Nat → UInt8) : List Write :=
  (List.range n).map fun (b : Nat) =>
    ⟨base + c * b, (List.range c).map fun k => f (c * b + k)⟩

/-- **What the writes of a line leave**: the bytes as far as the blocks reach. -/
theorem written_blocks (base : Int) (c : Nat) (f : Nat → UInt8) (x : Nat) : ∀ n : Nat,
    written (blocks base c n f) (base + x) = if x < c * n then some (f x) else none
  | 0 => by
    rw [Nat.mul_zero, if_neg (Nat.not_lt_zero x)]
    rfl
  | n + 1 => by
    have hlast : written (blocks base c (n + 1) f) (base + x) =
        if c * n ≤ x ∧ x < c * n + c then some (f x)
        else written (blocks base c n f) (base + x) := by
      rw [blocks, List.range_succ, List.map_append, written, List.foldl_append]
      simp only [List.map_cons, List.map_nil, List.foldl_cons, List.foldl_nil, List.length_map,
        List.length_range]
      have hiff : (base + (c : Int) * n ≤ base + x ∧ base + x < base + (c : Int) * n + c) ↔
          c * n ≤ x ∧ x < c * n + c := by
        have hcast : (c : Int) * n = ((c * n : Nat) : Int) := by push_cast; ring
        rw [hcast]
        omega
      by_cases hin : c * n ≤ x ∧ x < c * n + c
      · have hindex : (base + (x : Int) - (base + (c : Int) * n)).toNat = x - c * n := by
          have hcast : (c : Int) * n = ((c * n : Nat) : Int) := by push_cast; ring
          rw [hcast]
          omega
        rw [if_pos (hiff.mpr hin), if_pos hin, hindex, List.getElem?_map,
          List.getElem?_range (by omega), Option.map_some, Nat.add_sub_cancel' hin.1]
      · rw [if_neg (mt hiff.mp hin), if_neg hin]
        rfl
    rw [hlast, written_blocks base c f x n, Nat.mul_succ]
    by_cases hin : c * n ≤ x ∧ x < c * n + c
    · rw [if_pos hin, if_pos hin.2]
    · rw [if_neg hin]
      by_cases hlt : x < c * n
      · rw [if_pos hlt, if_pos (by omega)]
      · rw [if_neg hlt, if_neg (by omega)]

theorem written_memcpy (dst : Int) (src : Memory) (start : Int) {n x : Nat} (hx : x < n) :
    written [memcpy dst src start n] (dst + x) = some (src (start + x)) := by
  have hblock := written_blocks dst n (fun k => src (start + (k : Int))) x 1
  rw [Nat.mul_one, if_pos hx] at hblock
  rw [← hblock]
  simp [blocks, memcpy]

theorem toNat_word (lo hi : UInt8) :
    (lo.toUInt16 + 256 * hi.toUInt16).toNat = lo.toNat + 256 * hi.toNat := by
  have hlo := lo.toNat_lt
  have hhi := hi.toNat_lt
  rw [UInt16.toNat_add, UInt16.toNat_mul, UInt8.toNat_toUInt16, UInt8.toNat_toUInt16]
  change (lo.toNat + 256 * hi.toNat % 65536) % 65536 = _
  omega

theorem saturate_eq {w : UInt16} {b : UInt8} (h : w.toNat = b.toNat) : saturate w = b := by
  have hb := b.toNat_lt
  have hsign : ¬ 0x8000 ≤ w := by
    rw [UInt16.le_iff_toNat_le, h]
    change ¬ 32768 ≤ b.toNat
    omega
  have hlarge : ¬ 0xff < w := by
    rw [UInt16.lt_iff_toNat_lt, h]
    change ¬ 255 < b.toNat
    omega
  rw [saturate, if_neg hsign, if_neg hlarge, ← UInt8.toNat_inj, UInt16.toNat_toUInt8, h]
  exact Nat.mod_eq_of_lt hb

theorem saturate_low (lo hi : UInt8) :
    saturate ((lo.toUInt16 + 256 * hi.toUInt16) &&& 0x00ff) = lo := by
  have hlo := lo.toNat_lt
  apply saturate_eq
  rw [UInt16.toNat_and, toNat_word]
  change (lo.toNat + 256 * hi.toNat) &&& (2 ^ 8 - 1) = _
  rw [Nat.and_two_pow_sub_one_eq_mod]
  omega

theorem saturate_high (lo hi : UInt8) :
    saturate (((lo.toUInt16 + 256 * hi.toUInt16) &&& 0xff00) >>> 8) = hi := by
  have hlo := lo.toNat_lt
  have hhi := hi.toNat_lt
  apply saturate_eq
  rw [UInt16.toNat_shiftRight, UInt16.toNat_and, toNat_word]
  change ((lo.toNat + 256 * hi.toNat) &&& 0xff00) >>> 8 = _
  rw [Nat.shiftRight_and_distrib, Nat.shiftRight_eq_div_pow]
  change (lo.toNat + 256 * hi.toNat) / 2 ^ 8 &&& (2 ^ 8 - 1) = _
  rw [Nat.and_two_pow_sub_one_eq_mod]
  omega

/-- **A block** holds the even bytes for the one plane and the odd ones for the other. -/
theorem unpackBlock_eq (src : Memory) (a : Int) :
    unpackBlock src a =
      ((List.range 16).map fun (k : Nat) => src (a + 2 * k),
        (List.range 16).map fun (k : Nat) => src (a + 2 * k + 1)) := by
  have hrange : List.range 16 = List.range 8 ++ (List.range 8).map (8 + ·) := by decide
  have haddr : ∀ k : Nat, a + 2 * ((8 + k : Nat) : Int) = a + 16 + 2 * k := fun k => by
    push_cast
    ring
  rw [hrange, List.map_append, List.map_append, List.map_map, List.map_map]
  simp only [unpackBlock, packus, andMask, srli, loadu, List.map_map, List.map_append]
  simp only [Function.comp_def, saturate_low, saturate_high, haddr]

/-! ## Planes -/

/-- **A plane is deinterlaced**: line `y` of the output, at `dst y`, shows line `permuted H y` of
the source, at each of its `n` bytes. -/
def Deinterlaced (lines : List (List Write)) (dst : Nat → Int) (pixel : Nat → Nat → UInt8)
    (H n : Nat) : Prop :=
  ∀ y < H, ∀ x < n, written (lines.getD y []) (dst y + x) = some (pixel (permuted H y) x)

/-- Each odd line is like the even one above it. -/
def PairsAlike (pixel : Nat → Nat → UInt8) (H n : Nat) : Prop :=
  ∀ k < H / 2, ∀ x < n, pixel (2 * k + 1) x = pixel (2 * k) x

section

variable {lines : List (List Write)} {dst : Nat → Int} {pixel : Nat → Nat → UInt8} {H n : Nat}

/-- A loop that divides by half the lines copies them in the order that is meant. -/
theorem deinterlaced_of_half (hH : 2 ∣ H) (h : ∀ y < H, ∀ x < n, written (lines.getD y [])
    (dst y + x) = some (pixel (sourceLine true y H (H / 2)) x)) :
    Deinterlaced lines dst pixel H n := by
  intro y hy x hx
  rw [h y hy x hx, sourceLine_half hH hy]

/-- **A loop that divides by all the lines** does so only where no odd line differs from the even
one above it. -/
theorem deinterlaced_of_whole (hH : 2 ∣ H) (h : ∀ y < H, ∀ x < n, written (lines.getD y [])
    (dst y + x) = some (pixel (sourceLine true y H H) x)) :
    Deinterlaced lines dst pixel H n ↔ PairsAlike pixel H n := by
  constructor
  · intro hd k hk x hx
    have hy : H / 2 + k < H := by omega
    have hline := (h (H / 2 + k) hy x hx).symm.trans (hd (H / 2 + k) hy x hx)
    rw [sourceLine_whole hH hy, permuted, if_neg (by omega), if_neg (by omega),
      Nat.add_sub_cancel_left] at hline
    exact (Option.some.inj hline).symm
  · intro hpairs y hy x hx
    rw [h y hy x hx, sourceLine_whole hH hy, permuted]
    split
    · rfl
    · rw [hpairs (y - H / 2) (by omega) x hx]

theorem written_copyLines (src : Memory) (source : Nat → Nat) (line dst : Nat → Int) {y x : Nat}
    (hy : y < H) (hx : x < n) :
    written ((copyLines src H n source line dst).getD y []) (dst y + x) =
      some (src (line (source y) + x)) := by
  rw [copyLines, List.getD_eq_getElem?_getD, List.getElem?_map, List.getElem?_range hy]
  exact written_memcpy _ _ _ hx

theorem copyLines_half (hH : 2 ∣ H) (src : Memory) (line dst : Nat → Int) :
    Deinterlaced (copyLines src H n (fun i => sourceLine true i H (H / 2)) line dst) dst
      (fun l x => src (line l + x)) H n :=
  deinterlaced_of_half hH fun _ hy _ hx => written_copyLines src _ line dst hy hx

theorem copyLines_whole (hH : 2 ∣ H) (src : Memory) (line dst : Nat → Int) :
    Deinterlaced (copyLines src H n (fun i => sourceLine true i H H) line dst) dst
      (fun l x => src (line l + x)) H n ↔ PairsAlike (fun l x => src (line l + x)) H n :=
  deinterlaced_of_whole hH fun _ hy _ hx => written_copyLines src _ line dst hy hx

end

/-! ## The four functions -/

/-- The planes of an image whose chroma lines are as long as those of luma: the byte `x` of a line.
-/
def lumaByte (src : Memory) (strideSrc : Int) (line x : Nat) : UInt8 := src (line * strideSrc + x)

def chromaByte (height : Nat) (src : Memory) (strideSrc : Int) (line x : Nat) : UInt8 :=
  src (height * strideSrc + line * strideSrc + x)

/-- The two chroma planes of YV12. -/
def vByte (height : Nat) (src : Memory) (strideSrc : Int) (line x : Nat) : UInt8 :=
  src (height * strideSrc + (line * strideSrc).tdiv 2 + x)

def uByte (height : Nat) (src : Memory) (strideSrc : Int) (line x : Nat) : UInt8 :=
  src ((height * strideSrc * 5).tdiv 4 + (line * strideSrc).tdiv 2 + x)

/-- YUY2: the even bytes of a line are luma, the odd ones chroma. -/
def yuy2Y (src : Memory) (strideSrc : Int) (line x : Nat) : UInt8 := src (strideSrc * line + 2 * x)

def yuy2UV (src : Memory) (strideSrc : Int) (line x : Nat) : UInt8 :=
  src (strideSrc * line + 2 * x + 1)

section

variable (width height : Nat) (src : Memory) (strideSrc strideY strideUV : Int)

/-- What `unpack_YUY2` has to do. -/
def DeinterlacedYUY2 : Prop :=
  Deinterlaced (unpackYUY2 width height src strideSrc strideY strideUV true).Y
      (fun y => strideY * y) (yuy2Y src strideSrc) height width ∧
    Deinterlaced (unpackYUY2 width height src strideSrc strideY strideUV true).UV
      (fun y => strideUV * y) (yuy2UV src strideSrc) height width

/-- What `copy_nv12` has to do. -/
def DeinterlacedNv12 : Prop :=
  Deinterlaced (copyNv12 width height src strideSrc strideY strideUV true).Y
      (fun y => y * strideY) (lumaByte src strideSrc) height width ∧
    Deinterlaced (copyNv12 width height src strideSrc strideY strideUV true).UV
      (fun y => y * strideUV) (chromaByte height src strideSrc) (height / 2) width

/-- What `copy_yv12` has to do. -/
def DeinterlacedYv12 : Prop :=
  Deinterlaced (copyYv12 width height src strideSrc strideY strideUV true).Y
      (fun y => y * strideY) (lumaByte src strideSrc) height width ∧
    Deinterlaced (copyYv12 width height src strideSrc strideY strideUV true).V
      (fun y => y * strideUV) (vByte height src strideSrc) (height / 2) (width / 2) ∧
    Deinterlaced (copyYv12 width height src strideSrc strideY strideUV true).U
      (fun y => (height / 2 : Nat) * strideUV + y * strideUV) (uByte height src strideSrc)
      (height / 2) (width / 2)

/-- What `copy_p01x` has to do, with two bytes a pixel. -/
def DeinterlacedP01x : Prop :=
  Deinterlaced (copyP01x width height src strideSrc strideY strideUV true).Y
      (fun y => y * strideY) (lumaByte src strideSrc) height (width * 2) ∧
    Deinterlaced (copyP01x width height src strideSrc strideY strideUV true).UV
      (fun y => y * strideUV) (chromaByte height src strideSrc) (height / 2) (width * 2)

end

section

variable {width height : Nat} {src : Memory} {strideSrc strideY strideUV : Int}

theorem deinterlacedNv12_iff (h : 4 ∣ height) :
    DeinterlacedNv12 width height src strideSrc strideY strideUV ↔
      PairsAlike (lumaByte src strideSrc) height width ∧
        PairsAlike (chromaByte height src strideSrc) (height / 2) width :=
  and_congr
    (copyLines_whole (by omega) src (fun line => line * strideSrc) fun i => i * strideY)
    (copyLines_whole (by omega) src (fun line => height * strideSrc + line * strideSrc)
      fun i => i * strideUV)

theorem deinterlacedP01x_iff (h : 4 ∣ height) :
    DeinterlacedP01x width height src strideSrc strideY strideUV ↔
      PairsAlike (lumaByte src strideSrc) height (width * 2) ∧
        PairsAlike (chromaByte height src strideSrc) (height / 2) (width * 2) :=
  and_congr
    (copyLines_whole (by omega) src (fun line => line * strideSrc) fun i => i * strideY)
    (copyLines_whole (by omega) src (fun line => height * strideSrc + line * strideSrc)
      fun i => i * strideUV)

/-- The chroma planes of YV12 are right: their loops divide by half their lines. -/
theorem deinterlacedYv12_iff (h : 4 ∣ height) :
    DeinterlacedYv12 width height src strideSrc strideY strideUV ↔
      PairsAlike (lumaByte src strideSrc) height width := by
  have hdiv : height / 2 / 2 = height / 4 := by omega
  have hV := copyLines_half (n := width / 2) (show 2 ∣ height / 2 by omega) src
    (fun line => height * strideSrc + (line * strideSrc).tdiv 2) fun i => i * strideUV
  have hU := copyLines_half (n := width / 2) (show 2 ∣ height / 2 by omega) src
    (fun line => (height * strideSrc * 5).tdiv 4 + (line * strideSrc).tdiv 2)
    fun i => (height / 2 : Nat) * strideUV + i * strideUV
  rw [hdiv] at hV hU
  rw [DeinterlacedYv12]
  exact (and_iff_left ⟨hV, hU⟩).trans
    (copyLines_whole (by omega) src (fun line => line * strideSrc) fun i => i * strideY)

/-- The writes of a line of `unpack_YUY2` reach as far as whole blocks of pixels do. -/
theorem written_unpackYUY2 {y x : Nat} (hy : y < height) :
    written ((unpackYUY2 width height src strideSrc strideY strideUV true).Y.getD y [])
        (strideY * y + x) =
      (if x < 16 * (width / 16) then
        some (yuy2Y src strideSrc (sourceLine true y height height) x) else none) ∧
    written ((unpackYUY2 width height src strideSrc strideY strideUV true).UV.getD y [])
        (strideUV * y + x) =
      (if x < 16 * (width / 16) then
        some (yuy2UV src strideSrc (sourceLine true y height height) x) else none) := by
  have haddr : ∀ b k : Nat, strideSrc * (sourceLine true y height height : Int) + 32 * (b : Int) +
      2 * k =
        strideSrc * (sourceLine true y height height : Int) + 2 * ((16 * b + k : Nat) : Int) :=
    fun b k => by
      push_cast
      ring
  constructor
  · rw [← written_blocks (strideY * y) 16, unpackYUY2, List.getD_eq_getElem?_getD,
      List.getElem?_map, List.getElem?_range hy]
    simp only [Option.map_some, Option.getD_some, unpackBlock_eq, haddr]
    rfl
  · rw [← written_blocks (strideUV * y) 16, unpackYUY2, List.getD_eq_getElem?_getD,
      List.getElem?_map, List.getElem?_range hy]
    simp only [Option.map_some, Option.getD_some, unpackBlock_eq, haddr]
    rfl

/-- `unpack_YUY2` leaves out the pixels behind the last block, too. -/
theorem deinterlacedYUY2_iff (h : 4 ∣ height) :
    DeinterlacedYUY2 width height src strideSrc strideY strideUV ↔
      (height = 0 ∨ 16 ∣ width) ∧ PairsAlike (yuy2Y src strideSrc) height width ∧
        PairsAlike (yuy2UV src strideSrc) height width := by
  by_cases hwhole : height = 0 ∨ 16 ∣ width
  · rw [and_iff_right hwhole]
    have hreach : ∀ y < height, ∀ x < width, x < 16 * (width / 16) := by omega
    refine and_congr (deinterlaced_of_whole (by omega) fun y hy x hx => ?_)
      (deinterlaced_of_whole (by omega) fun y hy x hx => ?_)
    · rw [(written_unpackYUY2 hy).1, if_pos (hreach y hy x hx)]
    · rw [(written_unpackYUY2 hy).2, if_pos (hreach y hy x hx)]
  · refine iff_of_false (fun hd => ?_) fun hd => hwhole hd.1
    rw [not_or] at hwhole
    have hfirst := hd.1 0 (by omega) (width - 1) (by omega)
    rw [(written_unpackYUY2 (by omega)).1, if_neg (by omega)] at hfirst
    cases hfirst

end

/-- **Deinterlacing**: each function copies every plane in the order, which takes each line once, if
and only if in the planes whose loops divide by all their lines no odd line differs from the even
one above it; `unpack_YUY2` needs whole blocks of sixteen pixels besides. -/
theorem deinterlaced_iff (width : Nat) {height : Nat} (h : 4 ∣ height) (src : Memory)
    (strideSrc strideY strideUV : Int) :
    Set.BijOn (permuted height) {y | y < height} {y | y < height} ∧
    (DeinterlacedYUY2 width height src strideSrc strideY strideUV ↔
      (height = 0 ∨ 16 ∣ width) ∧ PairsAlike (yuy2Y src strideSrc) height width ∧
        PairsAlike (yuy2UV src strideSrc) height width) ∧
    (DeinterlacedNv12 width height src strideSrc strideY strideUV ↔
      PairsAlike (lumaByte src strideSrc) height width ∧
        PairsAlike (chromaByte height src strideSrc) (height / 2) width) ∧
    (DeinterlacedYv12 width height src strideSrc strideY strideUV ↔
      PairsAlike (lumaByte src strideSrc) height width) ∧
    (DeinterlacedP01x width height src strideSrc strideY strideUV ↔
      PairsAlike (lumaByte src strideSrc) height (width * 2) ∧
        PairsAlike (chromaByte height src strideSrc) (height / 2) (width * 2)) :=
  ⟨permuted_bijOn (by omega), deinterlacedYUY2_iff h, deinterlacedNv12_iff h,
    deinterlacedYv12_iff h, deinterlacedP01x_iff h⟩

/-- An image of four lines whose bytes are their addresses. -/
theorem deinterlaced_iff_four :
    (DeinterlacedNv12 2 4 (fun a => UInt8.ofInt a) 2 2 2 ↔
      PairsAlike (lumaByte (fun a => UInt8.ofInt a) 2) 4 2 ∧
        PairsAlike (chromaByte 4 (fun a => UInt8.ofInt a) 2) 2 2) :=
  (deinterlaced_iff 2 (by decide) (fun a => UInt8.ofInt a) 2 2 2).2.2.1

/-- Its third output line is the first source line once more. -/
theorem even_lines_twice : ¬ DeinterlacedNv12 2 4 (fun a => UInt8.ofInt a) 2 2 2 := by
  intro h
  have hthird := h.1 2 (by decide) 0 (by decide)
  revert hthird
  decide

end DWindow.Renderer
