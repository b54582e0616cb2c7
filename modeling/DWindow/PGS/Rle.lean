import DWindow.Lib.Looking
import DWindow.PGS.Segments
import Mathlib.Logic.Function.Basic

/-!
# The object data of a PGS picture

`decodeRLE` of `PGSParser.cpp` as a computation that looks into the memory at `sub->rle`.  The
data are codes of one to four bytes: a new line, or a run of pixels of one color.  `Run` and
`Code` are their syntax.  Whatever the memory holds, a code stands at every place of it
(`readCode_cases`), and the bytes of a code are read back as that code (`readCode_bytes`).

A pixel that is not assigned has no value, as in memory that `malloc` gave.  Width and height
of a subtitle on the list are between 1 and 4095.
-/

namespace DWindow.PGS

open Looking

inductive Token
  | newLine
  | run (nPixel : Nat) (color : UInt8)
deriving DecidableEq, Repr

/-- The token at `idx`, and the index behind it. -/
def readCode (idx : Nat) : Looking UInt8 (Token × Nat) := do
  let b ← peek idx
  if b = 0 then
    let b ← peek (idx + 1)
    if b = 0 then pure (.newLine, idx + 2)
    else if b &&& 0xC0 = 0x40 then
      let low ← peek (idx + 2)
      pure (.run ((b.toNat - 0x40) * 256 + low.toNat) 0, idx + 3)
    else if b &&& 0xC0 = 0x80 then
      let color ← peek (idx + 2)
      pure (.run (b.toNat - 0x80) color, idx + 3)
    else if b &&& 0xC0 ≠ 0 then
      let low ← peek (idx + 2)
      let color ← peek (idx + 3)
      pure (.run ((b.toNat - 0xC0) * 256 + low.toNat) color, idx + 4)
    else pure (.run b.toNat 0, idx + 2)
  else pure (.run 1 b, idx + 1)

/-- The variables of the loop of `decodeRLE`, and the pixels it has assigned. -/
structure Decoding where
  pos : Nat
  idx : Nat
  xpos : Nat
  decoded : Nat → Option UInt32

namespace Decoding

/-- The `for` over the pixels of a run.  Where it returns, at the end of the bitmap, the
`while` would end as well. -/
def fill (size : Nat) (pixel : UInt32) : Nat → Decoding → Decoding
  | 0, d => d
  | n + 1, d =>
    if d.pos ≥ size then d
    else fill size pixel n
      { d with pos := d.pos + 1, decoded := Function.update d.decoded d.pos (some pixel) }

def put (width size : Nat) (palette : List UInt32) (d : Decoding) : Token → Decoding
  | .newLine =>
    { d with
      pos := if d.xpos < width then d.pos + (width - d.pos % width) else d.pos - d.pos % width
      xpos := 0 }
  | .run nPixel color =>
    fill size (palette.getD color.toNat 0) nPixel { d with xpos := d.xpos + nPixel }

def start : Decoding := ⟨0, 0, 0, fun _ => none⟩

/-- The `do … while` of `decodeRLE`, for as many rounds. -/
def loop (width size rleSize : Nat) (palette : List UInt32) :
    Nat → Decoding → Looking UInt8 (Option Decoding)
  | 0, _ => pure none
  | rounds + 1, d => do
    let code ← readCode d.idx
    let d := { d with idx := code.2 }.put width size palette code.1
    if d.pos < size ∧ d.idx < rleSize then loop width size rleSize palette rounds d
    else pure (some d)

end Decoding

def Subtitle.area (sub : Subtitle) : Nat := sub.width.toNat * sub.height.toNat

/-- `decodeRLE`; `room` says that `malloc` finds room for the bitmap. -/
def decodeRLE (room : Bool) (sub : Subtitle) : Looking UInt8 (HRESULT × Option Decoding) :=
  if sub.rle.isNone then pure (.eFail, none)
  else if room = false then pure (.eFail, none)
  else do
    let d ← Decoding.loop sub.width.toNat sub.area sub.rleSize sub.palette (sub.rleSize + 1) .start
    pure (.ok, d)

/-- The memory at the pointer to a block, with what stands behind the block. -/
def memory (data : List UInt8) (behind : Nat → UInt8) (i : Nat) : UInt8 :=
  data.getD i (behind i)

/-! ## The syntax -/

/-- A run: one pixel, a short or a long run of color 0, a short or a long run of a color. -/
inductive Run
  | pixel (color : UInt8) (h : color ≠ 0)
  | zeros (n : Nat) (h : 0 < n ∧ n < 64)
  | longZeros (n : Nat) (h : n < 16384)
  | colors (n : Nat) (h : n < 64) (color : UInt8)
  | longColors (n : Nat) (h : n < 16384) (color : UInt8)
deriving DecidableEq

namespace Run

def count : Run → Nat
  | pixel _ _ => 1
  | zeros n _ => n
  | longZeros n _ => n
  | colors n _ _ => n
  | longColors n _ _ => n

def color : Run → UInt8
  | pixel c _ => c
  | zeros _ _ => 0
  | longZeros _ _ => 0
  | colors _ _ c => c
  | longColors _ _ c => c

def bytes : Run → List UInt8
  | pixel c _ => [c]
  | zeros n _ => [0, UInt8.ofNat n]
  | longZeros n _ => [0, UInt8.ofNat (0x40 + n / 256), UInt8.ofNat (n % 256)]
  | colors n _ c => [0, UInt8.ofNat (0x80 + n), c]
  | longColors n _ c => [0, UInt8.ofNat (0xC0 + n / 256), UInt8.ofNat (n % 256), c]

def pixels (r : Run) : List UInt8 := List.replicate r.count r.color

@[simp] theorem length_pixels (r : Run) : r.pixels.length = r.count := List.length_replicate

end Run

/-- A code: a run, or a new line. -/
inductive Code
  | run (r : Run)
  | newLine
deriving DecidableEq

namespace Code

def bytes : Code → List UInt8
  | run r => r.bytes
  | newLine => [0, 0]

def token : Code → Token
  | run r => .run r.count r.color
  | newLine => .newLine

end Code

/-- The bytes stand in the memory from `idx` on. -/
def Stands (mem : Nat → UInt8) : Nat → List UInt8 → Prop
  | _, [] => True
  | idx, b :: bytes => mem idx = b ∧ Stands mem (idx + 1) bytes

theorem stands_append {mem : Nat → UInt8} {l m : List UInt8} {idx : Nat} :
    Stands mem idx (l ++ m) ↔ Stands mem idx l ∧ Stands mem (idx + l.length) m := by
  induction l generalizing idx with
  | nil => exact (iff_of_eq (true_and _)).symm
  | cons b l ih =>
    rw [List.cons_append, Stands, Stands, ih, and_assoc, List.length_cons, Nat.add_assoc idx 1,
      Nat.add_comm 1]

/-- The bytes of a block stand where they are in the block. -/
theorem stands_memory {data : List UInt8} {behind : Nat → UInt8} {l : List UInt8} {idx : Nat}
    (h : idx + l.length ≤ data.length) :
    Stands (memory data behind) idx l ↔ l <+: data.drop idx := by
  induction l generalizing idx with
  | nil => simp [Stands]
  | cons b l ih =>
    rw [List.length_cons] at h
    have hidx : idx < data.length := by omega
    have hmem : memory data behind idx = data[idx] := by
      rw [memory, List.getD_eq_getElem?_getD, List.getElem?_eq_getElem hidx, Option.getD_some]
    rw [Stands, hmem, ih (by omega), List.drop_eq_getElem_cons hidx, List.cons_prefix_cons,
      eq_comm]

/-! ## The bytes of a code -/

theorem short_byte : ∀ n : Fin 64, 0 < n.val →
    UInt8.ofNat n ≠ 0 ∧ UInt8.ofNat n &&& 0xC0 = 0 ∧ (UInt8.ofNat n).toNat = n := by
  decide

/-- The second byte of the other runs: a mark in the upper bits, and six bits of the count. -/
theorem marked_byte : ∀ mark ∈ [0x40, 0x80, 0xC0], ∀ n : Fin 64,
    UInt8.ofNat (mark + n) ≠ 0 ∧ UInt8.ofNat (mark + n) &&& 0xC0 = UInt8.ofNat mark ∧
      (UInt8.ofNat (mark + n)).toNat = mark + n := by
  decide

theorem byte_cases {k : Nat} (hk : k < 256) :
    k < 64 ∨ ∃ mark ∈ [0x40, 0x80, 0xC0], ∃ n < 64, k = mark + n := by
  by_cases h1 : k < 64
  · exact .inl h1
  right
  by_cases h2 : k < 128
  · exact ⟨0x40, by simp, k - 0x40, by omega, by omega⟩
  by_cases h3 : k < 192
  · exact ⟨0x80, by simp, k - 0x80, by omega, by omega⟩
  · exact ⟨0xC0, by simp, k - 0xC0, by omega, by omega⟩

section Codes

variable {mem : Nat → UInt8} {idx : Nat}

/-- **The bytes of a code are read back** as the code, and no byte behind them is looked at. -/
theorem readCode_bytes {c : Code} (h : Stands mem idx c.bytes) :
    (readCode idx).value mem = (c.token, idx + c.bytes.length) ∧
      (readCode idx).places mem = List.range' idx c.bytes.length := by
  cases c with
  | newLine =>
    obtain ⟨h0, h1, -⟩ := h
    constructor
    · simp [readCode, h0, h1, Code.token, Code.bytes]
    · simp [readCode, h0, h1, Code.bytes, List.range']
  | run r =>
    cases r with
    | pixel c hc =>
      obtain ⟨h0, -⟩ := h
      constructor
      · simp [readCode, h0, hc, Code.token, Code.bytes, Run.bytes, Run.count, Run.color]
      · simp [readCode, h0, hc, Code.bytes, Run.bytes]
    | zeros n hn =>
      obtain ⟨h0, h1, -⟩ := h
      have hbyte := short_byte ⟨n, hn.2⟩ hn.1
      rw [← h1] at hbyte
      obtain ⟨hne, hmark, hval⟩ := hbyte
      constructor
      · simp [readCode, h0, hne, hmark, hval, Code.token, Code.bytes, Run.bytes, Run.count,
          Run.color]
      · simp [readCode, h0, hne, hmark, Code.bytes, Run.bytes, List.range']
    | longZeros n hn =>
      obtain ⟨h0, h1, h2, -⟩ := h
      have hbyte := marked_byte 0x40 (by decide) ⟨n / 256, by omega⟩
      rw [← h1] at hbyte
      obtain ⟨hne, hmark, hval⟩ := hbyte
      have hcount : n / 256 * 256 + n % 256 = n := Nat.div_add_mod' n 256
      constructor
      · simp [readCode, h0, h2, hne, hmark, hval, hcount, Code.token, Code.bytes, Run.bytes,
          Run.count, Run.color]
      · simp [readCode, h0, hne, hmark, Code.bytes, Run.bytes, List.range']
    | colors n hn c =>
      obtain ⟨h0, h1, h2, -⟩ := h
      have hbyte := marked_byte 0x80 (by decide) ⟨n, hn⟩
      rw [← h1] at hbyte
      obtain ⟨hne, hmark, hval⟩ := hbyte
      constructor
      · simp [readCode, h0, h2, hne, hmark, hval, Code.token, Code.bytes, Run.bytes, Run.count,
          Run.color]
      · simp [readCode, h0, hne, hmark, Code.bytes, Run.bytes, List.range']
    | longColors n hn c =>
      obtain ⟨h0, h1, h2, h3, -⟩ := h
      have hbyte := marked_byte 0xC0 (by decide) ⟨n / 256, by omega⟩
      rw [← h1] at hbyte
      obtain ⟨hne, hmark, hval⟩ := hbyte
      have hcount : n / 256 * 256 + n % 256 = n := Nat.div_add_mod' n 256
      constructor
      · simp [readCode, h0, h2, h3, hne, hmark, hval, hcount, Code.token, Code.bytes, Run.bytes,
          Run.count, Run.color]
      · simp [readCode, h0, hne, hmark, Code.bytes, Run.bytes, List.range']

/-- **A code stands at every place** of a memory. -/
theorem exists_code (mem : Nat → UInt8) (idx : Nat) : ∃ c : Code, Stands mem idx c.bytes := by
  by_cases h0 : mem idx = 0
  swap
  · exact ⟨.run (.pixel (mem idx) h0), rfl, trivial⟩
  have hlow := (mem (idx + 2)).toNat_lt
  have hmod : ∀ n, UInt8.ofNat ((n * 256 + (mem (idx + 2)).toNat) % 256) = mem (idx + 2) := by
    intro n
    rw [Nat.mul_add_mod_of_lt hlow, UInt8.ofNat_toNat]
  have hdiv : ∀ n, (n * 256 + (mem (idx + 2)).toNat) / 256 = n := by
    intro n
    omega
  have hb : mem (idx + 1) = UInt8.ofNat (mem (idx + 1)).toNat := (UInt8.ofNat_toNat).symm
  rcases byte_cases (mem (idx + 1)).toNat_lt with hshort | ⟨mark, hmark, n, hn, hk⟩
  · by_cases h1 : (mem (idx + 1)).toNat = 0
    · exact ⟨.newLine, h0, by rw [hb, h1]; rfl, trivial⟩
    · exact ⟨.run (.zeros _ ⟨Nat.pos_of_ne_zero h1, hshort⟩), h0, hb, trivial⟩
  · rw [hk] at hb
    simp only [List.mem_cons, List.not_mem_nil, or_false] at hmark
    obtain rfl | rfl | rfl := hmark
    · refine ⟨.run (.longZeros (n * 256 + (mem (idx + 2)).toNat) (by omega)), h0, ?_, ?_, trivial⟩
      · rw [hb, hdiv]
      · exact (hmod n).symm
    · exact ⟨.run (.colors n hn (mem (idx + 2))), h0, hb, rfl, trivial⟩
    · refine ⟨.run (.longColors (n * 256 + (mem (idx + 2)).toNat) (by omega) (mem (idx + 3))), h0,
        ?_, ?_, rfl, trivial⟩
      · rw [hb, hdiv]
      · exact (hmod n).symm

end Codes

end DWindow.PGS
