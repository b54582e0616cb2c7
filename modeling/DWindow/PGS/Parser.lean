import DWindow.PGS.Segments

/-!
# The buffer of the PGS parser

`add_data`, `parse` and `remove_head`: what is fed is copied behind the pending
bytes, and `parse` takes elements off the front of the buffer, dropping what
stands in front of a header byte by byte.  `mData` is the whole allocation, so
that what the parser reads behind the pending bytes, `mData 0` and `mData 1`
among them, is what earlier data left there.  `memcpy` moves the bytes of
`remove_head` down, though they overlap.

Both loops run on fuel, one unit a byte and one more, which is enough: every round
takes at least one byte off.
-/

namespace DWindow.PGS

open BigEndian

structure PGSParser extends Decoder where
  mData : Nat → UInt8
  mDataPos : Nat

def bufferSize : Nat := 2048000

/-- `header(2) + timeStart(4) + timeEnd(4) + type(1) + seg_len(2)`. -/
def headerSize : Nat := 2 + 4 + 4 + 1 + 2

namespace PGSParser

def reset (p : PGSParser) : PGSParser :=
  { p with toDecoder := p.toDecoder.reset, mDataPos := 0 }

def seek (p : PGSParser) : PGSParser :=
  { p with toDecoder := p.toDecoder.seek, mDataPos := 0 }

def removeHead (p : PGSParser) (size : Nat) : PGSParser :=
  { p with
    mData := fun i => if i < p.mDataPos - size then p.mData (size + i) else p.mData i
    mDataPos := p.mDataPos - size }

/-- The inner loop of `parse`: whether there is a header at the front, or too
little data to go on. -/
def findHeader : Nat → PGSParser → PGSParser × Bool
  | 0, p => (p, false)
  | fuel + 1, p =>
    if p.mData 0 ≠ 80 ∨ p.mData 1 ≠ 0x47 then
      if p.mDataPos < 2 then (p, false) else findHeader fuel (p.removeHead 1)
    else (p, true)

def parse (yuv2rgb : UInt8 → UInt8 → UInt8 → UInt8 → UInt32) : Nat → PGSParser → Option PGSParser
  | 0, _ => none
  | fuel + 1, p =>
    if p.mDataPos < 2 then some p
    else
      let (p, found) := findHeader (p.mDataPos + 1) p
      if found = false then some p
      else if p.mDataPos < headerSize then some p
      else
        let timeStart := readDWORD p.mData 2 / 90
        let type := p.mData 10
        let size := readWORD p.mData 11
        if p.mDataPos < headerSize + size then some p
        else do
          let (d, _) ← p.toDecoder.parseRawElement yuv2rgb (fun i => p.mData (headerSize + i)) type
            size timeStart
          parse yuv2rgb fuel ({ p with toDecoder := d }.removeHead (headerSize + size))

/-- The copy in `add_data`. -/
def append (p : PGSParser) (data : List UInt8) : PGSParser :=
  { p with
    mData := fun i => if i < p.mDataPos then p.mData i else data.getD (i - p.mDataPos) (p.mData i)
    mDataPos := p.mDataPos + data.length }

/-- `add_data`, which always returns `S_OK`. -/
def addData (yuv2rgb : UInt8 → UInt8 → UInt8 → UInt8 → UInt32) (p : PGSParser)
    (data : List UInt8) : Option PGSParser :=
  if p.mDataPos + data.length ≥ bufferSize then some { p with mDataPos := 0 }
  else
    let p := p.append data
    parse yuv2rgb (p.mDataPos + 1) p

/-- `m_data[0..m_data_pos)`. -/
def pending (p : PGSParser) : List UInt8 := (List.range p.mDataPos).map p.mData

/-! ## The pending bytes -/

@[simp] theorem length_pending (p : PGSParser) : p.pending.length = p.mDataPos := by
  rw [pending, List.length_map, List.length_range]

theorem getElem?_pending {p : PGSParser} {i : Nat} (h : i < p.mDataPos) :
    p.pending[i]? = some (p.mData i) := by
  rw [pending, List.getElem?_map, List.getElem?_range h, Option.map_some]

theorem getD_pending {p : PGSParser} {i : Nat} (h : i < p.mDataPos) :
    p.pending.getD i 0 = p.mData i := by
  rw [List.getD_eq_getElem?_getD, getElem?_pending h, Option.getD_some]

theorem pending_removeHead (p : PGSParser) (size : Nat) :
    (p.removeHead size).pending = p.pending.drop size := by
  apply List.ext_getElem?
  intro i
  rw [List.getElem?_drop]
  by_cases hi : i < p.mDataPos - size
  · rw [getElem?_pending hi, getElem?_pending (by omega)]
    exact congrArg some (if_pos hi)
  · rw [List.getElem?_eq_none (by rw [length_pending]; exact Nat.le_of_not_lt hi),
      List.getElem?_eq_none (by rw [length_pending]; omega)]

theorem pending_append (p : PGSParser) (data : List UInt8) :
    (p.append data).pending = p.pending ++ data := by
  apply List.ext_getElem?
  intro i
  by_cases hi : i < p.mDataPos
  · rw [List.getElem?_append_left (by rw [length_pending]; exact hi), getElem?_pending hi,
      getElem?_pending (Nat.lt_add_right _ hi)]
    exact congrArg some (if_pos hi)
  · rw [List.getElem?_append_right (by rw [length_pending]; omega), length_pending]
    by_cases hd : i - p.mDataPos < data.length
    · rw [getElem?_pending (show i < p.mDataPos + data.length by omega),
        List.getElem?_eq_getElem hd]
      refine congrArg some ((if_neg hi).trans ?_)
      rw [List.getD_eq_getElem?_getD, List.getElem?_eq_getElem hd, Option.getD_some]
    · have hlen : (p.append data).pending.length ≤ i := by
        rw [length_pending]
        show p.mDataPos + data.length ≤ i
        omega
      rw [List.getElem?_eq_none hlen, List.getElem?_eq_none (by omega)]

end PGSParser

end DWindow.PGS
