import DWindow.Lib.CInt
import Mathlib.Data.List.Basic

/-!
# Access units of an H.264 stream

`nal_type`, `read_a_nal` and `read_a_delimeter` of `interlacer.cpp`: one call of
the last takes the NAL units of an access unit off the stream and keeps the
points of its offset SEI in `offset_metadata`.

The `CFileBuffer` between the feeding thread and the reader is the list of bytes
not yet removed: `wait_for_data` shows the first `max_nal_size` of them, or all
when there are fewer.  `nal_type` and the SEI parser look past that end.  What
they see there depends on what the buffer held before, so it is a parameter
`behind`: the memory behind the data when `n` bytes are left.  Running off that
memory, and the search of `read_a_nal` on one or two bytes, whose unsigned bound
wraps around, are no result.  The counters of slices and of NAL types are left
out.
-/

namespace DWindow.Mvc

open CInt

def maxNalSize : Nat := 1024000 * 5

/-- `nal_type`: the type of the unit at `data`, and the length of its start code,
`4` if there is none. -/
def nalType (data : List UInt8) : Option (Int × Nat) := do
  let d1 ← data[1]?
  let d2 ← data[2]?
  let d3 ← data[3]?
  let d4 ← data[4]?
  if d2 = 0 ∧ d3 = 1 then some ((d4 &&& 0x1f).toNat, 4)
  else if d1 = 0 ∧ d2 = 1 then some ((d3 &&& 0x1f).toNat, 3)
  else some (-1, 4)

def isStartCode : List UInt8 → Bool
  | 0 :: 0 :: 0 :: 1 :: _ => true
  | 0 :: 0 :: 1 :: _ => true
  | _ => false

/-- The search of `read_a_nal`: `n` places from place `i` on. -/
def findStartCode : Nat → Nat → List UInt8 → Option Nat
  | 0, _, _ => none
  | n + 1, i, l => if isStartCode l then some i else findStartCode n (i + 1) l.tail

/-- `read_a_nal`: the size of the unit at the front of the stream. -/
def readANal (rest : List UInt8) : Option Nat :=
  let readBuffer := rest.take maxNalSize
  let dataRead := readBuffer.length
  if dataRead = 0 then some 0
  else if dataRead < 3 then none
  else some ((findStartCode (dataRead - 3 - 3) 3 (readBuffer.drop 3)).getD dataRead)

def maxOffsetFrameCount : Nat := 128

/-- `offset_metadata` and `offset_metadata_count`. -/
structure OffsetMetadata where
  points : List Int
  count : Int
deriving DecidableEq, Repr

def OffsetMetadata.initial : OffsetMetadata := ⟨List.replicate maxOffsetFrameCount 0, 0⟩

/-- A number in an SEI: bytes of `0xff`, then the last one.  The sum, and what
follows. -/
def ffNumber : List UInt8 → Option (Nat × List UInt8)
  | [] => none
  | b :: bs =>
    if b = 0xff then (ffNumber bs).map (fun r => (255 + r.1, r.2)) else some (b.toNat, bs)

/-- The loop over the points: `n` of them from number `i` on, whose bytes stand at
`start` in the unit.  A point behind the end of the unit ends the loop. -/
def readPoints (data : List UInt8) (nalSize start : Nat) :
    Nat → Nat → OffsetMetadata → Option OffsetMetadata
  | 0, _, table => some table
  | n + 1, i, table =>
    if start + i > nalSize then some table
    else do
      let point ← data[start + i]?
      readPoints data nalSize start n (i + 1) ⟨table.points.set i (signMagnitude point), i + 1⟩

/-- `sizeof(offset_meta_header)`. -/
def offsetMetaHeaderSize : Nat := 30

/-- The offset SEI: the table afterwards and, if it was one, the points it left
there. -/
def parseOffsetSei (data : List UInt8) (startCodeLen nalSize : Nat) (table : OffsetMetadata) :
    Option (OffsetMetadata × Option (List Int)) := do
  let (seiType, rest) ← ffNumber (data.drop (startCodeLen + 1))
  let (seiSize, rest) ← ffNumber rest
  if seiType % 2 ^ 32 ≠ 37 ∨ seiSize % 2 ^ 32 ≤ 3 + offsetMetaHeaderSize then some (table, none)
  else
    let first : UInt8 ← rest[0]?
    if first >>> 7 ≠ 0 then some (table, none)
    else
      let payload := data.length - rest.length
      let (nestSize, rest) ← ffNumber (rest.drop 2)
      if nestSize % 2 ^ 32 ≤ offsetMetaHeaderSize then some (table, none)
      else if payload + nestSize > nalSize then some (table, none)
      else
        let pointCount : UInt8 ← rest[27]?
        let start := data.length - rest.length + offsetMetaHeaderSize
        let table ← readPoints data nalSize start (min pointCount.toNat maxOffsetFrameCount) 0
          ⟨table.points, 0⟩
        some (table, some (table.points.take table.count.toNat))

/-- What `read_a_delimeter` leaves behind: the size of the access unit, the stream
behind it, the table, and the points of the unit's last offset SEI. -/
structure Delimeter where
  size : Nat
  rest : List UInt8
  table : OffsetMetadata
  sei : Option (List Int)
deriving DecidableEq, Repr

/-- The loop of `read_a_delimeter`, one NAL unit a turn. -/
def delimeterLoop (behind : Nat → List UInt8) : Nat → Bool → Delimeter → Option Delimeter
  | 0, _, _ => none
  | fuel + 1, currentStart, d => do
    let nalSize ← readANal d.rest
    let data := d.rest.take maxNalSize ++ behind d.rest.length
    let (type, startCodeLen) ← nalType data
    let (table, sei) ←
      if type = 6 then parseOffsetSei data startCodeLen nalSize d.table else some (d.table, none)
    let sei := sei.orElse (fun _ => d.sei)
    -- a start code of three bytes is written with four
    let size := d.size + (if data[2]? = some 1 then 1 else 0) + nalSize
    let rest := d.rest.drop nalSize
    if type = 31 then delimeterLoop behind fuel currentStart ⟨d.size, rest, table, sei⟩
    else if nalSize = 0 ∨ type = 9 ∨ type = 24 then
      if currentStart ∨ nalSize = 0 then some ⟨d.size, d.rest, table, sei⟩
      else delimeterLoop behind fuel true ⟨size, rest, table, sei⟩
    else delimeterLoop behind fuel currentStart ⟨size, rest, table, sei⟩

/-- `read_a_delimeter`.  Every turn but the last takes at least a byte, or the loop
does not end. -/
def readADelimeter (behind : Nat → List UInt8) (rest : List UInt8) (table : OffsetMetadata) :
    Option Delimeter :=
  delimeterLoop behind (rest.length + 1) false ⟨0, rest, table, none⟩

end DWindow.Mvc
