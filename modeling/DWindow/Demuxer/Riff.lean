import DWindow.Lib.ByteOrder
import DWindow.Lib.CInt

/-!
# The demuxer of 3dv files

`3dvDemuxer.cpp`: `demux_riff` walks the chunks of a file and hands each to `handle_data`,
which fills in the streams; and `FillBuffer` of the source filter, which looks packets up in
their tables.  `handle_data` changes nothing that `demux_riff` reads, so the chunks of a file
are a list of their own.

A handler that touches stream number -1, or a loop that runs past the end of its table, has
no result.  `malloc` finds memory, `type` is the kind of a stream; the file and the lock in a
stream are left out.
-/

namespace DWindow.Demuxer

open CInt BigEndian LittleEndian

/-- A file, and what memory holds where nothing was read: the array of `handle_data` on the
stack and the tables on the heap, by the place of their chunk. -/
structure Source where
  file : List UInt8
  stack : Nat → Nat → UInt8
  heap : Nat → Nat → UInt8

/-- A chunk: its four characters, and place and size of its data. -/
structure Chunk where
  fourcc : Nat
  index : Nat
  size : Nat
deriving DecidableEq, Repr

/-! ## The chunks of a file -/

def Source.byte (src : Source) (i : Nat) : UInt8 := src.file.getD i 0

/-- `is_valid_fourcc`: all bytes from `'1'` to `'z'`. -/
def isValidFourcc (fourcc : Nat) : Bool := (toLE 4 fourcc).all fun b => 49 ≤ b && b ≤ 122

/-- The size in front of a chunk, less its header. -/
def Source.dataSize (src : Source) (index : Nat) : Nat :=
  toDWORD ((readDWORD src.byte index : Int) - 8)

def Source.fourcc (src : Source) (index : Nat) : Nat := readDWORD src.byte (index + 4)

/-- `demux_riff`, given what stands at the places of the file: what it returns, and the
chunks it hands to `handle_data`. -/
def demuxRiff (fourcc dataSize : Nat → Nat) (index size : Nat) : Int × List Chunk :=
  if size < 8 then (0, [])
  else if size - 8 < dataSize index ∨ ¬isValidFourcc (fourcc index) then (-1, [])
  else
    let children :=
      if 16 ≤ size ∧ isValidFourcc (fourcc (index + 8)) ∧ dataSize (index + 8) ≤ size - 16 then
        (demuxRiff fourcc dataSize (index + 8) (dataSize index)).2
      else []
    let next := demuxRiff fourcc dataSize (index + (8 + dataSize index))
      (size - (8 + dataSize index))
    (next.1, ⟨fourcc index, index + 8, dataSize index⟩ :: (children ++ next.2))
termination_by size

/-- The walk through the whole file; `ftell` fails where the size is no `long`. -/
def Source.demux (src : Source) : Int × List Chunk :=
  if src.file.length < 2147483648 then demuxRiff src.fourcc src.dataSize 0 src.file.length
  else (0, [])

/-! ## The handlers -/

/-- The chunks that `handle_data` knows. -/
inductive Tag
  | trak | tkhd | mdhd | vmhd | smhd | stsd | stsz | stco | stss
deriving DecidableEq, Repr

def Tag.code : Tag → Nat
  | .trak => 0x7472616b
  | .tkhd => 0x746b6864
  | .mdhd => 0x6d646864
  | .vmhd => 0x766d6864
  | .smhd => 0x736d6864
  | .stsd => 0x73747364
  | .stsz => 0x7374737a
  | .stco => 0x7374636f
  | .stss => 0x73747373

/-- The case that `switch` takes. -/
def Chunk.tag (c : Chunk) : Option Tag :=
  [Tag.trak, .tkhd, .mdhd, .vmhd, .smhd, .stsd, .stsz, .stco, .stss].find? (·.code = c.fourcc)

/-- `stream_3dv`. -/
structure Stream where
  type : Int
  packetCount : Int
  length : Int
  cbr : Int
  packetIndex : Option (List Nat)
  packetSize : Option (List Nat)
  keyframeCount : Int
  keyframes : Option (List Nat)
  maxPacketSize : Nat
  timeUnits : Int
  timeInUnits : Int
  audioSampleRate : Int
  audioBitDepth : Int
  audioChannel : Int
deriving DecidableEq, Repr

/-- A stream that `memset` has cleared. -/
def Stream.zero : Stream := ⟨0, 0, 0, 0, none, none, 0, none, 0, 0, 0, 0, 0, 0⟩

/-- `data` of `handle_data`: 200 bytes at most are read. -/
def Source.data (src : Source) (c : Chunk) (i : Nat) : UInt8 :=
  ((src.file.drop c.index).take (min c.size 200)).getD i (src.stack c.index i)

/-- An `int` field of a chunk. -/
def Source.field (src : Source) (c : Chunk) (i : Nat) : Int := toInt32 (readDWORD (src.data c) i)

def reverseByteOrder (input : Nat) : Nat := ofLE (toLE 4 input).reverse

/-- How many entries `malloc(sizeof(DWORD) * count)` holds. -/
def entries (count : Int) : Nat := toDWORD (4 * count) / 4

/-- A table that `malloc` made and `fread` filled from a place of the file. -/
def Source.table (src : Source) (c : Chunk) (offset : Nat) (count : Int) : List Nat :=
  (List.range (entries count)).map fun i =>
    ofLE ((List.range 4).map fun k =>
      (src.file.drop (c.index + offset)).getD (4 * i + k) (src.heap c.index (4 * i + k)))

def reverseEntries (count : Int) (table : List Nat) : Option (List Nat) :=
  if (table.length : Int) < count then none
  else some ((table.take count.toNat).map reverseByteOrder ++ table.drop count.toNat)

/-- A case of `handle_data` other than `'trak'`. -/
def Source.handleTag (src : Source) (c : Chunk) (s : Stream) : Tag → Option Stream
  | .trak => some s
  | .tkhd => some { s with length := src.field c 20 }
  | .mdhd => some { s with timeUnits := src.field c 12, timeInUnits := src.field c 16 }
  | .vmhd => some { s with type := 0 }
  | .smhd => some { s with type := 1 }
  | .stsd =>
    if s.type = 1 then
      some { s with
        type := if src.data c 11 = 0x55 then 1 else 2
        audioChannel := (src.data c 33).toNat
        audioBitDepth := (src.data c 35).toNat
        audioSampleRate := readWORD (src.data c) 40 }
    else some s
  | .stsz =>
    let s := { s with cbr := src.field c 4, packetCount := src.field c 8 }
    if s.cbr = 0 then
      (reverseEntries s.packetCount (src.table c 12 s.packetCount)).map fun table =>
        { s with
          packetSize := some table
          maxPacketSize := (table.take s.packetCount.toNat).foldl max s.maxPacketSize }
    else some s
  | .stco =>
    (reverseEntries s.packetCount (src.table c 8 s.packetCount)).map fun table =>
      { s with packetIndex := some table }
  | .stss =>
    let s := { s with keyframeCount := src.field c 4 }
    (reverseEntries s.keyframeCount (src.table c 8 s.keyframeCount)).map fun table =>
      { s with keyframes := some ((table.take s.keyframeCount.toNat).map
          (fun entry => toDWORD ((entry : Int) - 1)) ++ table.drop s.keyframeCount.toNat) }

def Source.handleData (src : Source) (streams : List Stream) (c : Chunk) : Option (List Stream) :=
  match c.tag with
  | none => some streams
  | some .trak => some (streams ++ [Stream.zero])
  | some tag =>
    match streams.getLast? with
    | none => none
    | some currentTrack => (src.handleTag c currentTrack tag).map (streams.dropLast ++ [·])

/-- The constructor of `C3dvDemuxer`: the streams. -/
def Source.streams (src : Source) : Option (List Stream) := src.demux.2.foldlM src.handleData []

/-! ## The packets of a stream -/

/-- A sample: its length, the place of its bytes in the file, and its times. -/
structure Sample where
  length : Nat
  place : Nat
  rtStart : Int
  rtStop : Int
deriving DecidableEq, Repr

structure Pin where
  stream : Stream
  mFrameNumber : Int
  mStreamStart : Int
deriving DecidableEq, Repr

def entry (table : Option (List Nat)) (i : Int) : Option Nat :=
  table.bind fun t => if 0 ≤ i then t[i.toNat]? else none

/-- `m_frame_number + k` in time. -/
def Pin.time (p : Pin) (k : Int) : Int :=
  toInt64 ((toInt64 (toInt64 ((p.mFrameNumber + k) * p.stream.length) * 10000)).tdiv
    p.stream.packetCount - p.mStreamStart)

/-- `FillBuffer`: no sample is `S_FALSE`; there is no result where it looks an entry up that
no table has. -/
def Pin.fillBuffer (p : Pin) : Option (Option Sample × Pin) :=
  if p.stream.packetCount ≤ p.mFrameNumber then some (none, p)
  else do
    let frameSize ← if p.stream.cbr = 0 then entry p.stream.packetSize p.mFrameNumber
      else some (toDWORD p.stream.cbr)
    let place ← entry p.stream.packetIndex p.mFrameNumber
    some (some ⟨frameSize, place, p.time 1, p.time 2⟩,
      { p with mFrameNumber := p.mFrameNumber + 1 })

end DWindow.Demuxer
