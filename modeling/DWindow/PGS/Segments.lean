import DWindow.Lib.ByteOrder

/-!
# The segments of a PGS stream

`parse_raw_element` of `PGSParser.cpp` and the handlers it calls, over the members
of the parser that outlive a segment.  A picture is collected in
`m_current_subtitle`: a window, a palette and the object data, then a display
segment that gives it the time of its presentation segment as its start.  The
next presentation segment ends it and puts it on the list, unless the list has
one with nearly the same times.

A handler gets the memory at its payload, not only the payload, and may look
behind its end.  `YUV2RGB` computes in floating point and is a parameter.  No
result stands for a crash: an object segment too short for its header makes
`memcpy` copy a negative count, and there is room for 40960 subtitles.  The
decoded picture `rgb` is empty in every subtitle a parser holds and left out.
-/

namespace DWindow.PGS

open BigEndian

inductive HRESULT
  | ok
  | sFalse
  | eFail
deriving DecidableEq, Repr

/-- `pgs_subtitle`. -/
structure Subtitle where
  start : Int
  stop : Int
  windowLeft : Int
  windowTop : Int
  windowWidth : Int
  windowHeight : Int
  left : Int
  top : Int
  width : Int
  height : Int
  rleSize : Nat
  palette : List UInt32
  rle : Option (List UInt8)
deriving DecidableEq, Repr

/-- After `memset(…, 0, sizeof(pgs_subtitle))`. -/
def Subtitle.zero : Subtitle :=
  ⟨0, 0, 0, 0, 0, 0, 0, 0, 0, 0, 0, List.replicate 256 0, none⟩

/-- The same with `start = -1`: no display segment yet. -/
def Subtitle.empty : Subtitle := { Subtitle.zero with start := -1 }

/-- A picture that a presentation segment ends. -/
def Subtitle.complete (s : Subtitle) : Bool :=
  s.start != -1 && s.rle.isSome && decide (0 < s.width) && decide (s.width < 4096) &&
    decide (0 < s.height) && decide (s.height < 4096)

def Subtitle.near (i s : Subtitle) : Bool :=
  decide ((i.start - s.start).natAbs < 10) && decide ((i.stop - s.stop).natAbs < 10)

/-- The members of `PGSParser` but the buffer. -/
structure Decoder where
  mTotalWidth : Nat
  mTotalHeight : Nat
  mSubtitles : List Subtitle
  mPossibleStart : Int
  mCurrentSubtitle : Subtitle
  mHasSeg : Bool
deriving DecidableEq, Repr

def maxSubtitles : Nat := 40960

namespace Decoder

/-- `reset`: the size of the video and `m_possible_start` keep what they were,
which is anything in a new parser. -/
def reset (d : Decoder) : Decoder :=
  { d with mSubtitles := [], mHasSeg := false, mCurrentSubtitle := .empty }

def seek (d : Decoder) : Decoder := { d with mCurrentSubtitle := .empty, mHasSeg := false }

/-- The ordinary end of `parsePresentaionSegment`. -/
def present (d : Decoder) (data : Nat → UInt8) (size : Nat) (time : Int) : Decoder :=
  let d := { d with mCurrentSubtitle := .empty, mPossibleStart := time, mHasSeg := true }
  if size ≥ 4 then { d with mTotalWidth := readWORD data 0, mTotalHeight := readWORD data 2 } else d

def parsePresentaionSegment (d : Decoder) (data : Nat → UInt8) (size : Nat) (time : Int) :
    Option (Decoder × HRESULT) :=
  if d.mCurrentSubtitle.complete then
    let current := { d.mCurrentSubtitle with stop := time }
    if d.mSubtitles.any (fun i => i.near current) then
      some ({ d with mCurrentSubtitle := .zero }, .sFalse)
    else if d.mSubtitles.length < maxSubtitles then
      some ({ d with mSubtitles := d.mSubtitles ++ [current] }.present data size time, .ok)
    else none
  else some (d.present data size time, .ok)

/-- The handlers of the other segments do nothing before the first presentation
segment, and then change the current picture alone. -/
def edit (d : Decoder) (f : Subtitle → Option (Subtitle × HRESULT)) : Option (Decoder × HRESULT) :=
  if d.mHasSeg = false then some (d, .ok)
  else (f d.mCurrentSubtitle).map (fun r => ({ d with mCurrentSubtitle := r.1 }, r.2))

def parseWindow (d : Decoder) (data : Nat → UInt8) (size : Nat) : Option (Decoder × HRESULT) :=
  d.edit fun s =>
    if data 0 = 0 ∨ size < 10 then some (s, .ok)
    else
      some ({ s with
        windowLeft := readWORD data 2
        windowTop := readWORD data 4
        windowWidth := readWORD data 6
        windowHeight := readWORD data 8 }, .ok)

/-- The loop of `parsePalette` over its colors. -/
def setColors (yuv2rgb : UInt8 → UInt8 → UInt8 → UInt8 → UInt32) (data : Nat → UInt8)
    (nColors : Nat) (palette : List UInt32) : List UInt32 :=
  (List.range nColors).foldl (fun palette i =>
    palette.set (data (2 + 5 * i)).toNat
      (yuv2rgb (data (2 + 5 * i + 1)) (data (2 + 5 * i + 2)) (data (2 + 5 * i + 3))
        (data (2 + 5 * i + 4)))) palette

def parsePalette (yuv2rgb : UInt8 → UInt8 → UInt8 → UInt8 → UInt32) (d : Decoder)
    (data : Nat → UInt8) (size : Nat) : Option (Decoder × HRESULT) :=
  d.edit fun s =>
    let nColors := (size - 2) / 5
    if nColors ≥ 256 then some (s, .eFail)
    else some ({ s with palette := setColors yuv2rgb data nColors s.palette }, .ok)

/-- The bytes `a, …, b - 1` behind a pointer. -/
def bytesAt (data : Nat → UInt8) (a b : Nat) : List UInt8 :=
  (List.range (b - a)).map (fun i => data (a + i))

/-- The first object segment of a picture gives its size and, with the window, its
place; a later one is more object data. -/
def parseObject (d : Decoder) (data : Nat → UInt8) (size : Nat) : Option (Decoder × HRESULT) :=
  d.edit fun s =>
    if s.rleSize = 0 then
      if size < 11 then none
      else
        let width : Int := readWORD data 7
        let height : Int := readWORD data 9
        some ({ s with
          width := width
          height := height
          left := s.windowLeft + (s.windowWidth - width).tdiv 2
          top := s.windowTop + (s.windowHeight - height).tdiv 2
          rleSize := size - 11
          rle := some (bytesAt data 11 size) }, .ok)
    else if size < 4 then none
    else
      some ({ s with
        rleSize := s.rleSize + (size - 4)
        rle := some (s.rle.getD [] ++ bytesAt data 4 size) }, .ok)

def parseDisplay (d : Decoder) : Option (Decoder × HRESULT) :=
  d.edit fun s => some ({ s with start := d.mPossibleStart }, .ok)

/-- `parse_raw_element`; it only reports an `end` of zero. -/
def parseRawElement (yuv2rgb : UInt8 → UInt8 → UInt8 → UInt8 → UInt32) (d : Decoder)
    (data : Nat → UInt8) (type : UInt8) (size : Nat) (start : Int) : Option (Decoder × HRESULT) :=
  if type = 0x16 then d.parsePresentaionSegment data size start
  else if type = 0x17 then d.parseWindow data size
  else if type = 0x14 then parsePalette yuv2rgb d data size
  else if type = 0x15 then d.parseObject data size
  else if type = 0x80 then d.parseDisplay
  else if type = 0x18 ∨ type = 0x81 ∨ type = 0x82 then some (d, .ok)
  else some (d, .eFail)

end Decoder

end DWindow.PGS
