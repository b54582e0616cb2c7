import DWindow.Srt.Load
import DWindow.Srt.OffsetMetadata

/-!
# Saving the subtitles

`save` writes UTF-16 with a byte order mark: for each subtitle its number, its times, its
text with an offset tag in front if it has an offset, and an empty line.  `wprintf` on a
binary file writes the characters as they are.  No result stands for a text that does not
fit into `text`, or a time that does not fit into 15 characters.

The second half of `load_offset_metadata` gives offsets to the subtitles.
-/

namespace DWindow.Srt

open CInt Decimal LittleEndian WString

/-- `%0wd`, and `%d` for `w = 0`. -/
def printInt (w : Nat) (n : Int) : List UInt16 :=
  if n < 0 then 45 :: padded (w - 1) n.natAbs else padded w n.toNat

def decimalToTime (decimal : Int) : List UInt16 :=
  printInt 2 (decimal.tdiv 3600000) ++ 58 ::
    (printInt 2 ((decimal.tmod 3600000).tdiv 60000) ++ 58 ::
      (printInt 2 ((decimal.tmod 60000).tdiv 1000) ++ 44 :: printInt 3 (decimal.tmod 1000)))

/-- The loop at `replace`: a return in front of every newline that has none, behind the
character `prev`. -/
def insertReturns (prev : UInt16) : List UInt16 → List UInt16
  | [] => []
  | c :: cs =>
    if c = 10 ∧ prev ≠ 13 then 13 :: 10 :: insertReturns 10 cs else c :: insertReturns c cs

/-- The text that is written; its first character is left alone. -/
def returned : List UInt16 → List UInt16
  | [] => []
  | c :: cs => c :: insertReturns c cs

def tag (hasOffset : Bool) (offset : Int) : List UInt16 :=
  if hasOffset then offsetTag ++ (printInt 0 offset ++ [62]) else []

def unitBytes (c : UInt16) : List UInt8 := toLE 2 c.toNat

def crlf : List UInt16 := [13, 10]

namespace SrtParser

/-- What `save` writes for subtitle `i`. -/
def saveEntry (s : SrtParser) (i : Nat) (e : SubtitleIndex) : Option (List UInt16) :=
  let start := decimalToTime e.timeStart
  let stop := decimalToTime e.timeEnd
  let text := returned (cstrAt s.mTextData e.pos)
  if start.length < 15 ∧ stop.length < 15 ∧ text.length < lineSize then
    some (decimal (i + 1) ++ crlf ++ (start ++ 32 :: (arrow ++ 32 :: stop)) ++ crlf ++
      (tag e.hasOffset e.offset ++ text) ++ crlf ++ crlf)
  else none

/-- `save`: the bytes of the file. -/
def save (s : SrtParser) : Option (List UInt8) :=
  (s.mIndex.zipIdx.mapM fun e => s.saveEntry e.2 e.1).map fun entries =>
    0xFF :: 0xFE :: entries.flatten.flatMap unitBytes

end SrtParser

/-! ## Offsets from metadata -/

/-- The most common offset: the least of those that occur most often. -/
def mostCommon (offsets : List Int) : Int :=
  ((List.range 256).foldl (fun (found : Nat × Int) (j : Nat) =>
    if offsets.count ((j : Int) - 128) > found.1 then
      (offsets.count ((j : Int) - 128), (j : Int) - 128)
    else found) (0, 0)).2

/-- The offset of a subtitle whose frames have offsets.  Numbers too large for the product
make the first frame negative, and `offset_data` is read in front of its beginning. -/
def setOffset (fps : Int) (frameCount : Nat) (data : List UInt8) (e : SubtitleIndex) :
    Option SubtitleIndex :=
  let frameStart := (toInt32 (e.timeStart * fps)).tdiv 1001
  let frameEnd := (toInt32 (e.timeEnd * fps)).tdiv 1001
  if frameStart < frameCount ∧ frameEnd < frameCount then
    if frameStart < 0 ∧ frameStart ≤ frameEnd then none
    else
      some { e with
        hasOffset := true
        offset := mostCommon ((List.range (frameEnd - frameStart + 1).toNat).map fun k =>
          offsetAt data (frameStart.toNat + k)) }
  else some e

/-- `load_offset_metadata`, of a file that can be opened. -/
def SrtParser.loadOffsetMetadata (s : SrtParser) (stack heap file : List UInt8) :
    Option (SrtParser × Int) :=
  match loadOffsetData stack heap file with
  | none => some (s, -1)
  | some (fps, frameCount, data) =>
    (s.mIndex.mapM (setOffset fps frameCount data)).map fun index => ({ s with mIndex := index }, 0)

end DWindow.Srt
