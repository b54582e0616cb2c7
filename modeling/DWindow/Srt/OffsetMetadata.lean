import DWindow.Lib.ByteFile
import DWindow.Lib.CInt
import DWindow.Lib.CString
import DWindow.Lib.ByteOrder

/-!
# Reading an offset-metadata file

The front half of `srt_parser::load_offset_metadata`: the header is checked and
the bytes of the points are widened in place to the integers of `offset_data`,
from the last one down.  What the header and `offset_data` held before anything
was read into them are parameters.
-/

namespace DWindow.Srt

open ByteFile CInt CString LittleEndian

/-- `sizeof(my12doom_offset_metadata_header)`. -/
def offsetHeaderSize : Nat := 20

/-- Field `i` of the header. -/
def headerField (header : List UInt8) (i : Nat) : Nat := ofLE ((header.drop (4 * i)).take 4)

/-- `(int)((double)numerator / denumerator)`. -/
def quotientFps (numerator denumerator : Nat) : Int :=
  if denumerator = 0 ∨ 2 ^ 31 ≤ numerator / denumerator then -2 ^ 31
  else (numerator / denumerator : Nat)

/-- `offset_data[i]`, in the bytes of `offset_data`. -/
def offsetAt (data : List UInt8) (i : Nat) : Int := toInt32 (ofLE ((data.drop (4 * i)).take 4))

/-- `bs` written at `p`. -/
def writeAt (data : List UInt8) (p : Nat) (bs : List UInt8) : List UInt8 :=
  data.take p ++ bs ++ data.drop (p + bs.length)

/-- The widening loop, for `i = n - 1, …, 0`. -/
def widen : Nat → List UInt8 → List UInt8
  | 0, data => data
  | i + 1, data =>
    let frame := data.getD i 0
    widen i (writeAt data (4 * i) (toLE 4 (signMagnitude frame % 2 ^ 32).toNat))

/-- `load_offset_metadata` up to the end of that loop: the frame rate, the number
of frames and `offset_data`, or `none` for the `-1` it returns. -/
def loadOffsetData (stack heap file : List UInt8) : Option (Int × Nat × List UInt8) :=
  let header := overlay (file.take offsetHeaderSize) stack
  let pointCount := headerField header 2
  if headerField header 1 ≠ 1 then none
  else if header.take 4 ≠ ascii ['o', 'f', 'f', 's'] then none
  else if pointCount > 512000 then none
  else
    let frames := (file.drop offsetHeaderSize).take pointCount
    if frames.length ≠ pointCount then none
    else some (quotientFps (headerField header 3) (headerField header 4), pointCount,
      widen pointCount (overlay frames heap))

end DWindow.Srt
