import DWindow.Lib.CInt
import DWindow.Lib.Scanf
import DWindow.Lib.Utf
import DWindow.Lib.WString

/-!
# The parser of VobSub index files

`vobsub_parser.cpp`: `load_file` looks at the byte order mark, `handle_data_8` and
`handle_data_16` cut the bytes behind it into lines, and `handle_line` takes the settings
from a line.  A read past the end of the file, and any access outside a buffer or string, has
no result.

The conversions of Windows, the packets of the `.sub` file and what the stack holds where
nothing was written are given as a `World`.  `towlower` and the formats are those of the C
locale.

Packets are lists.  In the source the entry that `handle_line` stores last shares its packet
with `m_current_subtitle`, and `reset` frees both, that packet twice.
-/

namespace DWindow.VobSub

open CInt WString Scanf

/-- `CP_UTF8` and `CP_ACP`. -/
inductive CodePage
  | utf8
  | acp
deriving DecidableEq, Repr

/-- `vobsub_subtitle`, without the picture that is decoded later. -/
structure Subtitle where
  start : Int
  stop : Int
  left : Int
  top : Int
  width : Int
  height : Int
  datasize : Int
  packetsize : Int
  packet : List UInt8
deriving DecidableEq, Repr

/-- What the functions find outside: `MultiByteToWideChar` on a string,
`read_packet_from_subfile` for a language and a place, and values on the stack. -/
structure World where
  multiByteToWideChar : CodePage → List UInt8 → List UInt16
  convert_nil : ∀ codePage, multiByteToWideChar codePage [] = []
  readPacket : Int → Nat → Subtitle → Option (Bool × Subtitle)
  stack : Nat → Int

/-- `VobSubParser`.  The scales are `double`s, given as their bits. -/
structure VobSubParser where
  mTotalWidth : Int
  mTotalHeight : Int
  mScaleX : Nat
  mScaleY : Nat
  mGlobalTimeOffset : Int
  mSubFile : Bool
  mFirstLine : Bool
  mBadIndex : Bool
  mLangId : Int
  mOrgpal : List Nat
  mCuspal : List Nat
  mUseCustomColor : Bool
  mScanForLangId : Bool
  mMaxLangId : Int
  mSubtitles : List Subtitle
  mCurrentSubtitle : Subtitle
deriving DecidableEq, Repr

/-! ## Lines -/

/-- `wcsstr` finds it. -/
def has (sub : String) (str : List UInt16) : Bool := (findSub (wide sub.toList) str).isSome

/-- What follows what `wcsstr` finds. -/
def behind (sub : String) (str : List UInt16) : Option (List UInt16) :=
  (findSub (wide sub.toList) str).map fun i => str.drop (i + sub.length)

def wcslower (str : List UInt16) : List UInt16 :=
  str.map fun c => if 65 ≤ c ∧ c ≤ 90 then c + 32 else c

/-- `wcsexplode` at a colon into two; without a second part `out[1]` is never written, and a
single character does not fit into `out[0]`. -/
def explode (line : List UInt16) : Option (List UInt16 × List UInt16) :=
  match line.dropWhile (· ≠ 58) with
  | [] => none
  | [_] => none
  | _ :: part => some (line.takeWhile (· ≠ 58), part)

/-- An `int` written over the low half of a `double`. -/
def writeLow (bits : Nat) (n : Int) : Nat := bits / 4294967296 * 4294967296 + toDWORD n

def wtoi (str : List UInt16) : Int := ((Decimal.scanInt str).map fun r => toInt32 r.1).getD 0

/-- `L"%x,%x,…"`. -/
def hexList : Nat → List Directive
  | 0 => []
  | 1 => [.hex]
  | n + 2 => .hex :: .literal 44 :: hexList (n + 1)

def timeToDecimal (w : World) (str : List UInt16) : Int :=
  if str.length ≠ 12 then -1
  else
    let c := str.getD 8 0
    let v := if c = 44 ∨ c = 46 ∨ c = 58 then
        scanf [.int, .literal 58, .int, .literal 58, .int, .literal c, .int] str
      else []
    let value := fun i => toInt32 (v.getD i (w.stack i))
    toInt32 (value 0 * 3600000 + value 1 * 60000 + value 2 * 1000 + value 3)

namespace VobSubParser

/-- `m_bad_index = true` in a case. -/
def bad (p : VobSubParser) (b : Bool) : VobSubParser := { p with mBadIndex := p.mBadIndex || b }

/-- `"size"`. -/
def handleSize (p : VobSubParser) (str : List UInt16) : VobSubParser :=
  let v := scanf [.int, .literal 120, .int] str
  bad { p with
    mTotalWidth := (v[0]?.map toInt32).getD p.mTotalWidth
    mTotalHeight := (v[1]?.map toInt32).getD p.mTotalHeight } (v.length ≠ 2)

/-- `"scale"`. -/
def handleScale (p : VobSubParser) (str : List UInt16) : VobSubParser :=
  let v := scanf [.int, .literal 37, .literal 44, .int, .literal 37] str
  bad { p with
    mScaleX := (v[0]?.map (writeLow p.mScaleX)).getD p.mScaleX
    mScaleY := (v[1]?.map (writeLow p.mScaleY)).getD p.mScaleY } (v.length ≠ 2)

/-- `"palette"`. -/
def handlePalette (p : VobSubParser) (str : List UInt16) : VobSubParser :=
  let v := scanf (hexList 16) str
  bad { p with mOrgpal := v.map toDWORD ++ p.mOrgpal.drop v.length } (v.length ≠ 16)

/-- `"custom colors"`. -/
def handleCustomColors (w : World) (p : VobSubParser) (str : List UInt16) : Option VobSubParser :=
  let on := wide "on".toList <+: str ∨ wide "1".toList <+: str
  let off := wide "off".toList <+: str ∨ wide "0".toList <+: str
  let p := if on then { p with mUseCustomColor := true }
    else if off then { p with mUseCustomColor := false } else p.bad true
  (behind "tridx:" str).bind fun sTridx =>
    let tridx := scanf [.hex] sTridx
    (behind "colors:" str).map fun sColor =>
      let v := scanf (hexList 4) sColor
      let pal := (List.range 4).map fun i => toDWORD (v.getD i (w.stack i))
      bad { p with mCuspal := pal.mapIdx fun i c =>
        c % 16777216 + if (toDWORD (tridx.getD 0 (w.stack 4))).testBit i then 0
          else 0xff * 16777216 }
        (tridx.length ≠ 1 || v.length ≠ 4)

/-- `"timestamp"`; `room` is the length of the string before it was trimmed. -/
def handleTimestamp (w : World) (p : VobSubParser) (room : Nat) (str : List UInt16) :
    Option VobSubParser :=
  (findSub (wide "filepos:".toList) str).bind fun i =>
    let sFilepos := wcstrim 32 (str.drop (i + 8))
    let v := scanf [.hex] sFilepos
    let p := p.bad (v.length ≠ 1)
    -- `str[12] = NULL`
    if room < 12 then none
    else
      let start := timeToDecimal w ((str.take (i + 8) ++ sFilepos).take 12)
      let current : Subtitle := ⟨start, 0, 0, 0, 0, 0, 0, 0, []⟩
      if p.mSubFile then
        (w.readPacket p.mLangId (toDWORD (v.getD 0 (w.stack 0))) current).bind fun r =>
          let p := { p with mCurrentSubtitle := r.2 }
          if r.1 then
            if p.mSubtitles.length < 40960 then
              some { p with mSubtitles := p.mSubtitles ++ [r.2] }
            else none
          else some p
      else some { p with mCurrentSubtitle := current }

def handleEntry (w : World) (p : VobSubParser) (entry part : List UInt16) : Option VobSubParser :=
  let entry := wcslower (wcstrim 32 entry)
  let str := wcslower (wcstrim 32 part)
  if has "size" entry then some (p.handleSize str)
  else if has "scale" entry then some (p.handleScale str)
  else if has "time offset" entry ∨ has "delay" entry then some p
  else if has "palette" entry then some (p.handlePalette str)
  else if has "custom colors" entry then p.handleCustomColors w str
  else if has "id" entry then some p
  else if has "timestamp" entry then p.handleTimestamp w part.length str
  else some p

def scanLine (p : VobSubParser) (line : List UInt16) : VobSubParser :=
  match has "id:" line, behind "index:" line with
  | true, some id =>
    let iid := wtoi (wcstrim 32 id)
    if iid > p.mMaxLangId ∧ iid < 32 then { p with mMaxLangId := iid } else p
  | _, _ => p

def handleLine (w : World) (p : VobSubParser) (line : List UInt16) : Option VobSubParser :=
  if p.mScanForLangId then some (p.scanLine line)
  else if p.mFirstLine then
    some (bad { p with mFirstLine := false } (!has "VobSub index file" line))
  else if line.head? = some 35 ∨ line = [] then some p
  else (explode line).bind fun r => p.handleEntry w r.1 r.2

/-! ## Bytes -/

/-- A byte in `handle_data_8`: the bytes of the line so far, and the parser. -/
def feed8 (w : World) (codePage : CodePage) (s : List UInt8 × VobSubParser) (b : UInt8) :
    Option (List UInt8 × VobSubParser) :=
  if b ≠ 10 ∧ b ≠ 13 ∧ s.1.length < 1024 then some (s.1 ++ [b], s.2)
  else if b = 10 ∨ b = 13 then
    if s.1.length < 1024 then
      let lineW := w.multiByteToWideChar codePage (s.1.takeWhile (· ≠ 0))
      (s.2.handleLine w (wcstrim 32 (cstr lineW))).map fun p => ([], p)
    else none
  else some ([], s.2)

def handleData8 (w : World) (p : VobSubParser) (codePage : CodePage) (data : List UInt8) :
    Option VobSubParser :=
  (data.foldlM (feed8 w codePage) ([], p)).map Prod.snd

def units : List UInt8 → List UInt16
  | lo :: hi :: bytes => Utf.unit lo hi :: units bytes
  | _ => []

/-- `((c&0xff) << 8) | ((c&0xff00) >> 8)`. -/
def swap (c : UInt16) : UInt16 := UInt16.ofNat (c.toNat % 256 * 256 + c.toNat / 256)

/-- A unit in `handle_data_16`: the units of the line so far, and the parser.  A carriage
return trims the line where it stands and leaves its length. -/
def feed16 (w : World) (s : List UInt16 × VobSubParser) (c : UInt16) :
    Option (List UInt16 × VobSubParser) :=
  if c ≠ 10 ∧ c ≠ 13 ∧ s.1.length < 1024 then some (s.1 ++ [c], s.2)
  else if c = 13 then
    if s.1.length < 1024 then
      let line := wcstrim 32 (cstr s.1)
      (s.2.handleLine w line).map fun p =>
        ((line ++ 0 :: s.1.drop (line.length + 1)).take s.1.length, p)
    else none
  else some ([], s.2)

/-- `handle_data_16`, with the number of bytes it takes. -/
def handleData16 (w : World) (p : VobSubParser) (data : List UInt8) (big : Bool) :
    Option (VobSubParser × Nat) :=
  let n := if big then data.length else data.length / 2
  if (units data).length < n then none
  else
    let line := (units data).take n
    ((if big then line.map swap else line).foldlM (feed16 w) ([], p)).map fun s => (s.2, 2 * n)

def reset (p : VobSubParser) : VobSubParser :=
  { p with mSubtitles := [], mCurrentSubtitle := ⟨-1, 0, 0, 0, 0, 0, 0, 0, []⟩ }

def start (p : VobSubParser) (langId : Int) : VobSubParser :=
  if langId ≥ 0 then
    { p.reset with
      mLangId := langId, mFirstLine := false, mBadIndex := false
      mTotalWidth := 720, mTotalHeight := 480
      mScaleX := 0x3ff0000000000000, mScaleY := 0x3ff0000000000000
      mGlobalTimeOffset := 0, mUseCustomColor := false }
  else p.reset

end VobSubParser

/-- The marks that `load_file` knows. -/
inductive Mark
  | utf16be
  | utf16le
  | utf8
  | unknown
deriving DecidableEq, Repr

/-- The tests of `load_file`, which look at as many bytes as they need. -/
def mark (data : List UInt8) : Option Mark := do
  let b0 ← data[0]?
  if b0 = 0xfe then
    let b1 ← data[1]?
    if b1 = 0xff then
      let b3 ← data[3]?
      return if b3 ≠ 0 then .utf16be else .unknown
    else return .unknown
  else if b0 = 0xff then
    let b1 ← data[1]?
    if b1 = 0xfe then
      let b2 ← data[2]?
      return if b2 ≠ 0 then .utf16le else .unknown
    else return .unknown
  else if b0 = 0xef then
    let b1 ← data[1]?
    if b1 = 0xbb then
      let b2 ← data[2]?
      return if b2 = 0xbf then .utf8 else .unknown
    else return .unknown
  else return .unknown

/-- A parser with what `load_file` has taken of the file: where the data starts, and how many
bytes of it the loop took, each once. -/
structure Loaded where
  parser : VobSubParser
  first : Nat
  count : Nat
deriving DecidableEq, Repr

def loadFile (w : World) (p : VobSubParser) (langId : Int) (data : List UInt8) : Option Loaded :=
  let p := p.start langId
  (mark data).bind fun m =>
    match m with
    | .utf16be => (p.handleData16 w (data.drop 2) true).map fun r => ⟨r.1, 2, r.2⟩
    | .utf16le => (p.handleData16 w (data.drop 2) false).map fun r => ⟨r.1, 2, r.2⟩
    | .utf8 => (p.handleData8 w .utf8 (data.drop 3)).map fun r => ⟨r, 3, (data.drop 3).length⟩
    | .unknown => (p.handleData8 w .acp data).map fun r => ⟨r, 0, data.length⟩

end DWindow.VobSub
