import DWindow.Lib.ByteOrder
import DWindow.Srt.Parser
import Mathlib.Logic.Function.Iterate

/-!
# Loading an SRT file

`load` of `srt_parser`, for a path that does not end in `ssa` or `ass`.  The bytes are
turned into wide lines, and `handle_line` goes through a number, a line with two times and
lines of text, which are collected in `tmp` until the next line with times, or the end of
the file, adds them as a subtitle.

A line is collected in a buffer for 1024 characters.  What comes behind them is dropped,
but the terminator of such a line is written behind the buffer, and that is no result, as
is a text that does not fit into `tmp`.  What `MultiByteToWideChar` makes of a line is a
parameter, as is what stands in memory behind the bytes of a short file.
-/

namespace DWindow.Srt

open CInt Decimal LittleEndian WString

/-! ## Times -/

/-- A character of the format of `swscanf` that stands for itself. -/
def scanChar (c : UInt16) : List UInt16 → Option (List UInt16)
  | x :: xs => if x = c then some xs else none
  | [] => none

/-- `swscanf` with `%d:%d:%d` and, behind `sep`, a fourth `%d`. -/
def scanTime (sep : UInt16) (str : List UInt16) : Option (Int × Int × Int × Int) := do
  let (h, str) ← scanInt str
  let (m, str) ← scanInt (← scanChar 58 str)
  let (s, str) ← scanInt (← scanChar 58 str)
  let (ms, _) ← scanInt (← scanChar sep str)
  some (h, m, s, ms)

/-- `time_to_decimal` for a time with `sep` in it. -/
def timeWith (sep : UInt16) (str : List UInt16) : Int :=
  match scanTime sep str with
  | none => 0
  | some (h, m, s, ms) =>
    let c := (str.dropWhile (· ≠ sep)).length - 1
    let ms := (fun ms : Int => ms.tdiv 10)^[c] (toInt32 (ms * 1000))
    toInt32 (h * 3600000 + m * 60000 + s * 1000 + ms)

/-- `time_to_decimal`, of `11:22:33,444` or `11:22:33.444`. -/
def timeToDecimal (str : List UInt16) : Int :=
  if 44 ∈ str then timeWith 44 str else if 46 ∈ str then timeWith 46 str else 0

/-! ## Lines -/

/-- The size of a line, of `tmp` and of the `text` of `save`. -/
def lineSize : Nat := 1024

def arrow : List UInt16 := wide ['-', '-', '>']

namespace SrtParser

/-- `if (tmp[0]) direct_add_subtitle(tmp, …)`, which takes the tags out of `tmp`. -/
def flush (s : SrtParser) : Option SrtParser :=
  if s.tmp = [] then some s
  else
    (s.directAddSubtitle s.tmp s.tmpStart s.tmpEnd).map fun r =>
      { r.1 with tmp := s.storedText s.tmp }

/-- The end of `handle_line`. -/
def handleText (s : SrtParser) (line : List UInt16) : Option SrtParser :=
  if 2 ≤ s.mLastType then
    let text := if s.tmp = [] then line else s.tmp ++ 10 :: line
    if text.length < lineSize then some { s with mLastType := 3, tmp := text } else none
  else some s

/-- `handle_line`, of a line with an arrow between two strings. -/
def handleTimes (s : SrtParser) (left right : List UInt16) : Option SrtParser :=
  if 0 ≤ timeToDecimal left ∧ 0 < timeToDecimal right ∧ s.mLastType = 1 then
    s.flush.map fun s =>
      { s with
        mLastType := 2
        tmpStart := timeToDecimal left
        tmpEnd := timeToDecimal right
        tmp := [] }
  else s.handleText left

def handleLine (s : SrtParser) (line : List UInt16) : Option SrtParser :=
  if line.all isDigit = true ∧ s.mLastType = 0 then some { s with mLastType := 1 }
  else
    match findSub arrow line with
    | some p => s.handleTimes (trim 32 (line.take p)) (trim 32 (line.drop (p + arrow.length)))
    | none => s.handleText line

/-- What `handle_data` does with a complete line. -/
def endLine (s : SrtParser) (line : List UInt16) : Option SrtParser :=
  let line := trim 13 (trim 32 line)
  if line ≠ [] then s.handleLine line else some { s with mLastType := 0 }

/-- One character of `handle_data_16` or `handle_data_8`; `toWide` is what becomes of a
line. -/
def feed {α : Type} [DecidableEq α] (newline : α) (toWide : List α → List UInt16)
    (acc : SrtParser × List α) (c : α) : Option (SrtParser × List α) :=
  if c ≠ newline then
    some (if acc.2.length < lineSize then (acc.1, acc.2 ++ [c]) else acc)
  else if acc.2.length < lineSize then (acc.1.endLine (toWide acc.2)).map fun s => (s, [])
  else none

def handleData {α : Type} [DecidableEq α] (newline : α) (toWide : List α → List UInt16)
    (s : SrtParser) (data : List α) : Option SrtParser :=
  (data.foldlM (feed newline toWide) (s, [])).map Prod.fst

end SrtParser

/-! ## The file -/

/-- `data[i]` of an array of `unsigned short`, the bytes of each swapped for `big`. -/
def toUnits (big : Bool) : List UInt8 → List UInt16
  | a :: b :: data => UInt16.ofNat (ofLE (if big then [b, a] else [a, b])) :: toUnits big data
  | _ => []

/-- `CP_UTF8` or `CP_ACP`. -/
inductive CodePage
  | utf8
  | acp
deriving DecidableEq, Repr

/-- A line of wide characters ends in front of a zero. -/
def wideLine (line : List UInt16) : List UInt16 := cstr line

namespace SrtParser

def handleData16 (s : SrtParser) (big : Bool) (data : List UInt8) : Option SrtParser :=
  handleData 10 wideLine s (toUnits big data)

/-- `handle_data_8`.  `MultiByteToWideChar` has room for 1024 characters. -/
def handleData8 (toWide : CodePage → List UInt8 → List UInt16) (s : SrtParser) (page : CodePage)
    (data : List UInt8) : Option SrtParser :=
  handleData 10 (fun line => cstr ((toWide page line).take lineSize)) s data

/-- `load`, of a file with these bytes; `behind` is what is read behind them. -/
def load (toWide : CodePage → List UInt8 → List UInt16) (behind : List UInt8) (s : SrtParser)
    (data : List UInt8) : Option SrtParser := do
  let byte := fun i => (data ++ behind).getD i 0
  let s := { s with mAss := false }
  let s ←
    if byte 0 = 0xFE ∧ byte 1 = 0xFF ∧ byte 3 ≠ 0 then s.handleData16 true (data.drop 2)
    else if byte 0 = 0xFF ∧ byte 1 = 0xFE ∧ byte 2 ≠ 0 then s.handleData16 false (data.drop 2)
    else if byte 0 = 0xEF ∧ byte 1 = 0xBB ∧ byte 2 = 0xBF then
      s.handleData8 toWide .utf8 (data.drop 3)
    else s.handleData8 toWide .acp data
  s.flush

end SrtParser

end DWindow.Srt
