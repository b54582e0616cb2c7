import DWindow.Srt.Load

/-!
# The other ways to the subtitle list

`handle_line` of `srt_parser` for the lines of an ASS file, `load` for either kind of file and
`add_data` of `CsrtRendererCore`.  Each of them is given with the calls of
`direct_add_subtitle` that it makes, in order and with the `m_ass` they find.

A dialogue line goes on to the part of `handle_line` for SRT files when its text has been
added, and so does the line that begins the events: any line but `[Events]` does.
-/

namespace DWindow.Srt

open CInt Decimal WString

/-- A call of `direct_add_subtitle`, and `m_ass`. -/
structure AssCall where
  ass : Bool
  line : List UInt16
  start : Int
  stop : Int
deriving DecidableEq, Repr

/-- `srt_parser`, with what `handle_line` keeps for ASS files. -/
structure AssParser where
  srt : SrtParser
  mAssEventsStart : Bool
deriving DecidableEq, Repr

/-! ## The calls of an SRT line -/

namespace SrtParser

/-- The call of `flush`. -/
def flushCalls (s : SrtParser) : List AssCall :=
  if s.tmp = [] then [] else [⟨s.mAss, s.tmp, s.tmpStart, s.tmpEnd⟩]

/-- The call of `handleTimes`. -/
def timesCalls (s : SrtParser) (left right : List UInt16) : List AssCall :=
  if 0 ≤ timeToDecimal left ∧ 0 < timeToDecimal right ∧ s.mLastType = 1 then s.flushCalls else []

/-- The call of `handleLine`. -/
def lineCalls (s : SrtParser) (line : List UInt16) : List AssCall :=
  if line.all isDigit = true ∧ s.mLastType = 0 then []
  else
    match findSub arrow line with
    | some p => s.timesCalls (trim 32 (line.take p)) (trim 32 (line.drop (p + arrow.length)))
    | none => []

end SrtParser

/-! ## Dialogue lines -/

/-- What stands in front of the first comma, and behind it. -/
def splitComma (str : List UInt16) : Option (List UInt16 × List UInt16) :=
  (findSub (wide [',']) str).map fun p => (str.take p, str.drop (p + 1))

/-- A time with a zero in front of an hour of one digit, and one at the end. -/
def assTime (str : List UInt16) : Int :=
  let str := trim 32 str
  timeToDecimal ((if str[1]? = some 58 then 48 :: str else str) ++ [48])

/-- The start and the end time of a dialogue line. -/
def dialogueTimes (line : List UInt16) : Option (Int × Int) := do
  let (_, line) ← splitComma line
  let (start, line) ← splitComma line
  let (stop, _) ← splitComma line
  some (assTime start, assTime stop)

/-- The loop over `commas_left`. -/
def dropFields : Nat → List UInt16 → List UInt16
  | 0, line => line
  | left + 1, line =>
    match splitComma line with
    | none => line
    | some (_, line) => dropFields left line

/-- Remove `{XXX}`.  A `}` in front of the first `{` makes `wcscpy` run over the end of the
line, or the loop not end. -/
def stripBraces : Nat → List UInt16 → Option (List UInt16)
  | 0, line => some line
  | fuel + 1, line =>
    match findSub (wide ['{']) line, findSub (wide ['}']) line with
    | some l, some r => if r < l then none else stripBraces fuel (line.take l ++ line.drop (r + 1))
    | _, _ => some line

/-- `wcs_replace`.  Each turn shortens the line. -/
def wcsReplace (searchfor replacer : List UInt16) : Nat → List UInt16 → List UInt16
  | 0, line => line
  | fuel + 1, line =>
    match findSub searchfor line with
    | none => line
    | some p =>
      wcsReplace searchfor replacer fuel
        (line.take p ++ replacer ++ line.drop (p + searchfor.length))

def dialogueText (line : List UInt16) : Option (List UInt16) :=
  let line := dropFields 9 line
  (stripBraces line.length line).map fun line =>
    let line := wcsReplace (wide ['\\', 'N']) (wide ['\n']) line.length line
    wcsReplace (wide ['\\', 'n']) (wide ['\n']) line.length line

/-! ## Lines of either kind -/

namespace AssParser

/-- The part of `handle_line` for SRT files, behind `calls`. -/
def srtLine (a : AssParser) (calls : List AssCall) (line : List UInt16) :
    Option (AssParser × List AssCall) :=
  (a.srt.handleLine line).map fun s => ({ a with srt := s }, calls ++ a.srt.lineCalls line)

def handleLine (a : AssParser) (line : List UInt16) : Option (AssParser × List AssCall) :=
  if a.srt.mAss = true then
    if a.mAssEventsStart = false then
      if line ≠ wide ['[', 'E', 'v', 'e', 'n', 't', 's', ']'] then
        { a with mAssEventsStart := true }.srtLine [] line
      else some (a, [])
    else
      match dialogueTimes line with
      | none => some (a, [])
      | some (start, stop) => do
        let text ← dialogueText line
        let (s, _) ← a.srt.directAddSubtitle text start stop
        { a with srt := s }.srtLine [⟨a.srt.mAss, text, start, stop⟩] (a.srt.storedText text)
  else a.srtLine [] line

/-- What `handle_data` does with a complete line. -/
def endLine (a : AssParser) (line : List UInt16) : Option (AssParser × List AssCall) :=
  let line := trim 13 (trim 32 line)
  if line ≠ [] then a.handleLine line
  else some ({ a with srt := { a.srt with mLastType := 0 } }, [])

/-- What a loop over the characters has read: the state, the calls and the line so far. -/
structure Reading (α : Type) where
  parser : AssParser
  calls : List AssCall
  line : List α

/-- One character of `handle_data_16` or `handle_data_8`. -/
def feed {α : Type} [DecidableEq α] (newline : α) (toWide : List α → List UInt16)
    (acc : Reading α) (c : α) : Option (Reading α) :=
  if c ≠ newline then
    some (if acc.line.length < lineSize then { acc with line := acc.line ++ [c] } else acc)
  else if acc.line.length < lineSize then
    (acc.parser.endLine (toWide acc.line)).map fun r => ⟨r.1, acc.calls ++ r.2, []⟩
  else none

def handleData {α : Type} [DecidableEq α] (newline : α) (toWide : List α → List UInt16)
    (a : AssParser) (data : List α) : Option (AssParser × List AssCall) :=
  (data.foldlM (feed newline toWide) ⟨a, [], []⟩).map fun acc => (acc.parser, acc.calls)

/-- The end of `load`. -/
def flush (a : AssParser) (calls : List AssCall) : Option (AssParser × List AssCall) :=
  a.srt.flush.map fun s => ({ a with srt := s }, calls ++ a.srt.flushCalls)

/-- `load`, for a path that ends in `ssa` or `ass` or one that does not. -/
def load (toWide : CodePage → List UInt8 → List UInt16) (a : AssParser) (ass : Bool)
    (behind data : List UInt8) : Option (AssParser × List AssCall) :=
  let byte := fun i => (data ++ behind).getD i 0
  let a : AssParser := ⟨{ a.srt with mAss := ass }, false⟩
  let toWide8 := fun page line => cstr ((toWide page line).take lineSize)
  let read :=
    if byte 0 = 0xFE ∧ byte 1 = 0xFF ∧ byte 3 ≠ 0 then
      a.handleData 10 wideLine (toUnits true (data.drop 2))
    else if byte 0 = 0xFF ∧ byte 1 = 0xFE ∧ byte 2 ≠ 0 then
      a.handleData 10 wideLine (toUnits false (data.drop 2))
    else if byte 0 = 0xEF ∧ byte 1 = 0xBB ∧ byte 2 = 0xBF then
      a.handleData 10 (toWide8 .utf8) (data.drop 3)
    else a.handleData 10 (toWide8 .acp) data
  read.bind fun r => r.1.flush r.2

/-! ## Packets and direct calls -/

def directAddSubtitle (a : AssParser) (line : List UInt16) (start stop : Int) :
    Option (AssParser × List AssCall) :=
  (a.srt.directAddSubtitle line start stop).map fun r =>
    ({ a with srt := r.1 }, [⟨a.srt.mAss, line, start, stop⟩])

/-- A packet without the size that some splitters put in front. -/
def packetText (data : List UInt8) : List UInt8 :=
  if 2 ≤ data.length ∧ (data.getD 0 0).toNat * 256 + (data.getD 1 0).toNat = data.length - 2 then
    data.drop 2
  else data

/-- `add_data` of `CsrtRendererCore`. -/
def addData (toWide : CodePage → List UInt8 → List UInt16) (a : AssParser) (data : List UInt8)
    (start stop : Int) : Option (AssParser × List AssCall) :=
  if packetText data = [] then some (a, [])
  else
    a.directAddSubtitle (cstr ((toWide .utf8 (packetText data ++ [0])).take
      ((packetText data).length + 1))) start stop

/-- What a player does with its `srt_parser`. -/
inductive Op
  | load (ass : Bool) (behind data : List UInt8)
  | addData (data : List UInt8) (start stop : Int)
  | directAddSubtitle (line : List UInt16) (start stop : Int)

def step (toWide : CodePage → List UInt8 → List UInt16) (a : AssParser) :
    Op → Option (AssParser × List AssCall)
  | .load ass behind data => a.load toWide ass behind data
  | .addData data start stop => a.addData toWide data start stop
  | .directAddSubtitle line start stop => a.directAddSubtitle line start stop

def run (toWide : CodePage → List UInt8 → List UInt16) (a : AssParser) :
    List Op → Option (AssParser × List AssCall)
  | [] => some (a, [])
  | op :: ops => do
    let (a, calls) ← a.step toWide op
    let (a, calls') ← a.run toWide ops
    some (a, calls ++ calls')

def init (num : Nat) (heap fontsLoading : List UInt16) : AssParser :=
  ⟨.init num heap fontsLoading, false⟩

end AssParser

end DWindow.Srt
