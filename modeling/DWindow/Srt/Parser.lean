import DWindow.Lib.CInt
import DWindow.Lib.Decimal
import DWindow.Lib.WString

/-!
# The subtitle list

`srt_parser` with `init` and `direct_add_subtitle`.  The texts live in one buffer,
`m_text_data`, each ended by a zero, and an entry of the index knows where its
text begins.  The place for a new text is not kept: it is found behind the last
one, when the first character of the buffer is not zero.

`m_index` is the list of its first `m_index_pos` entries.  A write behind the end
of `m_index` or `m_text_data` is no result.  The text that
`direct_add_subtitle` adds for ASS files comes from the translation table and is
a field.
-/

namespace DWindow.Srt

open CInt Decimal WString

structure SubtitleIndex where
  timeStart : Int
  timeEnd : Int
  pos : Nat
  offset : Int
  hasOffset : Bool
deriving DecidableEq, Repr

structure SrtParser where
  num : Nat
  mIndex : List SubtitleIndex
  mTextData : List UInt16
  mLastType : Nat
  mTextPos : Nat
  mAss : Bool
  fontsLoading : List UInt16
  tmp : List UInt16
  tmpStart : Int
  tmpEnd : Int
deriving DecidableEq, Repr

/-- `init`, on new memory for the texts that holds `heap`. -/
def SrtParser.init (num : Nat) (heap : List UInt16) (fontsLoading : List UInt16) : SrtParser where
  num := num
  mIndex := []
  mTextData := heap.set 0 0
  mLastType := 0
  mTextPos := 0
  mAss := false
  fontsLoading := fontsLoading
  tmp := []
  tmpStart := 0
  tmpEnd := 0

/-- `_wtoi`, which saturates. -/
def wtoi (str : List UInt16) : Int :=
  match scanInt str with
  | none => 0
  | some (n, _) => max (-2 ^ 31) (min n (2 ^ 31 - 1))

def offsetTag : List UInt16 := wide ['<', 'o', 'f', 'f', 's', 'e', 't', '=']

/-- The offset in the tag `<offset=xx>`, if there is one. -/
def findOffset (line : List UInt16) : Option Int :=
  (findSub offsetTag line).map (fun p => wtoi (line.drop (p + offsetTag.length)))

/-- Remove `<XXX>`, as long as the first `<` stands before the first `>`.  Each
turn shortens the line. -/
def stripLoop : Nat → List UInt16 → List UInt16
  | 0, line => line
  | fuel + 1, line =>
    match findSub (wide ['<']) line, findSub (wide ['>']) line with
    | some l, some r =>
      if r > l then stripLoop fuel (line.take l ++ line.drop (r + 1)) else line
    | _, _ => line

def stripTags (line : List UInt16) : List UInt16 := stripLoop line.length line

/-- `abs(a - b) < 10`, on `int`. -/
def nearly (a b : Int) : Bool := decide (toInt32 |toInt32 (a - b)| < 10)

def isDuplicate (i : SubtitleIndex) (start stop : Int) : Bool :=
  nearly i.timeStart start && nearly i.timeEnd stop

namespace SrtParser

/-- The line as it is handled: the string in the caller's buffer, with a note
behind it for ASS. -/
def warned (s : SrtParser) (line : List UInt16) : List UInt16 :=
  if s.mAss then cstr line ++ wide ['\n'] ++ cstr s.fontsLoading else cstr line

def storedText (s : SrtParser) (line : List UInt16) : List UInt16 := stripTags (s.warned line)

def nextPos (s : SrtParser) : Nat :=
  if s.mTextData.head? ≠ some 0 then
    s.mTextPos + (cstrAt s.mTextData s.mTextPos).length + 1
  else s.mTextPos

/-- `direct_add_subtitle`, and what it returns. -/
def directAddSubtitle (s : SrtParser) (line : List UInt16) (start stop : Int) :
    Option (SrtParser × Int) :=
  let line := s.warned line
  let offset := findOffset line
  let line := stripTags line
  if s.mIndex.any (fun i => isDuplicate i start stop) then some (s, -1)
  else if s.mIndex.length < s.num then do
    let textPos := s.nextPos
    let textData ← wcscpyAt s.mTextData textPos line
    some ({ s with
      mIndex := s.mIndex ++ [⟨start, stop, textPos, offset.getD 0, offset.isSome⟩]
      mTextPos := textPos
      mTextData := textData }, 0)
  else none

end SrtParser

end DWindow.Srt
