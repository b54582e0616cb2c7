import Mathlib.Data.List.OfFn
import DWindow.VobSub.Decode

/-!
# The syntax of subpictures

What a valid packet of a DVD is made of.  A line of the picture is written in codes of one to
four nibbles: runs that fill the line, or the last one of them fills what is left.  The nibbles
of a line are padded to bytes.  The even lines make the first field and the odd ones the second
one, and control blocks behind them say where the fields are, what the area of the picture is
and which colors and transparencies its four indices stand for.

A change of colors inside the picture is not part of this.
-/

namespace DWindow.VobSub.Decode

/-! ## Lines -/

/-- A code: a run of pixels, or one that goes up to the end of the line. -/
inductive Code
  | run (length : Nat) (colorid : Fin 4) (pos : 0 < length) (lt : length < 256)
  | endOfLine (colorid : Fin 4)

namespace Code

/-- The number that is written: the length and the index. -/
def value : Code → Nat
  | run length colorid _ _ => 4 * length + colorid
  | endOfLine colorid => colorid

/-- The nibbles of a code: one more for every limit that the number is not below, four for the
end of a line. -/
def nibbles (c : Code) : List Nat :=
  if c.value < 0x4 ∨ 0x100 ≤ c.value then
    [0, c.value / 256, c.value / 16 % 16, c.value % 16]
  else if 0x40 ≤ c.value then [0, c.value / 16, c.value % 16]
  else if 0x10 ≤ c.value then [c.value / 16, c.value % 16]
  else [c.value]

end Code

/-- The codes of a line, and its pixels. -/
inductive Draws : List Code → List (Fin 4) → Prop
  | last (length : Nat) (colorid : Fin 4) (pos : 0 < length) (lt : length < 256) :
      Draws [.run length colorid pos lt] (List.replicate length colorid)
  | endOfLine (colorid : Fin 4) (rest : Nat) (pos : 0 < rest) :
      Draws [.endOfLine colorid] (List.replicate rest colorid)
  | run (length : Nat) (colorid : Fin 4) (pos : 0 < length) (lt : length < 256)
      {codes : List Code} {pixels : List (Fin 4)} (h : Draws codes pixels) :
      Draws (.run length colorid pos lt :: codes) (List.replicate length colorid ++ pixels)

/-- Two nibbles a byte; an odd one is padded. -/
def pack (pad : Fin 16) : List Nat → List UInt8
  | [] => []
  | [high] => [UInt8.ofNat (high * 16 + pad)]
  | high :: low :: nibbles => UInt8.ofNat (high * 16 + low) :: pack pad nibbles

/-- The codes of a line, and what pads it. -/
structure Line where
  codes : List Code
  pad : Fin 16

def Line.nibbles (l : Line) : List Nat := l.codes.flatMap Code.nibbles

def Line.bytes (l : Line) : List UInt8 := pack l.pad l.nibbles

/-- How many nibbles of a line stand in front of its last code. -/
def nibblesBeforeLast : List Code → Nat
  | [] => 0
  | [_] => 0
  | c :: c' :: codes => c.nibbles.length + nibblesBeforeLast (c' :: codes)

/-- The even lines and the odd ones. -/
def fields {α : Type*} : List α → List α × List α
  | [] => ([], [])
  | a :: l => (a :: (fields l).2, (fields l).1)

/-! ## Control blocks -/

/-- The first and the last column of a picture, and its first and last row. -/
structure Area where
  left : Fin 4096
  right : Fin 4096
  top : Fin 4096
  bottom : Fin 4096

def Area.rect (a : Area) : Rect := ⟨a.left, a.top, a.right + 1, a.bottom + 1⟩

def wordBytes (n : Nat) : List UInt8 := [UInt8.ofNat (n / 256), UInt8.ofNat (n % 256)]

/-- Two numbers of twelve bits. -/
def sideBytes (a b : Fin 4096) : List UInt8 :=
  [UInt8.ofNat (a / 16), UInt8.ofNat (a % 16 * 16 + b / 256), UInt8.ofNat (b % 256)]

inductive Command
  | forced
  | start
  | stop
  | palette (pal : UInt16)
  | transparency (tr : UInt16)
  | area (a : Area)
  | offsets (first second : UInt16)

def Command.bytes : Command → List UInt8
  | forced => [0x00]
  | start => [0x01]
  | stop => [0x02]
  | palette pal => 0x03 :: wordBytes pal.toNat
  | transparency tr => 0x04 :: wordBytes tr.toNat
  | area a => 0x05 :: (sideBytes a.left a.right ++ sideBytes a.top a.bottom)
  | offsets first second => 0x06 :: (wordBytes first.toNat ++ wordBytes second.toNat)

/-- A block: its time, its commands, and what stands between its end and the next one. -/
structure Block where
  time : UInt16
  commands : List Command
  behind : List UInt8

def Block.size (b : Block) : Nat := 4 + (b.commands.flatMap Command.bytes).length + 1 +
  b.behind.length

def Block.bytes (b : Block) (next : Nat) : List UInt8 :=
  wordBytes b.time.toNat ++ wordBytes next ++ b.commands.flatMap Command.bytes ++ 0xff :: b.behind

/-- Blocks from a place on.  Each of them points to the next one, the last one to itself. -/
def blockBytes : Nat → List Block → List UInt8
  | _, [] => []
  | place, [b] => b.bytes place
  | place, b :: b' :: blocks =>
    b.bytes (place + b.size) ++ blockBytes (place + b.size) (b' :: blocks)

/-- What commands set. -/
structure Display where
  pal : UInt16
  tr : UInt16
  area : Option Area
  offsets : Option (UInt16 × UInt16)

namespace Display

def init : Display := ⟨0, 0, none, none⟩

def perform (d : Display) : Command → Display
  | .forced => d
  | .start => d
  | .stop => d
  | .palette pal => { d with pal := pal }
  | .transparency tr => { d with tr := tr }
  | .area a => { d with area := some a }
  | .offsets first second => { d with offsets := some (first, second) }

end Display

/-! ## Packets -/

/-- Bytes that stand in a packet. -/
def Packet.Has (k : Packet) (place : Nat) (bytes : List UInt8) : Prop :=
  bytes <+: k.bytes.drop place

/-- **All codes are reached**: read from place `first` in the first field and from place `second`
in the second one, line by line in turn, the last code of a line of the first field begins in
front of the place that the second one has been read up to, and that of a line of the second
field in front of the control blocks. -/
def Reached (datasize : Nat) : Bool → Nat → Nat → List Line → Prop
  | _, _, _, [] => True
  | false, first, second, l :: lines =>
    first + nibblesBeforeLast l.codes / 2 < second ∧
      Reached datasize true (first + l.bytes.length) second lines
  | true, first, second, l :: lines =>
    second + nibblesBeforeLast l.codes / 2 < datasize ∧
      Reached datasize false first (second + l.bytes.length) lines

structure Subpicture where
  area : Area
  pal : UInt16
  tr : UInt16
  first : UInt16
  second : UInt16
  lines : List Line
  blocks : List Block

namespace Subpicture

def firstField (d : Subpicture) : List UInt8 := (fields d.lines).1.flatMap Line.bytes

def secondField (d : Subpicture) : List UInt8 := (fields d.lines).2.flatMap Line.bytes

def rows {width height : Nat} (array : Fin height → Fin width → Fin 4) : List (List (Fin 4)) :=
  List.ofFn fun y => List.ofFn (array y)

/-- **A valid packet** of an array of indices: its lines draw the rows of the array, the even ones
stand in the first field and the odd ones in the second, and the control blocks set
everything. -/
structure Encodes (d : Subpicture) (k : Packet) {width height : Nat}
    (array : Fin height → Fin width → Fin 4) : Prop where
  width_pos : 0 < width
  height_pos : 0 < height
  width : d.area.left + width = d.area.right.val + 1
  height : d.area.top + height = d.area.bottom.val + 1
  lines : List.Forall₂ (fun l row => Draws l.codes row) d.lines (rows array)
  firstField : k.Has d.first.toNat d.firstField
  secondField : k.Has d.second.toNat d.secondField
  blocks : d.blocks ≠ []
  control : k.Has k.datasize (blockBytes k.datasize d.blocks)
  display : (d.blocks.flatMap Block.commands).foldl Display.perform .init =
    ⟨d.pal, d.tr, some d.area, some (d.first, d.second)⟩

end Subpicture

end DWindow.VobSub.Decode
