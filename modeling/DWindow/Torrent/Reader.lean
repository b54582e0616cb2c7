import DWindow.Lib.CInt
import DWindow.Lib.Slice

/-!
# The reader of a torrent

`reader` keeps one piece of a torrent in `m_piece_buffer`.  `read_piece` fills the buffer,
from the file when the torrent is complete, and otherwise by a request that `on_read`
answers from another thread while the call waits; `read` copies the bytes of its pieces
out of the buffer, after `read_piece` has given the lock back.

A state says where the call stands.  What the torrent and its file answer, when an
`on_read` comes and what it brings, when a wait ends and what `cancel` says are parts of
the events.
-/

namespace DWindow.Torrent

open CInt Slice

/-- `torrent_info` and the bytes it describes. -/
structure TorrentInfo where
  pieceLength : Nat
  totalSize : Nat
  byte : Int → UInt8
  pieceLength_pos : 0 < pieceLength
  totalSize_pos : 0 < totalSize

namespace TorrentInfo

variable (t : TorrentInfo)

def numPieces : Nat := (t.totalSize + t.pieceLength - 1) / t.pieceLength

def pieceSize (index : Int) : Int :=
  if index = t.numPieces - 1 then t.totalSize - (t.numPieces - 1) * t.pieceLength
  else t.pieceLength

/-- The byte `k` of a piece. -/
def pieceByte (index k : Int) : UInt8 := t.byte (index * t.pieceLength + k)

/-- `m_last_piece_size`. -/
def lastPieceSize : Int := t.pieceSize (t.numPieces - 1)

end TorrentInfo

/-- What a file on disk holds. -/
structure Disk where
  size : Nat
  byte : Int → UInt8

/-- `torrent_status`: the pieces that are there, or no list of them when all are.  Then
the file is asked, unless it cannot be opened. -/
inductive TorrentStatus
  | pieces (active : Bool) (bits : Int → Bool)
  | complete (file : Option Disk)

/-- The three places where `read` asks for a piece. -/
inductive Stage | head | body | tail
deriving DecidableEq, Repr

/-- The variables of a `read`. -/
structure Request where
  stage : Stage
  offset : Int
  size : Int
  got : Int
deriving DecidableEq, Repr

/-- Where the call stands: returned, at the beginning of `read_piece`, in `m_notify.wait`, or
before the `memcpy`.  A `read_piece` of its own belongs to no `read`. -/
inductive Caller
  | returned (value : Int)
  | asks (index : Int) (r : Option Request)
  | waits (index : Int) (r : Option Request)
  | copies (index : Int) (r : Request)
deriving DecidableEq, Repr

namespace Caller

/-- The call is in `m_notify.wait`. -/
def waiting : Caller → Bool
  | .waits _ _ => true
  | _ => false

end Caller

/-- Bytes that a `read` was given for a piece, from `start` in the buffer on. -/
structure Copied where
  index : Int
  start : Int
  bytes : List UInt8
deriving DecidableEq, Repr

/-- `reader`.  `bytesOf` is the piece that the last transfer into the buffer was of and
`copied` what the calls were given; the code has neither. -/
structure Reader where
  mPieceBuffer : Int → UInt8
  mDatasize : Int
  mDataIndex : Int
  caller : Caller
  bytesOf : Option Int
  copied : List Copied

/-- A call, a step of it, or an `on_read`.  `cancel` is what `read` finds there after a
`read_piece` that returned 0. -/
inductive Event
  | read (offset size : Int)
  | readPiece (index : Int)
  | query (status : TorrentStatus) (cancel : Bool)
  | onRead (piece size : Nat)
  | wake (cancel : Bool)
  | copy

namespace Reader

variable (t : TorrentInfo)

/-- The constructor; `m_datasize` and the buffer keep what the memory held. -/
def create (memory : Int → UInt8) (datasize : Int) : Reader :=
  ⟨memory, datasize, -1, .returned 0, none, []⟩

/-- `memcpy` of `n` bytes into the buffer. -/
def fill (s : Reader) (bytes : Int → UInt8) (n : Int) : Reader :=
  { s with
    mPieceBuffer := fun k => if 0 ≤ k ∧ k < n then bytes k else s.mPieceBuffer k
    mDatasize := n }

/-- A `read` asks for the piece of its offset. -/
def askFor (r : Request) : Caller := .asks (toInt32 (r.offset.tdiv t.pieceLength)) (some r)

/-- The loop over whole pieces and what follows it. -/
def goOn (r : Request) : Caller :=
  if t.pieceLength < r.size then askFor t { r with stage := .body }
  else if 0 < r.size then askFor t { r with stage := .tail }
  else .returned (toInt32 r.got)

/-- The beginning of `read`. -/
def startRead (offset size : Int) : Caller :=
  let stop := min (toInt64 (offset + size))
    (t.pieceLength * (t.numPieces - 1) + t.lastPieceSize)
  let r : Request := ⟨.head, offset, stop - offset, 0⟩
  if r.size ≤ 0 then .returned 0
  else if r.offset.tmod t.pieceLength ≠ 0 then askFor t r
  else goOn t r

/-- `read_piece` returns 1. -/
def succeed (s : Reader) (index : Int) : Option Request → Reader
  | some r => { s with caller := .copies index r }
  | none => { s with caller := .returned 1 }

/-- `read_piece` returns 0; `read` calls it again unless it is cancelled. -/
def fail (s : Reader) (index : Int) (r : Option Request) (cancel : Bool) : Reader :=
  match r with
  | some r => { s with caller := if cancel then .returned (-1) else .asks index (some r) }
  | none => { s with caller := .returned 0 }

/-- How many bytes of a piece the file delivers.  The position is a product of two `int`s,
and a seek to a negative one fails. -/
def fileCount (f : Disk) (index : Int) : Int :=
  let pos := toInt32 (index * t.pieceLength)
  if pos < 0 then 0 else max 0 (min (t.pieceSize index) (f.size - pos))

/-- The branch of `read_piece` that reads the file. -/
def readFile (s : Reader) (f : Disk) (index : Int) (r : Option Request) : Reader :=
  let s₁ := s.fill (fun k => f.byte (toInt32 (index * t.pieceLength) + k)) (fileCount t f index)
  { s₁ with mDataIndex := index, bytesOf := some index }.succeed index r

/-- `read_piece` up to its return or its wait. -/
def readPiece (s : Reader) (index : Int) (r : Option Request) (status : TorrentStatus)
    (cancel : Bool) : Reader :=
  if t.numPieces ≤ index ∨ index < 0 then { s with caller := .returned (-1) }
  else if index = s.mDataIndex ∧ 0 < s.mDatasize then s.succeed index r
  else
    match status with
    | .pieces active bits =>
      if active && bits index then { s with caller := .waits index r }
      else s.fail index r cancel
    | .complete none => s.fail index r cancel
    | .complete (some f) => s.readFile t f index r

/-- `on_read` with the first bytes of a piece. -/
def onRead (s : Reader) (piece size : Nat) : Reader :=
  { s.fill (t.pieceByte piece) (min size (t.pieceSize piece)) with bytesOf := some (piece : Int) }

/-- `read_piece` after its wait. -/
def afterWait (s : Reader) (index : Int) (r : Option Request) (cancel : Bool) : Reader :=
  if s.mDatasize = t.pieceSize index then { s with mDataIndex := index }.succeed index r
  else s.fail index r cancel

/-- Where in the buffer a `memcpy` of `read` begins. -/
def copyStart (r : Request) : Int :=
  match r.stage with
  | .head => r.offset.tmod t.pieceLength
  | _ => 0

/-- How many bytes a `memcpy` of `read` copies. -/
def copySize (s : Reader) (r : Request) : Int :=
  match r.stage with
  | .head => min (t.pieceLength - r.offset.tmod t.pieceLength) r.size
  | .body => s.mDatasize
  | .tail => min r.size s.mDatasize

/-- `read` after its `memcpy`. -/
def afterCopy (r : Request) (n : Int) : Caller :=
  match r.stage with
  | .tail => .returned (toInt32 (r.got + n))
  | _ => goOn t { r with offset := r.offset + n, size := r.size - n, got := r.got + n }

/-- A `memcpy` of `read`. -/
def copy (s : Reader) (index : Int) (r : Request) : Reader :=
  let start := copyStart t r
  let n := s.copySize t r
  { s with
    caller := afterCopy t r n
    copied := ⟨index, start, slice s.mPieceBuffer start (start + n)⟩ :: s.copied }

/-- The reader takes a step; one that is not due changes nothing. -/
def step (s : Reader) (e : Event) : Reader :=
  match e, s.caller with
  | .read offset size, .returned _ => { s with caller := startRead t offset size }
  | .readPiece index, .returned _ => { s with caller := .asks index none }
  | .query status cancel, .asks index r => s.readPiece t index r status cancel
  | .onRead piece size, _ => s.onRead t piece size
  | .wake cancel, .waits index r => s.afterWait t index r cancel
  | .copy, .copies index r => s.copy t index r
  | _, _ => s

end Reader

end DWindow.Torrent
