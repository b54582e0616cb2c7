import Mathlib.Data.List.Basic
import Mathlib.Tactic.Linarith

/-!
# A file with a position

What `fopen` or `CreateFile` hand out: the bytes on disk and the position that
reads and writes move.  A write overwrites what lies under it and extends the
file past its end; a read delivers what is there, at most `n` bytes.  Errors and
partial transfers are not modelled: a write stores all its bytes and a read
inside the file is complete.
-/

structure ByteFile where
  data : List UInt8
  pos : Nat
deriving DecidableEq, Repr

namespace ByteFile

def empty : ByteFile := ⟨[], 0⟩

def seekSet (f : ByteFile) (p : Nat) : ByteFile := { f with pos := p }

def seekEnd (f : ByteFile) : ByteFile := { f with pos := f.data.length }

/-- Write at the position; a gap behind the end is filled with zero bytes. -/
def write (f : ByteFile) (bs : List UInt8) : ByteFile where
  data := f.data.take f.pos ++ List.replicate (f.pos - f.data.length) 0 ++ bs ++
    f.data.drop (f.pos + bs.length)
  pos := f.pos + bs.length

/-- The bytes a read of `n` delivers. -/
def readBytes (f : ByteFile) (n : Nat) : List UInt8 := (f.data.drop f.pos).take n

/-- The file after a read of `n` bytes. -/
def afterRead (f : ByteFile) (n : Nat) : ByteFile :=
  { f with pos := f.pos + (f.readBytes n).length }

@[simp] theorem seekSet_data (f : ByteFile) (p : Nat) : (f.seekSet p).data = f.data := rfl
@[simp] theorem seekSet_pos (f : ByteFile) (p : Nat) : (f.seekSet p).pos = p := rfl
@[simp] theorem seekEnd_data (f : ByteFile) : f.seekEnd.data = f.data := rfl
@[simp] theorem seekEnd_pos (f : ByteFile) : f.seekEnd.pos = f.data.length := rfl
@[simp] theorem write_pos (f : ByteFile) (bs : List UInt8) :
    (f.write bs).pos = f.pos + bs.length := rfl
@[simp] theorem afterRead_data (f : ByteFile) (n : Nat) : (f.afterRead n).data = f.data := rfl

/-- **A write at the end appends.** -/
theorem write_data_of_end {f : ByteFile} (h : f.pos = f.data.length) (bs : List UInt8) :
    (f.write bs).data = f.data ++ bs := by
  simp [write, h]

/-- A write inside the file, told by what stands before, under and after it. -/
theorem write_data_of_split {f : ByteFile} {a b c : List UInt8} (hd : f.data = a ++ b ++ c)
    (hp : f.pos = a.length) {bs : List UInt8} (hb : bs.length = b.length) :
    (f.write bs).data = a ++ bs ++ c := by
  have hz : f.pos - f.data.length = 0 := by
    rw [hp, hd]
    simp
  rw [write, hz, hd, hp, hb]
  simp

theorem afterRead_pos_of_le {f : ByteFile} {n : Nat} (h : f.pos + n ≤ f.data.length) :
    (f.afterRead n).pos = f.pos + n := by
  simp only [afterRead, readBytes, List.length_take, List.length_drop]
  omega

/-! ## Reading into a buffer -/

/-- `bs` written over the front of `old`. -/
def overlay (bs old : List UInt8) : List UInt8 := bs ++ old.drop bs.length

theorem overlay_of_le {bs old : List UInt8} (h : old.length ≤ bs.length) : overlay bs old = bs := by
  rw [overlay, List.drop_of_length_le h, List.append_nil]

theorem take_overlay {bs old : List UInt8} {n : Nat} (h : bs.length = n) :
    (overlay bs old).take n = bs := by
  rw [overlay, List.take_append_of_le_length (by omega), List.take_of_length_le (by omega)]

end ByteFile
