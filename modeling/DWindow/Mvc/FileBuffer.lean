import DWindow.Lib.Buffer
import DWindow.Mvc.Split

/-!
# The buffer between the feeding thread and the reader

`CFileBuffer` is a ring: `mPut` and `mGet` go round its end, and `resort` brings the data to
its front when `wait_for_data` could not show them in one piece.  What it stands for is the
list `contents`, to which `insert` appends and from whose front `remove_data` takes.

`Pipe` is the two threads of `interlacer.cpp`.  `feeder_thread` opens a raw file, reads it in
chunks and inserts them; it holds the lock while the bytes of a chunk are copied, one step each.
The reader waits for data under the lock, looks at them **without** it, and takes a unit off the
front.  So its window must stay as it is while the feeder copies.

* `Pipe.looks_at_stream`: what the reader looks at is the front of what it has not taken, in
  every state of every run.
* `Pipe.reads_nals`: every run is finite, and one that stops has handed over the units of
  the stream.

The sizes are below `2 ^ 30`, where no sum of two overflows.  `remove` and `block_remove` are
not called by these threads and are left out.  So is a file that cannot be opened, whose feeder
never sets `no_more_data` and leaves the reader waiting, and so is the branch that
demultiplexes: it fills `right` as well, which nobody reads, and its `insert` waits forever
when `right` is full.
-/

namespace DWindow.Mvc

open Buffer

/-- `CFileBuffer`.  `m_buffer_size` is the length of `m_the_buffer`. -/
structure CFileBuffer where
  theBuffer : List UInt8
  dataSize : Nat
  dataStart : Nat
  noMoreData : Bool
  noMoreRemove : Bool
  size_le : dataSize ≤ theBuffer.length
  start_lt : dataStart < theBuffer.length

namespace CFileBuffer

def mPut (theBuffer input : List UInt8) (start : Nat) : List UInt8 :=
  let bufferSize := theBuffer.length
  let size := input.length
  if size > bufferSize ∨ size = 0 then theBuffer
  else if (start + size) % bufferSize > start % bufferSize then
    writeAt theBuffer (start % bufferSize) input
  else
    writeAt
      (writeAt theBuffer (start % bufferSize) (input.take (bufferSize - start % bufferSize))) 0
      (input.drop (bufferSize - start % bufferSize))

/-- `mGet`: the bytes it writes to `in`. -/
def mGet (theBuffer : List UInt8) (size start : Nat) : List UInt8 :=
  let bufferSize := theBuffer.length
  if size > bufferSize ∨ size = 0 then []
  else if (start + size) % bufferSize > start % bufferSize then
    (theBuffer.drop (start % bufferSize)).take size
  else
    theBuffer.drop (start % bufferSize) ++
      theBuffer.take (size + start % bufferSize - bufferSize)

/-- Where the piece ends before the buffer does, the code sees it. -/
theorem wraps_iff {bufferSize size : Nat} (start : Nat) (hpos : size ≠ 0)
    (hle : size ≤ bufferSize) :
    (start + size) % bufferSize > start % bufferSize ↔
      start % bufferSize + size < bufferSize := by
  have hstart : start % bufferSize < bufferSize := Nat.mod_lt _ (by omega)
  rw [← Nat.mod_add_mod]
  by_cases h : start % bufferSize + size < bufferSize
  · rw [Nat.mod_eq_of_lt h]
    omega
  · have hround : (start % bufferSize + size) % bufferSize =
        start % bufferSize + size - bufferSize := by
      rw [Nat.mod_eq_sub_mod (by omega), Nat.mod_eq_of_lt (by omega)]
    omega

/-- **`mPut` writes the front of the ring** that begins at `start`. -/
theorem rotate_mPut (theBuffer : List UInt8) {input : List UInt8} (start : Nat)
    (h : input.length ≤ theBuffer.length) :
    (mPut theBuffer input start).rotate start =
      input ++ (theBuffer.rotate start).drop input.length := by
  simp only [mPut]
  by_cases hzero : input.length = 0
  · rw [if_pos (.inr hzero), List.length_eq_zero_iff.mp hzero]
    rfl
  · have hpos : 0 < theBuffer.length := by omega
    have hstart : start % theBuffer.length < theBuffer.length := Nat.mod_lt _ hpos
    have hmod : ∀ l : List UInt8, l.length = theBuffer.length →
        l.rotate start = l.rotate (start % theBuffer.length) := by
      intro l hl
      rw [← hl, List.rotate_mod]
    rw [if_neg (by omega), hmod theBuffer rfl]
    by_cases hwrap : (start + input.length) % theBuffer.length > start % theBuffer.length
    · have hfits := (wraps_iff start hzero h).mp hwrap
      rw [if_pos hwrap, hmod _ (length_writeAt (by omega)), rotate_writeAt (by omega)]
    · have hround := mt (wraps_iff start hzero h).mpr hwrap
      have hpiece : (input.take (theBuffer.length - start % theBuffer.length)).length =
          theBuffer.length - start % theBuffer.length := by
        rw [List.length_take, min_eq_left (by omega)]
      have hfirst : (writeAt theBuffer (start % theBuffer.length)
          (input.take (theBuffer.length - start % theBuffer.length))).length =
            theBuffer.length := length_writeAt (by omega)
      rw [if_neg hwrap, hmod _ ((length_writeAt (by
        rw [hfirst, List.length_drop]; omega)).trans hfirst),
        rotate_writeAt_round (by omega) h (by omega)]

theorem length_mPut (theBuffer input : List UInt8) (start : Nat) :
    (mPut theBuffer input start).length = theBuffer.length := by
  by_cases h : input.length ≤ theBuffer.length
  · have hlen := congrArg List.length (rotate_mPut theBuffer start h)
    rw [List.length_rotate, List.length_append, List.length_drop, List.length_rotate] at hlen
    omega
  · simp only [mPut]
    rw [if_pos (.inl (by omega))]

/-- **`mGet` reads the front of the ring** that begins at `start`. -/
theorem mGet_eq (theBuffer : List UInt8) {size : Nat} (start : Nat)
    (h : size ≤ theBuffer.length) :
    mGet theBuffer size start = (theBuffer.rotate start).take size := by
  simp only [mGet]
  by_cases hzero : size = 0
  · rw [if_pos (.inr hzero), hzero]
    rfl
  · have hstart : start % theBuffer.length < theBuffer.length := Nat.mod_lt _ (by omega)
    rw [if_neg (by omega), ← List.rotate_mod]
    by_cases hwrap : (start + size) % theBuffer.length > start % theBuffer.length
    · have hfits := (wraps_iff start hzero h).mp hwrap
      rw [if_pos hwrap, take_rotate (by omega)]
    · have hround := mt (wraps_iff start hzero h).mpr hwrap
      rw [if_neg hwrap, List.rotate_eq_drop_append_take (by omega), List.take_append,
        List.length_drop, List.take_of_length_le
          (show (theBuffer.drop (start % theBuffer.length)).length ≤ size by
            rw [List.length_drop]; omega), List.take_take,
        min_eq_left (by omega),
        show size - (theBuffer.length - start % theBuffer.length) =
          size + start % theBuffer.length - theBuffer.length by omega]

/-- The constructor and `reset`; `memory` is what `new` finds. -/
def new (memory : List UInt8) (h : 0 < memory.length) : CFileBuffer :=
  ⟨memory, 0, 0, false, false, Nat.zero_le _, h⟩

def resort (b : CFileBuffer) : CFileBuffer where
  theBuffer := mPut b.theBuffer (mGet b.theBuffer b.dataSize b.dataStart) 0
  dataSize := b.dataSize
  dataStart := 0
  noMoreData := b.noMoreData
  noMoreRemove := b.noMoreRemove
  size_le := (length_mPut _ _ 0).symm ▸ b.size_le
  start_lt := (length_mPut _ _ 0).symm ▸ Nat.lt_of_le_of_lt (Nat.zero_le _) b.start_lt

/-- A turn of `wait_for_data`: the size it returns, or `none` when it tries again. -/
def waitForData (b : CFileBuffer) (size : Nat) : Option (CFileBuffer × Nat) :=
  let sorted := if b.dataStart + size ≥ b.theBuffer.length then b.resort else b
  if b.noMoreData then some (sorted, min size b.dataSize)
  else if b.dataSize < size then none
  else some (sorted, size)

def removeData (b : CFileBuffer) (size : Nat) : CFileBuffer :=
  { b with
    dataSize := b.dataSize - min size b.dataSize
    dataStart := (b.dataStart + min size b.dataSize) % b.theBuffer.length
    size_le := Nat.le_trans (Nat.sub_le _ _) b.size_le
    start_lt := Nat.mod_lt _ (Nat.lt_of_le_of_lt (Nat.zero_le _) b.start_lt) }

/-- The data go on over `size` bytes more, `m_data_size += size`. -/
def grow (b : CFileBuffer) (size : Nat) (h : size + b.dataSize ≤ b.theBuffer.length) :
    CFileBuffer :=
  { b with dataSize := b.dataSize + size, size_le := by omega }

/-- `mPut` behind the data. -/
def putBehind (b : CFileBuffer) (input : List UInt8) : CFileBuffer :=
  { b with
    theBuffer := mPut b.theBuffer input (b.dataStart + b.dataSize)
    size_le := (length_mPut _ _ _).symm ▸ b.size_le
    start_lt := (length_mPut _ _ _).symm ▸ b.start_lt }

theorem length_putBehind (b : CFileBuffer) (input : List UInt8) :
    (b.putBehind input).theBuffer.length = b.theBuffer.length := length_mPut _ _ _

/-- A turn of `insert`, `none` when it tries again. -/
def insert (b : CFileBuffer) (input : List UInt8) : Option CFileBuffer :=
  if b.noMoreRemove then some b
  else if h : input.length + b.dataSize > b.theBuffer.length then none
  else
    some ((b.putBehind input).grow input.length
      (Nat.le_trans (Nat.le_of_not_lt h) (length_putBehind b input).ge))

def contents (b : CFileBuffer) : List UInt8 := (b.theBuffer.rotate b.dataStart).take b.dataSize

/-- The `size` bytes from `m_the_buffer + m_data_start` on. -/
def window (b : CFileBuffer) (size : Nat) : List UInt8 := (b.theBuffer.drop b.dataStart).take size

variable {b b' : CFileBuffer}

theorem length_contents (b : CFileBuffer) : b.contents.length = b.dataSize := by
  rw [contents, List.length_take, List.length_rotate, min_eq_left b.size_le]

theorem window_eq {size : Nat} (hpiece : b.dataStart + size ≤ b.theBuffer.length)
    (hsize : size ≤ b.dataSize) : b.window size = b.contents.take size := by
  rw [window, contents, ← take_rotate hpiece, List.take_take, min_eq_left hsize]

theorem contents_resort (b : CFileBuffer) : b.resort.contents = b.contents := by
  have hget := mGet_eq b.theBuffer b.dataStart b.size_le
  have hlen : (mGet b.theBuffer b.dataSize b.dataStart).length = b.dataSize := by
    rw [hget]
    exact b.length_contents
  have hput := rotate_mPut b.theBuffer 0 (hlen.trans_le b.size_le)
  change ((mPut b.theBuffer _ 0).rotate 0).take b.dataSize = _
  rw [hput, List.take_left' hlen]
  exact hget

/-- **`wait_for_data` returns** with the data as they were, and those it speaks of in one
piece. -/
theorem waitForData_spec {size n : Nat} (h : b.waitForData size = some (b', n)) :
    b'.contents = b.contents ∧ b'.dataSize = b.dataSize ∧
      b'.theBuffer.length = b.theBuffer.length ∧ b'.noMoreData = b.noMoreData ∧
      b'.noMoreRemove = b.noMoreRemove ∧ b'.dataStart + n ≤ b'.theBuffer.length ∧
      n ≤ b.dataSize ∧ (b.noMoreData = true ∧ n = min size b.dataSize ∨
        b.noMoreData = false ∧ n = size) := by
  have hn : b' = (if b.dataStart + size ≥ b.theBuffer.length then b.resort else b) ∧
      n ≤ size ∧ n ≤ b.dataSize ∧ (b.noMoreData = true ∧ n = min size b.dataSize ∨
        b.noMoreData = false ∧ n = size) := by
    simp only [waitForData] at h
    cases hmore : b.noMoreData with
    | true =>
      rw [hmore, if_pos rfl, Option.some.injEq, Prod.mk.injEq] at h
      obtain ⟨rfl, rfl⟩ := h
      exact ⟨rfl, min_le_left _ _, min_le_right _ _, .inl ⟨rfl, rfl⟩⟩
    | false =>
      rw [hmore, if_neg Bool.false_ne_true] at h
      obtain ⟨hsize, h⟩ := Option.ite_none_left_eq_some.mp h
      rw [Option.some.injEq, Prod.mk.injEq] at h
      obtain ⟨rfl, rfl⟩ := h
      exact ⟨rfl, Nat.le_refl _, Nat.le_of_not_lt hsize, .inr ⟨rfl, rfl⟩⟩
  obtain ⟨rfl, hsize, hdata, hcases⟩ := hn
  have hroom := b.size_le
  split
  · refine ⟨contents_resort b, rfl, length_mPut _ _ 0, rfl, rfl, ?_, hdata, hcases⟩
    change 0 + n ≤ (mPut b.theBuffer _ 0).length
    rw [length_mPut]
    omega
  · exact ⟨rfl, rfl, rfl, rfl, rfl, by omega, hdata, hcases⟩

theorem waitForData_none {size : Nat} (h : b.waitForData size = none) :
    b.noMoreData = false ∧ b.dataSize < size := by
  simp only [waitForData] at h
  cases hmore : b.noMoreData with
  | true =>
    rw [hmore, if_pos rfl] at h
    cases h
  | false =>
    rw [hmore, if_neg Bool.false_ne_true] at h
    by_contra hsize
    rw [if_neg (by simpa using hsize)] at h
    cases h

theorem contents_removeData (b : CFileBuffer) (size : Nat) :
    (b.removeData size).contents = b.contents.drop size := by
  have hmin : b.contents.drop size = b.contents.drop (min size b.dataSize) := by
    rcases Nat.le_total size b.dataSize with h | h
    · rw [min_eq_left h]
    · rw [min_eq_right h, List.drop_of_length_le (by rwa [length_contents]),
        List.drop_of_length_le (by rw [length_contents])]
  rw [hmin]
  change (b.theBuffer.rotate ((b.dataStart + min size b.dataSize) % b.theBuffer.length)).take
    (b.dataSize - min size b.dataSize) = _
  have hle := b.size_le
  have hfront : min size b.dataSize ≤ (b.theBuffer.rotate b.dataStart).length := by
    rw [List.length_rotate]; omega
  rw [List.rotate_mod, ← List.rotate_rotate, List.rotate_eq_drop_append_take hfront,
    List.take_append_of_le_length (by rw [List.length_drop, List.length_rotate]; omega), contents,
    List.drop_take]

/-- A byte of a chunk is copied to its place behind the data. -/
def putByte (b : CFileBuffer) (i : Nat) (byte : UInt8) : CFileBuffer :=
  { b with
    theBuffer := b.theBuffer.set ((b.dataStart + (b.dataSize + i)) % b.theBuffer.length) byte
    size_le := by rw [List.length_set]; exact b.size_le
    start_lt := by rw [List.length_set]; exact b.start_lt }

def behind (b : CFileBuffer) : List UInt8 := (b.theBuffer.rotate b.dataStart).drop b.dataSize

theorem rotate_putByte {i : Nat} (h : b.dataSize + i < b.theBuffer.length) (byte : UInt8) :
    (b.putByte i byte).theBuffer.rotate b.dataStart =
      (b.theBuffer.rotate b.dataStart).set (b.dataSize + i) byte :=
  rotate_set _ h b.dataStart byte

/-- **Copying leaves the data alone.** -/
theorem contents_putByte {i : Nat} (h : b.dataSize + i < b.theBuffer.length) (byte : UInt8) :
    (b.putByte i byte).contents = b.contents := by
  change ((b.putByte i byte).theBuffer.rotate b.dataStart).take b.dataSize = _
  rw [rotate_putByte h, List.take_set_of_le (Nat.le_add_right _ _), contents]

theorem behind_putByte {i : Nat} (h : b.dataSize + i < b.theBuffer.length) (byte : UInt8) :
    (b.putByte i byte).behind = b.behind.set i byte := by
  change ((b.putByte i byte).theBuffer.rotate b.dataStart).drop b.dataSize = _
  rw [rotate_putByte h, List.drop_set, if_neg (by omega), Nat.add_sub_cancel_left, behind]

theorem contents_grow {size : Nat} (h : size + b.dataSize ≤ b.theBuffer.length) :
    (b.grow size h).contents = b.contents ++ b.behind.take size := by
  change (b.theBuffer.rotate b.dataStart).take (b.dataSize + size) = _
  rw [List.take_add, contents, behind]

/-- The first `n` bytes of a chunk are copied. -/
def putBytes (b : CFileBuffer) (input : List UInt8) : Nat → CFileBuffer
  | 0 => b
  | n + 1 => (b.putBytes input n).putByte n (input.getD n 0)

theorem putBytes_eq (b : CFileBuffer) (input : List UInt8) (n : Nat) :
    (b.putBytes input n).theBuffer =
        fill (fun i => (b.dataStart + (b.dataSize + i)) % b.theBuffer.length)
          (fun i => input.getD i 0) n b.theBuffer ∧
      (b.putBytes input n).dataSize = b.dataSize ∧
      (b.putBytes input n).dataStart = b.dataStart ∧
      (b.putBytes input n).noMoreData = b.noMoreData ∧
      (b.putBytes input n).noMoreRemove = b.noMoreRemove := by
  induction n with
  | zero => exact ⟨rfl, rfl, rfl, rfl, rfl⟩
  | succ n ih =>
    obtain ⟨hbuffer, hsize, hstart, hdata, hremove⟩ := ih
    refine ⟨?_, hsize, hstart, hdata, hremove⟩
    change (b.putBytes input n).theBuffer.set (((b.putBytes input n).dataStart +
      ((b.putBytes input n).dataSize + n)) % (b.putBytes input n).theBuffer.length) _ = _
    rw [hbuffer, hsize, hstart, length_fill, fill_succ]

/-- **The copying of a chunk**, byte by byte, is what `mPut` does. -/
theorem putBytes_length {input : List UInt8}
    (h : input.length + b.dataSize ≤ b.theBuffer.length) :
    b.putBytes input input.length = b.putBehind input := by
  obtain ⟨hbuffer, hsize, hstart, hdata, hremove⟩ := putBytes_eq b input input.length
  have hput : (b.putBytes input input.length).theBuffer =
      mPut b.theBuffer input (b.dataStart + b.dataSize) := by
    refine List.rotate_injective (b.dataStart + b.dataSize) ?_
    have hkey : (fun i => (b.dataStart + (b.dataSize + i)) % b.theBuffer.length) =
        fun i => (b.dataStart + b.dataSize + (0 + i)) % b.theBuffer.length := by
      funext i
      rw [Nat.zero_add, Nat.add_assoc]
    have hloop := rotate_fill b.theBuffer (b.dataStart + b.dataSize) 0
      (fun i => input.getD i 0) (n := input.length) (by omega)
    rw [map_getD_range input 0 (Nat.le_refl _), List.take_length, List.take_zero, List.nil_append,
      Nat.zero_add] at hloop
    change List.rotate _ _ = List.rotate _ _
    rw [hbuffer, hkey, hloop, rotate_mPut _ _ (by omega)]
  rcases hb : b.putBytes input input.length with ⟨_, _, _, _, _, _, _⟩
  rw [hb] at hbuffer hsize hstart hdata hremove hput
  subst hput hsize hstart hdata hremove
  rfl

/-- `no_more_data = true`. -/
def endData (b : CFileBuffer) : CFileBuffer := { b with noMoreData := true }

end CFileBuffer

/-! ## The two threads -/

/-- Where `feeder_thread` is: in front of `fread`, in front of the lock of `insert`, under it
with the first bytes of the chunk copied, or behind its loop. -/
inductive Feeder
  | reading
  | inserting (chunk : List UInt8)
  | copying (chunk : List UInt8) (copied : Nat)
  | finished

def Feeder.locks : Feeder → Bool
  | .reading => false
  | .inserting _ => false
  | .copying _ _ => true
  | .finished => false

/-- What the feeder has read and not yet inserted. -/
def Feeder.pending : Feeder → List UInt8
  | .reading => []
  | .inserting chunk => chunk
  | .copying chunk _ => chunk
  | .finished => []

/-- Where the reader is: in front of the lock of `wait_for_data`, or behind it with the size
that was returned. -/
inductive Reader
  | asking
  | looking (dataRead : Nat)

/-- The two threads: the buffer between them, what `fread` has not read yet, and the units the
reader has taken. -/
structure Pipe where
  buffer : CFileBuffer
  file : List UInt8
  feeder : Feeder
  reader : Reader
  taken : List (List UInt8)

namespace Pipe

/-- What the reader looks at, if `wait_for_data` has returned `dataRead`. -/
def window (p : Pipe) (dataRead : Nat) : List UInt8 := p.buffer.window dataRead

/-- The program starts with an empty buffer. -/
def initial (memory : List UInt8) (h : 0 < memory.length) (stream : List UInt8) : Pipe :=
  ⟨.new memory h, stream, .reading, .asking, []⟩

section

-- the length of the unit at the front of a window, the size the reader waits for, that of a chunk
variable (cut : List UInt8 → Option Nat) (wanted chunkSize : Nat)

/-- A step of one of the threads.  Turns of their loops that try again are left out, they
change nothing. -/
inductive Step : Pipe → Pipe → Prop
  | fread {p : Pipe} (got : Nat) (hf : p.feeder = .reading) (hpos : 0 < got)
      (hle : got ≤ chunkSize) (hgot : got ≤ p.file.length) :
      Step p { p with feeder := .inserting (p.file.take got), file := p.file.drop got }
  | eof {p : Pipe} (hf : p.feeder = .reading) (hfile : p.file = []) :
      Step p { p with buffer := p.buffer.endData, feeder := .finished }
  | refuse {p : Pipe} {chunk : List UInt8} (hf : p.feeder = .inserting chunk)
      (hremove : p.buffer.noMoreRemove = true) : Step p { p with feeder := .reading }
  | lock {p : Pipe} {chunk : List UInt8} (hf : p.feeder = .inserting chunk)
      (hremove : p.buffer.noMoreRemove = false)
      (hroom : chunk.length + p.buffer.dataSize ≤ p.buffer.theBuffer.length) :
      Step p { p with feeder := .copying chunk 0 }
  | copy {p : Pipe} {chunk : List UInt8} {copied : Nat} (hf : p.feeder = .copying chunk copied)
      (hlt : copied < chunk.length) :
      Step p { p with
        buffer := p.buffer.putByte copied (chunk.getD copied 0)
        feeder := .copying chunk (copied + 1) }
  | unlock {p : Pipe} {chunk : List UInt8} (hf : p.feeder = .copying chunk chunk.length)
      (hroom : chunk.length + p.buffer.dataSize ≤ p.buffer.theBuffer.length) :
      Step p { p with buffer := p.buffer.grow chunk.length hroom, feeder := .reading }
  | wait {p : Pipe} {b : CFileBuffer} {dataRead : Nat} (hr : p.reader = .asking)
      (hlock : p.feeder.locks = false)
      (hwait : p.buffer.waitForData wanted = some (b, dataRead)) :
      Step p { p with buffer := b, reader := .looking dataRead }
  | take {p : Pipe} {dataRead size : Nat} (hr : p.reader = .looking dataRead)
      (hlock : p.feeder.locks = false) (hcut : cut (p.window dataRead) = some size)
      (hpos : 0 < size) :
      Step p { p with
        buffer := p.buffer.removeData size
        reader := .asking
        taken := p.taken ++ [(p.window dataRead).take size] }

/-- `n` steps of the threads, in any order. -/
inductive Run : Pipe → Nat → Pipe → Prop
  | start (p : Pipe) : Run p 0 p
  | step {p q r : Pipe} {n : Nat} (h : Run p n q) (hstep : Step cut wanted chunkSize q r) :
      Run p (n + 1) r

/-- A reader that has the whole stream at hand, and what it leaves of it. -/
inductive Reads (stream : List UInt8) : List (List UInt8) → List UInt8 → Prop
  | start : Reads stream [] stream
  | unit {units : List (List UInt8)} {rest : List UInt8} {size : Nat}
      (h : Reads stream units rest) (hcut : cut (rest.take wanted) = some size)
      (hpos : 0 < size) : Reads stream (units ++ [rest.take size]) (rest.drop size)

def rest (p : Pipe) : List UInt8 := p.buffer.contents ++ p.feeder.pending ++ p.file

structure Inv (stream : List UInt8) (capacity : Nat) (p : Pipe) : Prop where
  reads : Reads cut wanted stream p.taken p.rest
  capacity_eq : p.buffer.theBuffer.length = capacity
  removing : p.buffer.noMoreRemove = false
  ended : p.buffer.noMoreData = true ↔ p.feeder = .finished
  drained : p.feeder = .finished → p.file = []
  inserting : ∀ chunk, p.feeder = .inserting chunk → chunk ≠ [] ∧ chunk.length ≤ chunkSize
  copying : ∀ chunk copied, p.feeder = .copying chunk copied → copied ≤ chunk.length ∧
    chunk.length + p.buffer.dataSize ≤ p.buffer.theBuffer.length ∧
    p.buffer.behind.take copied = chunk.take copied
  looking : ∀ dataRead, p.reader = .looking dataRead →
    p.buffer.dataStart + dataRead ≤ p.buffer.theBuffer.length ∧ dataRead ≤ p.buffer.dataSize ∧
    dataRead = min wanted p.rest.length

end

variable {cut : List UInt8 → Option Nat} {wanted chunkSize capacity : Nat} {stream : List UInt8}
  {p q : Pipe}

theorem Inv.initial {memory : List UInt8} (h : 0 < memory.length) :
    Inv cut wanted chunkSize stream memory.length (initial memory h stream) where
  reads := .start
  capacity_eq := rfl
  removing := rfl
  ended := ⟨fun h => Bool.noConfusion h, fun h => Feeder.noConfusion h⟩
  drained := fun h => by cases h
  inserting := fun _ h => by cases h
  copying := fun _ _ h => by cases h
  looking := fun _ h => by cases h

/-- **The window of the reader** is the front of what it has still to see. -/
theorem Inv.window_eq (h : Inv cut wanted chunkSize stream capacity p) {dataRead : Nat}
    (hr : p.reader = .looking dataRead) : p.window dataRead = p.rest.take wanted := by
  obtain ⟨hpiece, hsize, hn⟩ := h.looking dataRead hr
  have hlen : dataRead ≤ p.buffer.contents.length := by rwa [CFileBuffer.length_contents]
  have hfront : p.buffer.contents.take dataRead = p.rest.take dataRead := by
    rw [rest, List.append_assoc, List.take_append_of_le_length hlen]
  rw [window, CFileBuffer.window_eq hpiece hsize, hfront, hn]
  rcases Nat.le_total wanted p.rest.length with hle | hle
  · rw [min_eq_left hle]
  · rw [min_eq_right hle, List.take_length, List.take_of_length_le hle]

/-- The reader of `read_a_nal` takes no more than it sees. -/
theorem Inv.size_le (hcut : ∀ l k, cut l = some k → k ≤ l.length)
    (h : Inv cut wanted chunkSize stream capacity p) {dataRead size : Nat}
    (hr : p.reader = .looking dataRead) (hsize : cut (p.window dataRead) = some size) :
    size ≤ dataRead ∧ size ≤ p.buffer.dataSize := by
  have hle := hcut _ _ hsize
  have hn := (h.looking dataRead hr).2.1
  rw [window, CFileBuffer.window, List.length_take] at hle
  omega

theorem Inv.outlives (h : Inv cut wanted chunkSize stream capacity p)
    (hreader : q.reader = p.reader) (hrest : q.rest = p.rest)
    (hstart : q.buffer.dataStart = p.buffer.dataStart)
    (hsize : p.buffer.dataSize ≤ q.buffer.dataSize)
    (hlen : q.buffer.theBuffer.length = p.buffer.theBuffer.length) :
    ∀ dataRead, q.reader = .looking dataRead →
      q.buffer.dataStart + dataRead ≤ q.buffer.theBuffer.length ∧
        dataRead ≤ q.buffer.dataSize ∧ dataRead = min wanted q.rest.length := by
  intro dataRead hr
  obtain ⟨hpiece, hle, hn⟩ := h.looking dataRead (hreader ▸ hr)
  exact ⟨by omega, by omega, hrest ▸ hn⟩

/-- The bytes of a chunk that is copied stand behind the data. -/
theorem Inv.copied (h : Inv cut wanted chunkSize stream capacity p) {chunk : List UInt8}
    (hf : p.feeder = .copying chunk chunk.length) :
    p.buffer.behind.take chunk.length = chunk := by
  rw [(h.copying chunk chunk.length hf).2.2, List.take_length]

/-- **A step of the feeder** keeps the invariant, and what the reader has still to see. -/
theorem Inv.feed (h : Inv cut wanted chunkSize stream capacity p) {feeder : Feeder}
    {file : List UInt8} {b : CFileBuffer} (hq : q = ⟨b, file, feeder, p.reader, p.taken⟩)
    (hrest : b.contents ++ feeder.pending ++ file = p.rest)
    (hstart : b.dataStart = p.buffer.dataStart) (hsize : p.buffer.dataSize ≤ b.dataSize)
    (hlen : b.theBuffer.length = p.buffer.theBuffer.length)
    (hremove : b.noMoreRemove = p.buffer.noMoreRemove)
    (hended : b.noMoreData = true ↔ feeder = .finished)
    (hdrained : feeder = .finished → file = [])
    (hinserting : ∀ chunk, feeder = .inserting chunk → chunk ≠ [] ∧ chunk.length ≤ chunkSize)
    (hcopying : ∀ chunk copied, feeder = .copying chunk copied → copied ≤ chunk.length ∧
      chunk.length + b.dataSize ≤ b.theBuffer.length ∧
      b.behind.take copied = chunk.take copied) :
    Inv cut wanted chunkSize stream capacity q := by
  subst hq
  have hrest : Pipe.rest ⟨b, file, feeder, p.reader, p.taken⟩ = p.rest := hrest
  exact ⟨hrest ▸ h.reads, hlen.trans h.capacity_eq, hremove.trans h.removing, hended, hdrained,
    hinserting, hcopying, h.outlives rfl hrest hstart hsize hlen⟩

/-- **One step** of either thread. -/
theorem Inv.step (hcut : ∀ l k, cut l = some k → k ≤ l.length)
    (h : Inv cut wanted chunkSize stream capacity p) (hstep : Step cut wanted chunkSize p q) :
    Inv cut wanted chunkSize stream capacity q := by
  have hrest : p.rest = p.buffer.contents ++ p.feeder.pending ++ p.file := rfl
  have hended := h.ended
  cases hstep with
  | fread got hf hpos hle hgot =>
    rw [hf] at hrest hended
    refine h.feed rfl ?_ rfl (Nat.le_refl _) rfl rfl (hended.trans (by simp))
      (fun h => by cases h) ?_ (fun _ _ h => by cases h)
    · rw [hrest, Feeder.pending, Feeder.pending, List.append_nil, List.append_assoc,
        List.take_append_drop]
    · intro chunk hchunk
      obtain rfl : p.file.take got = chunk := Feeder.inserting.inj hchunk
      have hlen : (p.file.take got).length = got := by rw [List.length_take, min_eq_left hgot]
      exact ⟨List.length_pos_iff.mp (by omega), by omega⟩
  | eof hf hfile =>
    rw [hf] at hrest
    exact h.feed rfl hrest.symm rfl (Nat.le_refl _) rfl rfl (by simp [CFileBuffer.endData])
      (fun _ => hfile) (fun _ h => by cases h) (fun _ _ h => by cases h)
  | refuse hf hremove => exact absurd (h.removing.symm.trans hremove) Bool.false_ne_true
  | @lock chunk hf hremove hroom =>
    rw [hf] at hrest hended
    refine h.feed rfl hrest.symm rfl (Nat.le_refl _) rfl rfl (hended.trans (by simp))
      (fun h => by cases h) (fun _ h => by cases h) ?_
    intro chunk' copied hchunk
    obtain ⟨rfl, rfl⟩ := Feeder.copying.inj hchunk
    exact ⟨Nat.zero_le _, hroom, rfl⟩
  | @copy chunk copied hf hlt =>
    obtain ⟨-, hroom, hbehind⟩ := h.copying chunk copied hf
    rw [hf] at hrest hended
    have hplace : p.buffer.dataSize + copied < p.buffer.theBuffer.length := by omega
    have hlen : (p.buffer.putByte copied (chunk.getD copied 0)).theBuffer.length =
        p.buffer.theBuffer.length := List.length_set
    refine h.feed rfl ?_ rfl (Nat.le_refl _) hlen rfl (hended.trans (by simp))
      (fun h => by cases h) (fun _ h => by cases h) ?_
    · rw [CFileBuffer.contents_putByte hplace, hrest]
      rfl
    · intro chunk' copied' hchunk
      obtain ⟨rfl, rfl⟩ := Feeder.copying.inj hchunk
      have hin : copied < p.buffer.behind.length := by
        rw [CFileBuffer.behind, List.length_drop, List.length_rotate]
        omega
      refine ⟨hlt, hlen.symm ▸ hroom, ?_⟩
      rw [CFileBuffer.behind_putByte hplace, List.take_add_one,
        List.take_set_of_le (Nat.le_refl _), List.getElem?_set_self hin, hbehind,
        List.take_add_one, List.getD_eq_getElem?_getD, List.getElem?_eq_getElem hlt]
      rfl
  | @unlock chunk hf hroom =>
    rw [hf] at hrest hended
    refine h.feed rfl ?_ rfl (Nat.le_add_right _ _) rfl rfl (hended.trans (by simp))
      (fun h => by cases h) (fun _ h => by cases h) (fun _ _ h => by cases h)
    rw [CFileBuffer.contents_grow, h.copied hf, hrest, Feeder.pending, Feeder.pending,
      List.append_nil]
  | @wait b dataRead hr hlock hwait =>
    obtain ⟨hcontents, hsize, hlen, hdata, hremove, hpiece, hle, hcases⟩ :=
      CFileBuffer.waitForData_spec hwait
    have hsame : Pipe.rest { p with buffer := b, reader := .looking dataRead } = p.rest :=
      congrArg (· ++ p.feeder.pending ++ p.file) hcontents
    have hunlocked : ∀ chunk copied, p.feeder ≠ .copying chunk copied := by
      intro chunk copied hf
      rw [hf] at hlock
      cases hlock
    refine ⟨hsame ▸ h.reads, hlen.trans h.capacity_eq, hremove.trans h.removing,
      hdata ▸ hended, h.drained, h.inserting, fun chunk copied hf => absurd hf (hunlocked _ _),
      fun n hn => ?_⟩
    obtain rfl := Reader.looking.inj hn
    refine ⟨hpiece, hsize.symm ▸ hle, ?_⟩
    rw [hsame]
    rcases hcases with ⟨hmore, rfl⟩ | ⟨-, rfl⟩
    · have hf := hended.mp hmore
      rw [hrest, hf, h.drained hf, Feeder.pending, List.append_nil, List.append_nil,
        CFileBuffer.length_contents]
    · have hshown : p.buffer.contents.length ≤ p.rest.length := by
        rw [hrest, List.append_assoc, List.length_append]
        exact Nat.le_add_right _ _
      rw [CFileBuffer.length_contents] at hshown
      rw [min_eq_left (by omega)]
  | @take dataRead size hr hlock hsize hpos =>
    obtain ⟨hle, hdata⟩ := h.size_le hcut hr hsize
    have hwindow := h.window_eq hr
    have hcontents := CFileBuffer.contents_removeData p.buffer size
    have hunlocked : ∀ chunk copied, p.feeder ≠ .copying chunk copied := by
      intro chunk copied hf
      rw [hf] at hlock
      cases hlock
    have hdrop : Pipe.rest { p with
        buffer := p.buffer.removeData size
        reader := .asking
        taken := p.taken ++ [(p.window dataRead).take size] } = p.rest.drop size := by
      rw [rest, hcontents, hrest, List.append_assoc, List.append_assoc,
        List.drop_append_of_le_length (by rwa [CFileBuffer.length_contents])]
    have hunit : (p.window dataRead).take size = p.rest.take size := by
      have hn := (h.looking dataRead hr).2.2
      rw [hwindow, List.take_take, min_eq_left (by omega)]
    refine ⟨?_, h.capacity_eq, h.removing, hended, h.drained, h.inserting,
      fun chunk copied hf => absurd hf (hunlocked _ _), fun _ h => by cases h⟩
    rw [hdrop]
    change Reads cut wanted stream (p.taken ++ [(p.window dataRead).take size]) _
    rw [hunit]
    exact h.reads.unit (hwindow ▸ hsize) hpos

theorem Inv.run (hcut : ∀ l k, cut l = some k → k ≤ l.length) {n : Nat}
    (hrun : Run cut wanted chunkSize p n q) (h : Inv cut wanted chunkSize stream capacity p) :
    Inv cut wanted chunkSize stream capacity q := by
  induction hrun with
  | start => exact h
  | step _ hstep ih => exact ih.step hcut hstep

/-! ## Runs end -/

def feederWork : Feeder → Nat
  | .reading => 1
  | .inserting chunk => chunk.length + 3
  | .copying chunk copied => chunk.length - copied + 2
  | .finished => 0

/-- What is left to do for the reader at its place. -/
def readerWork : Reader → Nat
  | .asking => 1
  | .looking _ => 0

def work (p : Pipe) : Nat :=
  4 * p.file.length + feederWork p.feeder + 2 * p.rest.length + readerWork p.reader

theorem length_rest (p : Pipe) :
    p.rest.length = p.buffer.dataSize + p.feeder.pending.length + p.file.length := by
  rw [rest, List.length_append, List.length_append, CFileBuffer.length_contents]

theorem work_initial (memory : List UInt8) (h : 0 < memory.length) :
    (initial memory h stream).work = 6 * stream.length + 2 := by
  change 4 * stream.length + 1 + 2 * stream.length + 1 = _
  omega

/-- **A step is work done.** -/
theorem Inv.work_lt (hcut : ∀ l k, cut l = some k → k ≤ l.length)
    (h : Inv cut wanted chunkSize stream capacity p) (hstep : Step cut wanted chunkSize p q) :
    q.work < p.work := by
  simp only [work, length_rest]
  cases hstep with
  | fread got hf hpos hle hgot =>
    simp only [hf, Feeder.pending, feederWork, List.length_take, List.length_drop, List.length_nil]
    omega
  | eof hf hfile =>
    simp only [hf, hfile, Feeder.pending, feederWork, CFileBuffer.endData]
    omega
  | refuse hf hremove => exact absurd (h.removing.symm.trans hremove) Bool.false_ne_true
  | lock hf hremove hroom =>
    simp only [hf, Feeder.pending, feederWork]
    omega
  | copy hf hlt =>
    simp only [hf, Feeder.pending, feederWork, CFileBuffer.putByte]
    omega
  | unlock hf hroom =>
    simp only [hf, Feeder.pending, feederWork, CFileBuffer.grow, List.length_nil]
    omega
  | wait hr hlock hwait =>
    simp only [hr, readerWork, (CFileBuffer.waitForData_spec hwait).2.1]
    omega
  | take hr hlock hsize hpos =>
    have hle := (h.size_le hcut hr hsize).2
    simp only [hr, readerWork, CFileBuffer.removeData]
    omega

/-- **No run is longer** than the work there is. -/
theorem Inv.length_le (hcut : ∀ l k, cut l = some k → k ≤ l.length) {n : Nat}
    (hrun : Run cut wanted chunkSize p n q) (h : Inv cut wanted chunkSize stream capacity p) :
    n + q.work ≤ p.work := by
  induction hrun with
  | start => exact (Nat.zero_add _).le
  | step hrun hstep ih =>
    have := (h.run hcut hrun).work_lt hcut hstep
    omega

/-- Where no step is left the feeder is through, or its chunk does not fit. -/
theorem Inv.feeder_stuck (h : Inv cut wanted chunkSize stream capacity p) (hchunk : 0 < chunkSize)
    (hstuck : ∀ q, ¬ Step cut wanted chunkSize p q) :
    p.feeder = .finished ∨ ∃ chunk, p.feeder = .inserting chunk ∧
      capacity < chunk.length + p.buffer.dataSize := by
  cases hf : p.feeder with
  | reading =>
    cases hfile : p.file with
    | nil => exact absurd (.eof hf hfile) (hstuck _)
    | cons byte file =>
      exact absurd (.fread 1 hf Nat.one_pos hchunk (by rw [hfile]; exact Nat.le_add_left 1 _))
        (hstuck _)
  | inserting chunk =>
    refine .inr ⟨chunk, rfl, Nat.lt_of_not_le fun hle => ?_⟩
    exact hstuck _ (.lock hf h.removing (h.capacity_eq.symm ▸ hle))
  | copying chunk copied =>
    obtain ⟨hle, hfits, -⟩ := h.copying chunk copied hf
    rcases Nat.lt_or_eq_of_le hle with hlt | rfl
    · exact absurd (.copy hf hlt) (hstuck _)
    · exact absurd (.unlock hf hfits) (hstuck _)
  | finished => exact .inl rfl

/-- **The threads do not wait for each other.**  The feeder waits for room when there is
less than a chunk, the reader for data when there is less than it wants: where no step is left
the reader has been shown all it may still see and takes none of it. -/
theorem Inv.stuck (h : Inv cut wanted chunkSize stream capacity p) (hchunk : 0 < chunkSize)
    (hroom : chunkSize + wanted ≤ capacity + 1) (hstuck : ∀ q, ¬ Step cut wanted chunkSize p q) :
    (∃ dataRead, p.reader = .looking dataRead) ∧
      ∀ size, cut (p.rest.take wanted) = some size → size = 0 := by
  have hfeeder := h.feeder_stuck hchunk hstuck
  have hlock : p.feeder.locks = false := by
    rcases hfeeder with hf | ⟨chunk, hf, -⟩
    · rw [hf]; rfl
    · rw [hf]; rfl
  have hlooking : ∃ dataRead, p.reader = .looking dataRead := by
    cases hr : p.reader with
    | looking dataRead => exact ⟨dataRead, rfl⟩
    | asking =>
      cases hwait : p.buffer.waitForData wanted with
      | some r => exact absurd (.wait hr hlock hwait) (hstuck _)
      | none =>
        obtain ⟨hmore, hless⟩ := CFileBuffer.waitForData_none hwait
        rcases hfeeder with hf | ⟨chunk, hf, hfull⟩
        · exact absurd (hmore.symm.trans (h.ended.mpr hf)) Bool.false_ne_true
        · have := (h.inserting chunk hf).2
          omega
  refine ⟨hlooking, fun size hsize => ?_⟩
  obtain ⟨dataRead, hr⟩ := hlooking
  by_contra hpos
  exact hstuck _ (.take hr hlock (h.window_eq hr ▸ hsize) (Nat.pos_of_ne_zero hpos))

/-- A run goes on until no step is left. -/
theorem Inv.stops (hcut : ∀ l k, cut l = some k → k ≤ l.length)
    (h : Inv cut wanted chunkSize stream capacity p) : ∀ (left : Nat) {n : Nat} {q : Pipe},
    Run cut wanted chunkSize p n q → q.work ≤ left →
    ∃ m r, Run cut wanted chunkSize p m r ∧ ∀ s, ¬ Step cut wanted chunkSize r s := by
  intro left
  induction left with
  | zero =>
    intro n q hrun hleft
    refine ⟨n, q, hrun, fun r hstep => ?_⟩
    have := (h.run hcut hrun).work_lt hcut hstep
    omega
  | succ left ih =>
    intro n q hrun hleft
    by_cases hstuck : ∀ r, ¬ Step cut wanted chunkSize q r
    · exact ⟨n, q, hrun, hstuck⟩
    · push Not at hstuck
      obtain ⟨r, hstep⟩ := hstuck
      have hlt := (h.run hcut hrun).work_lt hcut hstep
      exact ih (hrun.step hstep) (by omega)

/-! ## What the reader gets -/

/-- The units of a stream, for a reader that has it at hand; the last call returns `0`. -/
def readUnits (cut : List UInt8 → Option Nat) (wanted : Nat) :
    Nat → List UInt8 → Option (List (List UInt8))
  | 0, _ => none
  | fuel + 1, rest => do
    let size ← cut (rest.take wanted)
    if size = 0 then some []
    else (readUnits cut wanted fuel (rest.drop size)).map (rest.take size :: ·)

theorem Reads.flatten {units : List (List UInt8)} {rest : List UInt8}
    (h : Reads cut wanted stream units rest) : units.flatten ++ rest = stream := by
  induction h with
  | start => rfl
  | unit h hcut hpos ih =>
    rw [List.flatten_append, List.flatten_singleton, List.append_assoc, List.take_append_drop, ih]

theorem Reads.units_eq {units all : List (List UInt8)} {rest : List UInt8} {fuel : Nat}
    (h : Reads cut wanted stream units rest) (hall : readUnits cut wanted fuel stream = some all) :
    ∃ fuel' more, readUnits cut wanted fuel' rest = some more ∧ all = units ++ more := by
  induction h with
  | start => exact ⟨fuel, all, hall, rfl⟩
  | @unit units rest size h hcut hpos ih =>
    obtain ⟨fuel', more, hmore, rfl⟩ := ih
    cases fuel' with
    | zero => cases hmore
    | succ fuel' =>
      rw [readUnits, hcut, Option.bind_eq_bind, Option.bind_some, if_neg (by omega)] at hmore
      obtain ⟨more', hmore', rfl⟩ := Option.map_eq_some_iff.mp hmore
      exact ⟨fuel', more', hmore', List.append_cons ..⟩

/-- Where the reader stops it has read them all. -/
theorem Reads.stopped {units all : List (List UInt8)} {rest : List UInt8} {fuel : Nat}
    (h : Reads cut wanted stream units rest) (hall : readUnits cut wanted fuel stream = some all)
    (hstop : ∀ size, cut (rest.take wanted) = some size → size = 0) :
    units = all ∧ cut (rest.take wanted) = some 0 := by
  obtain ⟨fuel', more, hmore, rfl⟩ := h.units_eq hall
  cases fuel' with
  | zero => cases hmore
  | succ fuel' =>
    rw [readUnits] at hmore
    obtain ⟨size, hsize, hmore⟩ := Option.bind_eq_some_iff.mp hmore
    obtain rfl := hstop size hsize
    rw [if_pos rfl, Option.some.injEq] at hmore
    exact ⟨by rw [← hmore, List.append_nil], hsize⟩

/-- **A turn of `insert`** is what the feeder does from the lock on, when no step of the reader
comes in between. -/
theorem run_insert {chunk : List UInt8} {b : CFileBuffer} (hf : p.feeder = .inserting chunk)
    (hremove : p.buffer.noMoreRemove = false) (h : p.buffer.insert chunk = some b) :
    Run cut wanted chunkSize p (chunk.length + 2) { p with buffer := b, feeder := .reading } := by
  rw [CFileBuffer.insert, hremove, if_neg Bool.false_ne_true] at h
  split at h
  · cases h
  · rename_i hroom
    have hle : chunk.length + p.buffer.dataSize ≤ p.buffer.theBuffer.length :=
      Nat.le_of_not_lt hroom
    have hcopies : ∀ n ≤ chunk.length, Run cut wanted chunkSize p (n + 1)
        { p with buffer := p.buffer.putBytes chunk n, feeder := .copying chunk n } := by
      intro n
      induction n with
      | zero => intro _; exact .step (.start p) (.lock hf hremove hle)
      | succ n ih => intro hn; exact (ih (by omega)).step (.copy rfl hn)
    have hlast := hcopies chunk.length (Nat.le_refl _)
    rw [CFileBuffer.putBytes_length hle] at hlast
    rw [← Option.some.inj h]
    exact hlast.step (.unlock rfl _)

/-- **A run delivers the stream**, whatever the order of the steps: it is no longer than the
work there is, the units so far are the first ones the reader would cut by itself, and where
no step is left they are all of them. -/
theorem delivers (hcut : ∀ l k, cut l = some k → k ≤ l.length) {memory : List UInt8}
    (hmemory : 0 < memory.length) (hchunk : 0 < chunkSize)
    (hroom : chunkSize + wanted ≤ memory.length + 1) {fuel : Nat} {all : List (List UInt8)}
    (hall : readUnits cut wanted fuel stream = some all) {n : Nat}
    (hrun : Run cut wanted chunkSize (initial memory hmemory stream) n p) :
    n ≤ 6 * stream.length + 2 ∧ p.taken <+: all ∧
      ((∀ q, ¬ Step cut wanted chunkSize p q) →
        p.taken = all ∧ cut (p.rest.take wanted) = some 0) := by
  have hinitial : Inv cut wanted chunkSize stream memory.length (initial memory hmemory stream) :=
    .initial hmemory
  have h := hinitial.run hcut hrun
  have hlen := hinitial.length_le hcut hrun
  rw [work_initial] at hlen
  obtain ⟨-, more, -, hmore⟩ := h.reads.units_eq hall
  exact ⟨by omega, ⟨more, hmore.symm⟩,
    fun hstuck => h.reads.stopped hall (h.stuck hchunk hroom hstuck).2⟩

/-- **The reader looks at the stream**, in every state of every run: no byte is lost, doubled
or out of its place, and the memory it reads without the lock is the front of what follows the
units it has taken, also while the feeder copies a chunk. -/
theorem looks_at_stream (hcut : ∀ l k, cut l = some k → k ≤ l.length) {memory : List UInt8}
    (hmemory : 0 < memory.length) {n : Nat}
    (hrun : Run cut wanted chunkSize (initial memory hmemory stream) n p) :
    p.taken.flatten ++ p.buffer.contents ++ p.feeder.pending ++ p.file = stream ∧
      ∀ dataRead, p.reader = .looking dataRead →
        dataRead = min wanted (stream.length - p.taken.flatten.length) ∧
          p.window dataRead = (stream.drop p.taken.flatten.length).take wanted := by
  have hinitial : Inv cut wanted chunkSize stream memory.length (initial memory hmemory stream) :=
    .initial hmemory
  have h := hinitial.run hcut hrun
  have hflat := h.reads.flatten
  refine ⟨by simpa [rest] using hflat, fun dataRead hr => ?_⟩
  rw [← hflat, List.drop_left, List.length_append, Nat.add_sub_cancel_left]
  exact ⟨(h.looking dataRead hr).2.2, h.window_eq hr⟩

/-- Two bytes are looked at while another one is copied. -/
theorem looks_at_stream_two : ∃ p : Pipe, p.feeder = .copying [4] 1 ∧ p.reader = .looking 2 ∧
    p.window 2 = [1, 2] := by
  have hread : Run (fun l => some l.length) 2 3
      (initial [0, 0, 0, 0] (Nat.succ_pos 3) [1, 2, 3, 4, 5, 6]) 1 _ :=
    .step (.start _) (.fread 3 rfl (by decide) (by decide) (by decide))
  have hinsert := hread.step (.lock rfl rfl (by decide)) |>.step (.copy rfl (by decide))
    |>.step (.copy rfl (by decide)) |>.step (.copy rfl (by decide))
    |>.step (.unlock rfl (by decide))
  have hlook := hinsert.step (.wait rfl rfl rfl)
  have hcopy := hlook.step (.fread 1 rfl (by decide) (by decide) (by decide))
    |>.step (.lock rfl rfl (by decide)) |>.step (.copy rfl (by decide))
  obtain ⟨-, hwindow⟩ := looks_at_stream (fun l k h => (Option.some.inj h).ge) _ hcopy
  exact ⟨_, rfl, rfl, (hwindow 2 rfl).2.trans (by decide)⟩

/-! ## The interlacer -/

theorem readANal_take (rest : List UInt8) : readANal (rest.take maxNalSize) = readANal rest := by
  simp only [readANal, List.take_take, Nat.min_self]

theorem readANal_le_length (l : List UInt8) (k : Nat) (h : readANal l = some k) :
    k ≤ l.length :=
  (readANal_le h).trans (List.length_take_le' _ _)

theorem readUnits_nals : ∀ {ns : List (List UInt8)}, Chained ns → AllSeen ns →
    readUnits readANal maxNalSize (ns.length + 1) ns.flatten = some ns := by
  intro ns
  induction ns with
  | nil => intro _ _; rfl
  | cons n ns ih =>
    intro hchain hseen
    have hpos : 3 ≤ n.length := isStartCode_length hchain.1
    have hsize : readANal (n ++ ns.flatten) = some n.length := by
      rw [readANal_chained hchain]
      rcases hseen.1 with hfit | ⟨rfl, hlast⟩
      · rw [if_pos hfit]
        split
        · rw [Nat.min_eq_right (by omega)]
        · rfl
      · rw [if_pos rfl, Nat.min_eq_right hlast]
    rw [readUnits, List.flatten_cons, readANal_take, hsize, Option.bind_eq_bind, Option.bind_some,
      if_neg (by omega), List.drop_left, List.take_left, List.length_cons,
      ih hchain.tail hseen.2]
    rfl

/-- The chunks of `feeder_thread`. -/
def feederChunk : Nat := 102400

/-- **The interlacer reads the units of its file.**  The buffer has room for a chunk and a
window, as `left` and `right` have; the file is one whose units `read_a_nal` sees whole. -/
theorem reads_nals {memory : List UInt8} (hmemory : 0 < memory.length)
    (hroom : feederChunk + maxNalSize ≤ memory.length + 1) (hs : isStartCode stream = true)
    (hf : Followed stream) (hseen : AllSeen (nals stream)) {n : Nat}
    (hrun : Run readANal maxNalSize feederChunk (initial memory hmemory stream) n p) :
    n ≤ 6 * stream.length + 2 ∧ p.taken <+: nals stream ∧
      ((∀ q, ¬ Step readANal maxNalSize feederChunk p q) →
        p.taken = nals stream ∧ p.rest = [] ∧ p.feeder = .finished) := by
  obtain ⟨hflat, hchain⟩ := nals_spec hs hf
  have hall := readUnits_nals hchain hseen
  rw [hflat] at hall
  obtain ⟨hlen, hprefix, hend⟩ :=
    delivers readANal_le_length hmemory (by decide) hroom hall hrun
  refine ⟨hlen, hprefix, fun hstuck => ?_⟩
  obtain ⟨htaken, -⟩ := hend hstuck
  have hinitial : Inv readANal maxNalSize feederChunk stream memory.length
    (initial memory hmemory stream) := .initial hmemory
  have h := hinitial.run readANal_le_length hrun
  have hrest : p.rest = [] := by
    have hstream := h.reads.flatten
    rw [htaken, hflat] at hstream
    exact List.self_eq_append_right.mp hstream.symm
  refine ⟨htaken, hrest, ?_⟩
  rcases h.feeder_stuck (by decide) hstuck with hfinished | ⟨chunk, hchunk, -⟩
  · exact hfinished
  · -- a chunk that waits is still to be seen
    rw [rest, hchunk] at hrest
    exact absurd (List.append_eq_nil_iff.mp (List.append_eq_nil_iff.mp hrest).1).2
      (h.inserting chunk hchunk).1

/-- A delimiter, a watermark and a slice. -/
theorem reads_nals_three : ∃ n p, n ≤ 110 ∧
    Run readANal maxNalSize feederChunk
      (initial (List.replicate (maxNalSize * 10) 0) (by rw [List.length_replicate]; decide)
        [0, 0, 1, 9, 16, 0, 0, 0, 1, 31, 7, 0, 0, 1, 1, 6, 7, 8]) n p ∧
      p.taken = [[0, 0, 1, 9, 16], [0, 0, 0, 1, 31, 7], [0, 0, 1, 1, 6, 7, 8]] := by
  have hmemory : 0 < (List.replicate (maxNalSize * 10) (0 : UInt8)).length := by
    rw [List.length_replicate]; decide
  have hroom : feederChunk + maxNalSize ≤
      (List.replicate (maxNalSize * 10) (0 : UInt8)).length + 1 := by
    rw [List.length_replicate]; decide
  obtain ⟨n, p, hrun, hstuck⟩ := (Inv.initial hmemory).stops readANal_le_length _
    (.start _) (Nat.le_refl (work (initial (List.replicate (maxNalSize * 10) 0) hmemory
      [0, 0, 1, 9, 16, 0, 0, 0, 1, 31, 7, 0, 0, 1, 1, 6, 7, 8])))
  have hnals : nals [0, 0, 1, 9, 16, 0, 0, 0, 1, 31, 7, 0, 0, 1, 1, 6, 7, 8] =
      [[0, 0, 1, 9, 16], [0, 0, 0, 1, 31, 7], [0, 0, 1, 1, 6, 7, 8]] := by decide
  obtain ⟨hlen, -, hend⟩ := reads_nals hmemory hroom rfl (by unfold Followed; decide)
    (hnals ▸ ⟨.inl (by decide), .inl (by decide), .inl (by decide), trivial⟩) hrun
  exact ⟨n, p, hlen, hrun, (hend hstuck).1.trans hnals⟩

end Pipe

end DWindow.Mvc
