import DWindow.Lib.Buffer
import DWindow.Lib.ByteOrder

/-!
# The checksum of a video

`video_checksum` of `libchecksum` hashes a buffer that it fills from the file: all of a
small file except its head, and 40 blocks of a large one.  The buffer is a `DWORD` array, so
the head block, which is read to `data+65536`, stands at byte 262144, and there block 2 is
read over it.  `sampleData_eq` is what is left in the buffer.
-/

namespace DWindow.Checksum

open Buffer LittleEndian

def minDataSize : Nat := 128 * 1024 * 40

/-- `ReadFile` behind `my_setfilepointer`. -/
def readAt (file : List UInt8) (offset n : Nat) : List UInt8 :=
  (file.drop offset).take n

/-- `malloc`, `memset`, and the file size at the end. -/
def newData (filesize : Nat) : List UInt8 :=
  writeAt (List.replicate (minDataSize + 8) 0) minDataSize (toLE 8 filesize)

/-- A block: where it stands in the file, where in the buffer, and how long it is. -/
structure Sample where
  offset : Nat
  place : Nat
  size : Nat

/-- Block 0, except the head 64K; a `DWORD` has four bytes. -/
def headSample : Sample := ⟨65536, 4 * 65536, 65536⟩

/-- Block `i` of a large file. -/
def sample (filesize i : Nat) : Sample :=
  ⟨filesize / 40 * i, 4 * (131072 / 4 * i), 131072⟩

/-- The 40 blocks, as they are read. -/
def samples (filesize : Nat) : List Sample :=
  headSample :: (List.range' 1 39).map (sample filesize)

def readSample (file data : List UInt8) (s : Sample) : List UInt8 :=
  writeAt data s.place (readAt file s.offset s.size)

def sampleData (file : List UInt8) : List UInt8 :=
  (samples file.length).foldl (readSample file) (newData file.length)

/-- What `video_checksum` hashes; `none` is its answer -1. -/
def hashInput (file : List UInt8) : Option (List UInt8) :=
  if file.length = 0 then none
  else if file.length < minDataSize then
    some (writeAt (newData file.length) 0 (file.drop 65536))
  else some (sampleData file)

/-- **The checksum covers what it samples**: every block stands at its place, no two places
overlap, and another file of the size with another byte in a block has another hash input. -/
structure Covers (file : List UInt8) : Prop where
  held : ∀ s ∈ samples file.length, ∃ data, hashInput file = some data ∧
    readAt data s.place s.size = readAt file s.offset s.size
  apart : (samples file.length).Pairwise fun s t =>
    s.place + s.size ≤ t.place ∨ t.place + t.size ≤ s.place
  told : ∀ other : List UInt8, other.length = file.length →
    (∃ s ∈ samples file.length, readAt file s.offset s.size ≠ readAt other s.offset s.size) →
    hashInput file ≠ hashInput other

/-! ## The buffer of a large file -/

theorem minDataSize_eq : minDataSize = 131072 * (39 + 1) := rfl

theorem length_readAt {file : List UInt8} {offset n : Nat} (h : offset + n ≤ file.length) :
    (readAt file offset n).length = n := by
  rw [readAt, List.length_take, List.length_drop]
  omega

theorem length_newData (filesize : Nat) : (newData filesize).length = minDataSize + 8 := by
  have hroom : minDataSize + (toLE 8 filesize).length ≤
      (List.replicate (minDataSize + 8) (0 : UInt8)).length := by
    rw [length_toLE, List.length_replicate]
  rw [newData, length_writeAt hroom, List.length_replicate]

/-- A block of a large file ends inside it. -/
theorem sample_end_le {filesize i : Nat} (hlarge : minDataSize ≤ filesize) (hi : i < 40) :
    filesize / 40 * i + 131072 ≤ filesize := by
  have hblock : 131072 ≤ filesize / 40 := by
    rw [Nat.le_div_iff_mul_le (by decide)]
    exact hlarge
  calc filesize / 40 * i + 131072 ≤ filesize / 40 * i + filesize / 40 :=
        Nat.add_le_add_left hblock _
    _ = filesize / 40 * (i + 1) := (Nat.mul_succ _ _).symm
    _ ≤ filesize / 40 * 40 := Nat.mul_le_mul_left _ hi
    _ ≤ filesize := Nat.div_mul_le_self _ _

/-- **What is left in the buffer**: nothing of the head block. -/
theorem sampleData_eq {file : List UInt8} (hlarge : minDataSize ≤ file.length) :
    sampleData file = (newData file.length).take 131072 ++
      (List.range' 1 39).flatMap (fun i => readAt file (file.length / 40 * i) 131072) ++
      (newData file.length).drop minDataSize := by
  have hsize := minDataSize_eq
  have hnew := length_newData file.length
  have hhead : (readAt file 65536 65536).length = 65536 := length_readAt (by omega)
  have hdata : (writeAt (newData file.length) (4 * 65536) (readAt file 65536 65536)).length =
      minDataSize + 8 := by
    rw [length_writeAt (by omega), hnew]
  have hblocks : ∀ i, 1 ≤ i → i ≤ 39 →
      (readAt file (file.length / 40 * i) 131072).length = 131072 := fun i _ hi =>
    length_readAt (sample_end_le hlarge (by omega))
  have hplace : ∀ (i : Nat) (data : List UInt8), readSample file data (sample file.length i) =
      writeAt data (131072 * i) (readAt file (file.length / 40 * i) 131072) := by
    intro i data
    have hi : 4 * (131072 / 4 * i) = 131072 * i := by omega
    exact congrArg (writeAt data · (readAt file (file.length / 40 * i) 131072)) hi
  have hfirst : readSample file (newData file.length) headSample =
      writeAt (newData file.length) (4 * 65536) (readAt file 65536 65536) := rfl
  rw [sampleData, samples, List.foldl_cons, List.foldl_map, hfirst]
  simp only [hplace]
  rw [foldl_writeAt 39 _ hblocks (by omega),
    take_writeAt (by omega) (by omega), ← hsize, drop_writeAt (by omega) (by omega)]

/-- **Two large files of one size have one hash input exactly when blocks 1 to 39 agree.** -/
theorem hashInput_eq_iff {file other : List UInt8} (hlarge : minDataSize ≤ file.length)
    (hlen : other.length = file.length) : hashInput file = hashInput other ↔
      ∀ i, 1 ≤ i → i < 40 → readAt file (file.length / 40 * i) 131072 =
        readAt other (file.length / 40 * i) 131072 := by
  have hsize := minDataSize_eq
  have hinput : ∀ f : List UInt8, minDataSize ≤ f.length → hashInput f = some (sampleData f) := by
    intro f hf
    rw [hashInput, if_neg (by omega), if_neg (by omega)]
  have hblocks : ∀ i ∈ List.range' 1 39,
      (readAt file (file.length / 40 * i) 131072).length = 131072 ∧
        (readAt other (file.length / 40 * i) 131072).length = 131072 := by
    intro i hi
    rw [List.mem_range'_1] at hi
    have hend := sample_end_le hlarge hi.2
    exact ⟨length_readAt hend, length_readAt (by omega)⟩
  rw [hinput file hlarge, hinput other (by omega), Option.some_inj, sampleData_eq hlarge,
    sampleData_eq (by omega), hlen, List.append_left_inj, List.append_right_inj,
    flatMap_inj hblocks]
  simp only [List.mem_range'_1, and_imp, Nat.reduceAdd]

/-- **A byte of the head block is not hashed.** -/
theorem hashInput_writeAt_head {file : List UInt8} (hlarge : minDataSize ≤ file.length)
    (b : UInt8) : hashInput file = hashInput (writeAt file 65536 [b]) := by
  have hsize := minDataSize_eq
  rw [hashInput_eq_iff hlarge (length_writeAt (by rw [List.length_singleton]; omega))]
  intro i h1 hi
  have hblock : 131072 ≤ file.length / 40 := by
    rw [Nat.le_div_iff_mul_le (by decide)]
    exact hlarge
  have hbehind : file.length / 40 ≤ file.length / 40 * i := Nat.le_mul_of_pos_right _ h1
  rw [readAt, readAt, drop_writeAt (by rw [List.length_singleton]; omega) (by omega)]

theorem readAt_writeAt_head_ne {file : List UInt8} (hlarge : minDataSize ≤ file.length)
    {b : UInt8} (hb : file[65536]? ≠ some b) :
    readAt file 65536 65536 ≠ readAt (writeAt file 65536 [b]) 65536 65536 := by
  have hsize := minDataSize_eq
  intro h
  have hfirst : ∀ f : List UInt8, (readAt f 65536 65536)[0]? = f[65536]? := by
    intro f
    rw [readAt, List.getElem?_take_of_lt (by decide), List.getElem?_drop]
  have hwritten : (writeAt file 65536 [b])[65536]? = some b := by
    have hfront : (file.take 65536).length = 65536 := by
      rw [List.length_take]
      omega
    rw [writeAt, List.append_assoc, List.getElem?_append_right (by omega), hfront, Nat.sub_self]
    rfl
  exact hb ((hfirst file).symm.trans ((congrArg (·[0]?) h).trans ((hfirst _).trans hwritten)))

theorem not_covers {file : List UInt8} (hlarge : minDataSize ≤ file.length) : ¬Covers file := by
  intro hcovers
  have hsize := minDataSize_eq
  obtain ⟨c, hc⟩ : ∃ c, file[65536]? = some c := ⟨_, List.getElem?_eq_getElem (by omega)⟩
  have hother : file[65536]? ≠ some (c + 1) := by
    rw [hc]
    intro h
    have hval : c.toNat = (c.toNat + 1) % 256 := by
      simpa using congrArg UInt8.toNat (Option.some.inj h)
    have hbyte := c.toNat_lt
    omega
  exact hcovers.told (writeAt file 65536 [c + 1])
    (length_writeAt (by rw [List.length_singleton]; omega))
    ⟨headSample, List.mem_cons_self .., readAt_writeAt_head_ne hlarge hother⟩
    (hashInput_writeAt_head hlarge (c + 1))

/-- **The checksum covers the samples of no large file**, and what tells two of one size apart
is a byte of the blocks 1 to 39. -/
theorem covers_never {file : List UInt8} (hlarge : minDataSize ≤ file.length) :
    ¬Covers file ∧ ∀ other : List UInt8, other.length = file.length →
      (hashInput file = hashInput other ↔
        ∀ i, 1 ≤ i → i < 40 → readAt file (file.length / 40 * i) 131072 =
          readAt other (file.length / 40 * i) 131072) :=
  ⟨not_covers hlarge, fun _ hlen => hashInput_eq_iff hlarge hlen⟩

def zeros : List UInt8 := List.replicate minDataSize 0

theorem covers_never_zeros : minDataSize ≤ zeros.length ∧ ¬Covers zeros :=
  ⟨List.length_replicate.ge, (covers_never List.length_replicate.ge).1⟩

/-- Two files of 5242880 bytes that differ at byte 65536 and have one hash input. -/
theorem head_byte_not_hashed : hashInput zeros = hashInput (writeAt zeros 65536 [1]) ∧
    readAt zeros 65536 65536 ≠ readAt (writeAt zeros 65536 [1]) 65536 65536 := by
  have hlarge : minDataSize ≤ zeros.length := List.length_replicate.ge
  refine ⟨hashInput_writeAt_head hlarge 1, readAt_writeAt_head_ne hlarge ?_⟩
  rw [zeros, List.getElem?_replicate, if_pos (by decide)]
  decide

end DWindow.Checksum
