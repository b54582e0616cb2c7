import Mathlib.Data.List.Induction
import Mathlib.Data.List.Nodup
import DWindow.Mpo.Scan

/-!
# The pictures of an MPO file

What `parseFile` does behind the markers: it reads the index, allocates a buffer for every
picture that the index names, and reads the picture.  It clears the table of the call before
only behind `m_NumberOfImages = 0`, so it frees nothing, and it checks the number of pictures
against nothing.  `safe_iff` says for which sequences of calls the table is safe.

Allocations succeed.
-/

namespace DWindow.Mpo

open CInt Orbit

/-! ## The index -/

def MP_LITTLE_ENDIAN : Nat := 0x49492A00

/-- What the index tells, and the file at its entries. -/
structure Index where
  startOfOffset : Nat
  isLittleEndian : Bool
  numberOfImages : Int
  file : ByteFile

/-- The value of a tag.  Only the number of images is used later. -/
def readTag (isLittleEndian : Bool) (tag : Nat) (s : Int × ByteFile) : Int × ByteFile :=
  if tag = 0xB000 then (s.1, s.2.afterRead 4)
  else if tag = 0xB001 then
    (toInt32 (read4 s.2 isLittleEndian).1, (read4 s.2 isLittleEndian).2)
  else if tag = 0xB002 then (s.1, (read4 s.2 isLittleEndian).2)
  else if tag = 0xB003 then (s.1, (read4 s.2 isLittleEndian).2)
  else if tag = 0xB004 then (s.1, (read4 s.2 isLittleEndian).2)
  else s

/-- The loop over the tags: the number of images, and the file behind them. -/
def readTags (isLittleEndian : Bool) : Nat → Int × ByteFile → Int × ByteFile
  | 0, s => s
  | count + 1, s =>
    let tag := read2 s.2 isLittleEndian
    let type := read2 tag.2 isLittleEndian
    let count2 := read4 type.2 isLittleEndian
    readTags isLittleEndian count (readTag isLittleEndian tag.1 (s.1, count2.2))

def readIndex (f : ByteFile) : Index :=
  let startOfOffset := toDWORD (ftell f)
  let mpEndian := read4 f false
  let isLittleEndian := mpEndian.1 == MP_LITTLE_ENDIAN
  let offsetToFirstIFD := read4 mpEndian.2 isLittleEndian
  let ifd := fseekSet offsetToFirstIFD.2 (toInt32 (toDWORD (startOfOffset + offsetToFirstIFD.1)))
  let count := read2 ifd isLittleEndian
  let tags := readTags isLittleEndian count.1 (0, count.2)
  let offsetNext := read4 tags.2 isLittleEndian
  { startOfOffset := startOfOffset, isLittleEndian := isLittleEndian, numberOfImages := tags.1,
    file := offsetNext.2 }

/-- A picture: its size and place as the index has them, and the bytes that are read. -/
structure Picture where
  size : Nat
  offset : Nat
  bytes : List UInt8

/-- What is used of an entry, and the file behind it. -/
structure Entry where
  imageSize : Nat
  dataOffset : Nat
  file : ByteFile

def readEntry (isLittleEndian : Bool) (f : ByteFile) : Entry :=
  let iattr := read4 f isLittleEndian
  let imageSize := read4 iattr.2 isLittleEndian
  let dataOffset := read4 imageSize.2 isLittleEndian
  let d1EntryNo := read2 dataOffset.2 isLittleEndian
  let d2EntryNo := read2 d1EntryNo.2 isLittleEndian
  { imageSize := imageSize.1, dataOffset := dataOffset.1, file := d2EntryNo.2 }

/-- The place of the picture of entry `i`. -/
def Entry.offset (e : Entry) (startOfOffset i : Nat) : Nat :=
  if i = 0 then 0 else toDWORD (e.dataOffset + startOfOffset)

def Entry.seek (e : Entry) (startOfOffset i : Nat) : ByteFile :=
  fseekSet e.file (toInt32 (e.offset startOfOffset i))

/-- The picture of entry `i`, and the file at the next entry. -/
def readPicture (startOfOffset : Nat) (isLittleEndian : Bool) (i : Nat) (f : ByteFile) :
    Picture × ByteFile :=
  let e := readEntry isLittleEndian f
  let o := ftell e.file
  let g := e.seek startOfOffset i
  ({ size := e.imageSize, offset := e.offset startOfOffset i, bytes := g.readBytes e.imageSize },
    fseekSet (g.afterRead e.imageSize) o)

/-- The pictures of the entries from `i` on. -/
def readPictures (startOfOffset : Nat) (isLittleEndian : Bool) :
    Nat → Nat → ByteFile → List Picture
  | 0, _, _ => []
  | n + 1, i, f =>
    let p := readPicture startOfOffset isLittleEndian i f
    p.1 :: readPictures startOfOffset isLittleEndian n (i + 1) p.2

/-- All the bytes of a picture are there to be read. -/
def Picture.Filled (p : Picture) : Prop := p.bytes.length = p.size

/-- The bytes are those of the file at the place that the index names. -/
def Picture.Whole (p : Picture) (data : List UInt8) : Prop :=
  p.Filled ∧ p.bytes = (data.drop p.offset).take p.size

/-- The place that the index names lies inside the file. -/
def Picture.Inside (p : Picture) (data : List UInt8) : Prop :=
  p.size = 0 ∨ p.offset + p.size ≤ data.length

instance (p : Picture) : Decidable p.Filled := inferInstanceAs (Decidable (_ = _))

/-! ## The parser -/

/-- An `MpoParser`, and what it has done: the buffers in the order of their allocation, those
that are freed, and the entries that are written.  A pointer is the number of a buffer. -/
structure MpoParser where
  mDatas : Nat → Option Nat
  mSizes : Nat → Int
  mNumberOfImages : Int
  allocated : List (List UInt8)
  freed : List Nat
  written : List Nat

namespace MpoParser

def initial : MpoParser where
  mDatas := fun _ => none
  mSizes := fun _ => 0
  mNumberOfImages := 0
  allocated := []
  freed := []
  written := []

/-- `safe_delete(m_datas[i])`. -/
def safeDelete (s : MpoParser) (i : Nat) : MpoParser :=
  match s.mDatas i with
  | none => s
  | some h => { s with mDatas := Function.update s.mDatas i none, freed := s.freed ++ [h] }

def clear (s : MpoParser) : MpoParser :=
  (List.range s.mNumberOfImages.toNat).foldl safeDelete s

/-- A new buffer with a picture, in entry `i`. -/
def store (s : MpoParser) (i : Nat) (p : Picture) : MpoParser := { s with
  mDatas := Function.update s.mDatas i (some s.allocated.length)
  mSizes := Function.update s.mSizes i (toInt32 p.size)
  allocated := s.allocated ++ [p.bytes]
  written := s.written ++ [i] }

/-- The loop that reads the pictures, up to one that is not all there. -/
def load (startOfOffset : Nat) (isLittleEndian : Bool) :
    Nat → Nat → ByteFile → MpoParser → MpoParser
  | 0, _, _, s => s
  | n + 1, i, f, s =>
    let p := readPicture startOfOffset isLittleEndian i f
    if p.1.Filled then load startOfOffset isLittleEndian n (i + 1) p.2 (s.store i p.1)
    else { s.store i p.1 with mNumberOfImages := 0 }

end MpoParser

/-! ## Calls -/

/-- The place that the loop over the markers ends at, within some turns. -/
def scan : Nat → ByteFile → Option ByteFile
  | 0, _ => none
  | fuel + 1, f => (next f).elim (some f) (scan fuel)

/-- The place behind the identifier of the block that has been found. -/
def Turn.block : Turn → Option ByteFile
  | .found f => some f
  | .next _ => none
  | .over => none

/-- A call of `parseFile` that returns: the file, if it can be opened, and a number of turns that
is enough for it. -/
structure Call where
  file : Option (List UInt8)
  turns : Nat
  ends : ∀ data ∈ file, (read2 (opened data) false).1 = MARKER_SOI →
    (scan turns (read2 (opened data) false).2).isSome

/-- Every file on which `parseFile` returns is one of a call. -/
theorem exists_call {data : List UInt8} (h : ParseEnds data) : ∃ c : Call, c.file = some data := by
  have hscan : ∀ (turns : Nat) (f : ByteFile),
      iter next turns f = none → (scan turns f).isSome := by
    intro turns
    induction turns with
    | zero => intro f hf; cases hf
    | succ turns ih =>
      intro f hf
      rw [scan]
      rw [iter_succ] at hf
      cases hnext : next f with
      | none => rfl
      | some g =>
        rw [hnext] at hf
        exact ih g hf
  by_cases hsoi : (read2 (opened data) false).1 = MARKER_SOI
  · obtain ⟨turns, hturns⟩ := h hsoi
    refine ⟨⟨some data, turns, fun bytes hbytes _ => ?_⟩, rfl⟩
    obtain rfl := Option.mem_some_iff.mp hbytes
    exact hscan turns _ hturns
  · refine ⟨⟨some data, 0, fun bytes hbytes hmarker => ?_⟩, rfl⟩
    obtain rfl := Option.mem_some_iff.mp hbytes
    exact absurd hmarker hsoi

namespace Call

def index (c : Call) : Option Index :=
  c.file.bind fun data =>
    let soi := read2 (opened data) false
    if soi.1 = MARKER_SOI then (scan c.turns soi.2).bind fun f => (turn f).block.map readIndex
    else none

def pictures (c : Call) : List Picture :=
  match c.index with
  | none => []
  | some ix => readPictures ix.startOfOffset ix.isLittleEndian ix.numberOfImages.toNat 0 ix.file

end Call

namespace MpoParser

/-- `parseFile`: the result, and the parser afterwards. -/
def parseFile (c : Call) (s : MpoParser) : Int × MpoParser :=
  let s := clear { s with mNumberOfImages := 0 }
  match c.index with
  | none => (s.mNumberOfImages, s)
  | some ix =>
    let s := load ix.startOfOffset ix.isLittleEndian ix.numberOfImages.toNat 0 ix.file
      { s with mNumberOfImages := ix.numberOfImages }
    (s.mNumberOfImages, s)

def after (calls : List Call) : MpoParser :=
  calls.foldl (fun s c => (parseFile c s).2) initial

def destroyed (calls : List Call) : MpoParser := (after calls).clear

/-- Entry `i` holds the whole of picture `i` of a call's file. -/
def Holds (s : MpoParser) (c : Call) (i : Nat) : Prop :=
  ∃ h p data, c.file = some data ∧ c.pictures[i]? = some p ∧ p.Whole data ∧
    s.mDatas i = some h ∧ s.mSizes i = toInt32 p.size ∧ s.allocated[h]? = some p.bytes ∧
    h ∉ s.freed

end MpoParser

open MpoParser

/-- The table is safe in a sequence of calls and the destruction behind it. -/
structure Safe (calls : List Call) : Prop where
  inside : ∀ i ∈ (destroyed calls).written, i < 32
  freed : ∀ h < (destroyed calls).allocated.length, (destroyed calls).freed.count h = 1
  whole : ∀ before c, before ++ [c] <+: calls → ∀ i : Nat,
    (i : Int) < (parseFile c (after before)).1 → Holds (parseFile c (after before)).2 c i

/-- Every call but the last names no picture, and the last one names at most 32, all of them
inside the file. -/
def Fits (calls : List Call) : Prop :=
  (∀ c ∈ calls.dropLast, c.pictures = []) ∧
    ∀ c ∈ calls.getLast?, c.pictures.length ≤ 32 ∧
      ∀ p ∈ c.pictures, ∃ data, c.file = some data ∧ p.Inside data

/-! ## The pictures and the file -/

@[simp] theorem fseekSet_data (f : ByteFile) (offset : Int) :
    (fseekSet f offset).data = f.data := by
  rw [fseekSet]
  split <;> rfl

@[simp] theorem read2_data (f : ByteFile) (le : Bool) : (read2 f le).2.data = f.data := by
  rw [read2, readNumber, ByteFile.afterRead_data]

@[simp] theorem read4_data (f : ByteFile) (le : Bool) : (read4 f le).2.data = f.data := by
  rw [read4, readNumber, ByteFile.afterRead_data]

@[simp] theorem readTag_data (le : Bool) (tag : Nat) (s : Int × ByteFile) :
    (readTag le tag s).2.data = s.2.data := by
  unfold readTag
  split_ifs <;> rfl

theorem readTags_data (le : Bool) : ∀ (count : Nat) (s : Int × ByteFile),
    (readTags le count s).2.data = s.2.data := by
  intro count
  induction count with
  | zero => intro s; rfl
  | succ count ih => intro s; simp [readTags, ih]

theorem readIndex_data (f : ByteFile) : (readIndex f).file.data = f.data := by
  simp [readIndex, readTags_data]

theorem readEntry_data (le : Bool) (f : ByteFile) : (readEntry le f).file.data = f.data := by
  simp only [readEntry, read2_data, read4_data]

theorem Entry.seek_data (e : Entry) (start i : Nat) : (e.seek start i).data = e.file.data :=
  fseekSet_data _ _

theorem readPicture_data (start : Nat) (le : Bool) (i : Nat) (f : ByteFile) :
    (readPicture start le i f).2.data = f.data := by
  rw [readPicture]
  dsimp only
  rw [fseekSet_data, ByteFile.afterRead_data, Entry.seek_data, readEntry_data]

theorem mem_readPictures {start : Nat} {le : Bool} {p : Picture} : ∀ (n i : Nat) (f : ByteFile),
    p ∈ readPictures start le n i f →
      ∃ j g, p = (readPicture start le j g).1 ∧ g.data = f.data := by
  intro n
  induction n with
  | zero => intro i f hp; exact absurd hp List.not_mem_nil
  | succ n ih =>
    intro i f hp
    rw [readPictures, List.mem_cons] at hp
    obtain rfl | hp := hp
    · exact ⟨i, f, rfl, rfl⟩
    · obtain ⟨j, g, hg, hdata⟩ := ih _ _ hp
      exact ⟨j, g, hg, hdata.trans (readPicture_data ..)⟩

theorem Entry.offset_lt (e : Entry) (start i : Nat) : e.offset start i < 2 ^ 32 := by
  rw [Entry.offset]
  split
  · norm_num
  · rw [toDWORD]
    omega

theorem Entry.seek_pos {e : Entry} {start i : Nat} (h : e.offset start i < 2 ^ 31) :
    (e.seek start i).pos = e.offset start i := by
  rw [Entry.seek, toInt32_of_lt (by omega) (by omega), fseekSet, if_neg (by omega)]
  exact Int.toNat_natCast _

/-- **A picture is whole** exactly when its place is inside the file. -/
theorem whole_iff_inside {start : Nat} {le : Bool} {i : Nat} {f : ByteFile}
    (hsize : f.data.length < 2 ^ 31) :
    (readPicture start le i f).1.Whole f.data ↔ (readPicture start le i f).1.Inside f.data := by
  have hdata := readEntry_data le f
  rw [readPicture]
  generalize readEntry le f = e at hdata
  dsimp only
  have hoffset := e.offset_lt start i
  rw [Picture.Whole, Picture.Filled, Picture.Inside]
  dsimp only
  rw [ByteFile.readBytes, Entry.seek_data, hdata]
  by_cases hlt : e.offset start i < 2 ^ 31
  · rw [Entry.seek_pos hlt, and_iff_left rfl, List.length_take, List.length_drop]
    omega
  · rw [List.drop_of_length_le (i := e.offset start i) (by omega), List.take_nil]
    constructor
    · rintro ⟨hfilled, hnil⟩
      rw [hnil] at hfilled
      exact Or.inl hfilled.symm
    · rintro (hzero | hin)
      · rw [hzero, List.take_zero]
        exact ⟨rfl, rfl⟩
      · omega

theorem fsize_data (f : ByteFile) : (fsize f).2.data = f.data := by
  simp [fsize]

theorem turn_data {f g : ByteFile} (h : turn f = .next g ∨ turn f = .found g) :
    g.data = f.data := by
  have hbody : ∀ {f g : ByteFile}, body f = .next g ∨ body f = .found g → g.data = f.data := by
    intro f g h
    unfold body at h
    dsimp only at h
    split at h
    · split at h
      · obtain h | h := h
        · cases h
        · injection h with h
          rw [← h]
          rfl
      · obtain h | h := h
        · injection h with h
          rw [← h]
          rfl
        · cases h
    · obtain h | h := h
      · injection h with h
        rw [← h]
        rfl
      · cases h
  rw [turn] at h
  split at h
  · rw [hbody h, fsize_data]
  · obtain h | h := h <;> cases h

theorem Turn.block_eq_some {t : Turn} {f : ByteFile} (h : t.block = some f) : t = .found f := by
  rcases t with _ | g | g
  · cases h
  · rw [Option.some.inj h]
  · cases h

theorem Turn.goesOn_eq_some {t : Turn} {f : ByteFile} (h : t.goesOn = some f) : t = .next f := by
  rcases t with _ | g | g
  · cases h
  · cases h
  · rw [Option.some.inj h]

theorem next_data {f g : ByteFile} (h : next f = some g) : g.data = f.data :=
  turn_data (Or.inl (Turn.goesOn_eq_some h))

theorem scan_data : ∀ (turns : Nat) {f g : ByteFile}, scan turns f = some g →
    g.data = f.data := by
  intro turns
  induction turns with
  | zero => intro f g h; cases h
  | succ turns ih =>
    intro f g h
    rw [scan] at h
    cases hnext : next f with
    | none =>
      rw [hnext] at h
      rw [Option.some.inj h]
    | some k =>
      rw [hnext] at h
      rw [ih h, next_data hnext]

/-- A call that comes to an index has a file that an `int` can tell the size of, and its
pictures are read from that file. -/
theorem Call.mem_pictures {c : Call} {p : Picture} (hp : p ∈ c.pictures) :
    ∃ data start le i f, c.file = some data ∧ data.length < 2 ^ 31 ∧ f.data = data ∧
      p = (readPicture start le i f).1 := by
  unfold Call.pictures at hp
  cases hindex : c.index with
  | none =>
    rw [hindex] at hp
    exact absurd hp List.not_mem_nil
  | some ix =>
    rw [hindex] at hp
    obtain ⟨i, f, rfl, hf⟩ := mem_readPictures _ _ _ hp
    rw [Call.index] at hindex
    obtain ⟨data, hfile, hdata⟩ := Option.bind_eq_some_iff.mp hindex
    dsimp only at hdata
    split at hdata
    · obtain ⟨last, hscan, hblock⟩ := Option.bind_eq_some_iff.mp hdata
      obtain ⟨g, hg, rfl⟩ := Option.map_eq_some_iff.mp hblock
      have hturn := Turn.block_eq_some hg
      have hlastData : last.data = data := scan_data _ hscan
      refine ⟨data, _, _, i, f, hfile, ?_, ?_, rfl⟩
      · by_contra hlarge
        rw [Nat.not_lt] at hlarge
        rw [read2_eq] at hscan
        dsimp only [opened] at hscan
        have hpos : 0 + min 2 (data.length - 0) < 2 ^ 31 := by omega
        -- the loop is not entered
        cases hturns : c.turns with
        | zero =>
          rw [hturns] at hscan
          cases hscan
        | succ turns =>
          rw [hturns, scan, next_of_large hlarge hpos] at hscan
          obtain rfl := Option.some.inj hscan
          rw [turn_of_large hlarge hpos] at hturn
          cases hturn
      · rw [hf, readIndex_data, turn_data (Or.inr hturn), hlastData]
    · cases hdata

theorem Call.exists_whole_iff (c : Call) {p : Picture} (hp : p ∈ c.pictures) :
    (∃ data, c.file = some data ∧ p.Inside data) ↔
      ∃ data, c.file = some data ∧ p.Whole data := by
  obtain ⟨data, start, le, i, f, hfile, hsize, rfl, rfl⟩ := c.mem_pictures hp
  refine exists_congr fun bytes => and_congr_right fun hbytes => ?_
  obtain rfl : f.data = bytes := Option.some.inj (hfile.symm.trans hbytes)
  exact (whole_iff_inside hsize).symm

/-! ## What a call does to the table -/

namespace MpoParser

/-- Several pictures, from entry `i` on. -/
def storeAll (s : MpoParser) : Nat → List Picture → MpoParser
  | _, [] => s
  | i, p :: ps => (s.store i p).storeAll (i + 1) ps

theorem length_store (s : MpoParser) (i : Nat) (p : Picture) :
    (s.store i p).allocated.length = s.allocated.length + 1 := by
  simp [store]

@[simp] theorem storeAll_allocated : ∀ (ps : List Picture) (i : Nat) (s : MpoParser),
    (s.storeAll i ps).allocated = s.allocated ++ ps.map Picture.bytes := by
  intro ps
  induction ps with
  | nil => intro i s; simp [storeAll]
  | cons p ps ih => intro i s; simp [storeAll, ih, store]

@[simp] theorem storeAll_freed : ∀ (ps : List Picture) (i : Nat) (s : MpoParser),
    (s.storeAll i ps).freed = s.freed := by
  intro ps
  induction ps with
  | nil => intro i s; rfl
  | cons p ps ih => intro i s; simp [storeAll, ih, store]

@[simp] theorem storeAll_mNumberOfImages : ∀ (ps : List Picture) (i : Nat) (s : MpoParser),
    (s.storeAll i ps).mNumberOfImages = s.mNumberOfImages := by
  intro ps
  induction ps with
  | nil => intro i s; rfl
  | cons p ps ih => intro i s; simp [storeAll, ih, store]

@[simp] theorem storeAll_written : ∀ (ps : List Picture) (i : Nat) (s : MpoParser),
    (s.storeAll i ps).written = s.written ++ List.range' i ps.length := by
  intro ps
  induction ps with
  | nil => intro i s; simp [storeAll]
  | cons p ps ih => intro i s; simp [storeAll, ih, store, List.range'_succ]

theorem storeAll_before : ∀ (ps : List Picture) (i : Nat) (s : MpoParser) {j : Nat}, j < i →
    (s.storeAll i ps).mDatas j = s.mDatas j ∧ (s.storeAll i ps).mSizes j = s.mSizes j := by
  intro ps
  induction ps with
  | nil => intro i s j _; exact ⟨rfl, rfl⟩
  | cons p ps ih =>
    intro i s j hj
    obtain ⟨hdata, hsize⟩ := ih (i + 1) (s.store i p) (Nat.lt_succ_of_lt hj)
    rw [storeAll, hdata, hsize, store]
    exact ⟨Function.update_of_ne hj.ne _ _, Function.update_of_ne hj.ne _ _⟩

/-- Each picture has its own new buffer. -/
theorem storeAll_entry : ∀ (ps : List Picture) (i : Nat) (s : MpoParser) {j : Nat} {p : Picture},
    ps[j]? = some p → (s.storeAll i ps).mDatas (i + j) = some (s.allocated.length + j) ∧
      (s.storeAll i ps).mSizes (i + j) = toInt32 p.size := by
  intro ps
  induction ps with
  | nil => intro i s j p hp; simp at hp
  | cons q ps ih =>
    intro i s j p hp
    cases j with
    | zero =>
      obtain rfl : q = p := by simpa using hp
      obtain ⟨hdata, hsize⟩ := storeAll_before ps (i + 1) (s.store i q) (Nat.lt_succ_self i)
      change (storeAll _ (i + 1) ps).mDatas i = _ ∧ (storeAll _ (i + 1) ps).mSizes i = _
      rw [hdata, hsize, store]
      exact ⟨Function.update_self .., Function.update_self ..⟩
    | succ j =>
      obtain ⟨hdata, hsize⟩ := ih (i + 1) (s.store i q) (j := j) (by simpa using hp)
      rw [storeAll, show i + (j + 1) = i + 1 + j by omega, hdata, hsize, store,
        List.length_append, List.length_singleton]
      exact ⟨congrArg some (by omega), rfl⟩

/-- **Where all the pictures are there**, each gets its entry. -/
theorem load_of_filled {start : Nat} {le : Bool} : ∀ (n i : Nat) (f : ByteFile) (s : MpoParser),
    (∀ p ∈ readPictures start le n i f, p.Filled) →
      load start le n i f s = s.storeAll i (readPictures start le n i f) := by
  intro n
  induction n with
  | zero => intro i f s _; rfl
  | succ n ih =>
    intro i f s h
    rw [readPictures, List.forall_mem_cons] at h
    rw [load, if_pos h.1, ih _ _ _ h.2]
    rfl

/-- **Where one is not**, the number of pictures is 0 in spite of the buffers. -/
theorem load_of_not_filled {start : Nat} {le : Bool} : ∀ (n i : Nat) (f : ByteFile)
    (s : MpoParser), (¬ ∀ p ∈ readPictures start le n i f, p.Filled) →
      (load start le n i f s).mNumberOfImages = 0 ∧ (load start le n i f s).freed = s.freed ∧
        s.allocated.length < (load start le n i f s).allocated.length := by
  intro n
  induction n with
  | zero => intro i f s h; simp [readPictures] at h
  | succ n ih =>
    intro i f s h
    rw [readPictures, List.forall_mem_cons] at h
    rw [load]
    split
    · rename_i hfilled
      obtain ⟨hzero, hfreed, hless⟩ :=
        ih (i + 1) (readPicture start le i f).2 (s.store i (readPicture start le i f).1)
          fun hrest => h ⟨hfilled, hrest⟩
      have hstore := length_store s i (readPicture start le i f).1
      exact ⟨hzero, hfreed, by omega⟩
    · simp [store]

/-- **What the destructor frees**: the buffers of the first entries, in order. -/
theorem clear_freed {s : MpoParser} {b : Nat}
    (h : ∀ j < s.mNumberOfImages.toNat, s.mDatas j = some (b + j)) :
    s.clear.freed = s.freed ++ (List.range s.mNumberOfImages.toNat).map (b + ·) := by
  have hloop : ∀ n ≤ s.mNumberOfImages.toNat,
      ((List.range n).foldl safeDelete s).freed = s.freed ++ (List.range n).map (b + ·) ∧
        ∀ j, n ≤ j → ((List.range n).foldl safeDelete s).mDatas j = s.mDatas j := by
    intro n
    induction n with
    | zero => intro _; simp
    | succ n ih =>
      intro hn
      obtain ⟨hfreed, hkept⟩ := ih (Nat.le_of_succ_le hn)
      have hentry := (hkept n le_rfl).trans (h n hn)
      rw [List.range_succ, List.foldl_concat, safeDelete, hentry]
      refine ⟨by simp [hfreed], fun j hj => ?_⟩
      dsimp only
      rw [Function.update_of_ne (by omega), hkept j (by omega)]
  exact (hloop _ le_rfl).1

theorem clear_of_nonpos {s : MpoParser} (h : s.mNumberOfImages ≤ 0) : s.clear = s := by
  rw [clear, Int.toNat_of_nonpos h]
  rfl

@[simp] theorem safeDelete_allocated (s : MpoParser) (i : Nat) :
    (s.safeDelete i).allocated = s.allocated := by
  rw [safeDelete]
  split <;> rfl

@[simp] theorem safeDelete_written (s : MpoParser) (i : Nat) :
    (s.safeDelete i).written = s.written := by
  rw [safeDelete]
  split <;> rfl

theorem clear_kept (s : MpoParser) :
    s.clear.allocated = s.allocated ∧ s.clear.written = s.written := by
  rw [clear]
  induction List.range s.mNumberOfImages.toNat using List.reverseRecOn with
  | nil => exact ⟨rfl, rfl⟩
  | append_singleton l i ih =>
    rw [List.foldl_concat, safeDelete_allocated, safeDelete_written]
    exact ih

end MpoParser

/-! ## One call -/

def Call.number (c : Call) : Int :=
  match c.index with
  | none => 0
  | some ix => ix.numberOfImages

theorem length_readPictures {start : Nat} {le : Bool} : ∀ (n i : Nat) (f : ByteFile),
    (readPictures start le n i f).length = n := by
  intro n
  induction n with
  | zero => intro i f; rfl
  | succ n ih => intro i f; rw [readPictures, List.length_cons, ih]

theorem Call.length_pictures (c : Call) : c.pictures.length = c.number.toNat := by
  rw [Call.pictures, Call.number]
  cases c.index with
  | none => rfl
  | some ix => exact length_readPictures _ _ _

theorem Call.number_nonpos {c : Call} (h : c.pictures = []) : c.number ≤ 0 := by
  have hlength := c.length_pictures
  rw [h, List.length_nil] at hlength
  omega

namespace MpoParser

/-- **A call whose pictures are all there** puts them into the table. -/
theorem parseFile_of_filled {c : Call} (s : MpoParser) (h : ∀ p ∈ c.pictures, p.Filled) :
    parseFile c s =
      (c.number, { s with mNumberOfImages := c.number }.storeAll 0 c.pictures) := by
  rw [parseFile, clear_of_nonpos (s := { s with mNumberOfImages := 0 }) le_rfl]
  unfold Call.pictures at h ⊢
  unfold Call.number
  cases hindex : c.index with
  | none => rfl
  | some ix =>
    rw [hindex] at h
    dsimp only at h ⊢
    rw [load_of_filled _ _ _ _ h, storeAll_mNumberOfImages]

/-- **A call with one that is not** allocates and counts nothing. -/
theorem parseFile_of_not_filled {c : Call} (s : MpoParser) (h : ¬ ∀ p ∈ c.pictures, p.Filled) :
    (parseFile c s).2.mNumberOfImages = 0 ∧ (parseFile c s).1 = 0 ∧
      (parseFile c s).2.freed = s.freed ∧
      s.allocated.length < (parseFile c s).2.allocated.length := by
  rw [parseFile, clear_of_nonpos (s := { s with mNumberOfImages := 0 }) le_rfl]
  unfold Call.pictures at h
  cases hindex : c.index with
  | none =>
    rw [hindex] at h
    simp at h
  | some ix =>
    rw [hindex] at h
    dsimp only at h ⊢
    obtain ⟨hzero, hfreed, hless⟩ := load_of_not_filled _ _ _
      { s with mNumberOfImages := ix.numberOfImages } h
    exact ⟨hzero, hzero, hfreed, hless⟩

/-- **No call frees a buffer**, and one that names pictures allocates some. -/
theorem parseFile_freed (c : Call) (s : MpoParser) :
    (parseFile c s).2.freed = s.freed ∧
      s.allocated.length + min c.pictures.length 1 ≤ (parseFile c s).2.allocated.length := by
  by_cases h : ∀ p ∈ c.pictures, p.Filled
  · rw [parseFile_of_filled s h]
    refine ⟨storeAll_freed _ _ _, ?_⟩
    simp only [storeAll_allocated, List.length_append, List.length_map]
    omega
  · obtain ⟨-, -, hfreed, hless⟩ := parseFile_of_not_filled s h
    exact ⟨hfreed, by omega⟩

theorem after_concat (before : List Call) (c : Call) :
    after (before ++ [c]) = (parseFile c (after before)).2 := by
  rw [after, List.foldl_concat]
  rfl

theorem after_freed (calls : List Call) : (after calls).freed = [] := by
  induction calls using List.reverseRecOn with
  | nil => rfl
  | append_singleton before c ih => rw [after_concat, (parseFile_freed c _).1, ih]

theorem after_allocated {calls : List Call} {c : Call} (hc : c ∈ calls) (h : c.pictures ≠ []) :
    0 < (after calls).allocated.length := by
  induction calls using List.reverseRecOn with
  | nil => simp at hc
  | append_singleton before last ih =>
    obtain ⟨-, hless⟩ := parseFile_freed last (after before)
    rw [after_concat]
    rw [List.mem_append, List.mem_singleton] at hc
    obtain hc | rfl := hc
    · have := ih hc
      omega
    · have := List.length_pos_of_ne_nil h
      omega

/-- Calls that name no pictures leave the table as it was. -/
theorem after_of_quiet {calls : List Call} (h : ∀ c ∈ calls, c.pictures = []) :
    (after calls).allocated = [] ∧ (after calls).written = [] ∧
      (after calls).mNumberOfImages ≤ 0 := by
  induction calls using List.reverseRecOn with
  | nil => exact ⟨rfl, rfl, le_rfl⟩
  | append_singleton before c ih =>
    obtain ⟨hall, hwritten, -⟩ := ih fun d hd => h d (List.mem_append_left _ hd)
    have hc := h c (List.mem_append_right _ (List.mem_singleton_self c))
    rw [after_concat, parseFile_of_filled _ (by simp [hc]), hc]
    exact ⟨hall, hwritten, Call.number_nonpos hc⟩

/-- The destructor behind a last call whose pictures are all there. -/
theorem destroyed_of_filled (before : List Call) {last : Call}
    (h : ∀ p ∈ last.pictures, p.Filled) :
    (destroyed (before ++ [last])).freed =
        (List.range last.pictures.length).map ((after before).allocated.length + ·) ∧
      (destroyed (before ++ [last])).allocated =
        (after before).allocated ++ last.pictures.map Picture.bytes ∧
      (destroyed (before ++ [last])).written =
        (after before).written ++ List.range' 0 last.pictures.length := by
  obtain ⟨hallocated, hwritten⟩ := clear_kept (after (before ++ [last]))
  rw [destroyed, hallocated, hwritten]
  have hafter : after (before ++ [last]) =
      { after before with mNumberOfImages := last.number }.storeAll 0 last.pictures := by
    rw [after_concat, parseFile_of_filled _ h]
  refine ⟨?_, by rw [hafter, storeAll_allocated], by rw [hafter, storeAll_written]⟩
  rw [hafter, clear_freed (b := (after before).allocated.length), storeAll_freed,
    storeAll_mNumberOfImages, ← Call.length_pictures]
  · dsimp only
    rw [after_freed, List.nil_append]
  · intro j hj
    rw [storeAll_mNumberOfImages, ← Call.length_pictures] at hj
    have hentry := storeAll_entry last.pictures 0
      { after before with mNumberOfImages := last.number } (List.getElem?_eq_getElem hj)
    rw [Nat.zero_add] at hentry
    exact hentry.1

/-- The destructor behind a last call with a picture that is not there frees nothing. -/
theorem not_safe_of_not_filled {before : List Call} {last : Call}
    (h : ¬ ∀ p ∈ last.pictures, p.Filled) : ¬ Safe (before ++ [last]) := by
  intro hsafe
  obtain ⟨hzero, -, -, hless⟩ := parseFile_of_not_filled (after before) h
  have hdestroyed : destroyed (before ++ [last]) = (parseFile last (after before)).2 := by
    rw [destroyed, after_concat, clear_of_nonpos hzero.le]
  have hcount := hsafe.freed 0 (by rw [hdestroyed]; omega)
  rw [hdestroyed, (parseFile_freed last _).1, after_freed] at hcount
  exact absurd hcount (by decide)

/-- Behind a call whose pictures are all there, an entry holds its picture. -/
theorem holds_of_filled {c : Call} (s : MpoParser) (h : ∀ p ∈ c.pictures, p.Filled)
    (hfreed : s.freed = []) {i : Nat} {p : Picture} (hi : c.pictures[i]? = some p)
    {data : List UInt8} (hfile : c.file = some data) (hwhole : p.Whole data) :
    Holds (parseFile c s).2 c i := by
  obtain ⟨hdata, hsize⟩ :=
    storeAll_entry c.pictures 0 { s with mNumberOfImages := c.number } hi
  rw [Nat.zero_add] at hdata hsize
  rw [parseFile_of_filled s h]
  refine ⟨s.allocated.length + i, p, data, hfile, hi, hwhole, hdata, hsize, ?_, ?_⟩
  · rw [storeAll_allocated, List.getElem?_append_right (Nat.le_add_right _ _),
      Nat.add_sub_cancel_left, List.getElem?_map, hi]
    rfl
  · rw [storeAll_freed]
    dsimp only
    rw [hfreed]
    exact List.not_mem_nil

end MpoParser

/-! ## All the calls -/

/-- **The table is safe** exactly when no call but the last names pictures, and the last one
names at most 32, all there. -/
theorem safe_iff (calls : List Call) : Safe calls ↔ Fits calls := by
  cases calls using List.reverseRecOn with
  | nil =>
    refine iff_of_true ⟨fun i hi => ?_, fun h hh => ?_, fun before c hprefix => ?_⟩ ?_
    · exact absurd hi List.not_mem_nil
    · exact absurd hh (Nat.not_lt_zero h)
    · exact absurd (List.prefix_nil.mp hprefix) (by simp)
    · exact ⟨fun c hc => absurd hc List.not_mem_nil, fun c hc => absurd hc (by simp)⟩
  | append_singleton before last =>
    have hfits : Fits (before ++ [last]) ↔ (∀ c ∈ before, c.pictures = []) ∧
        last.pictures.length ≤ 32 ∧
          ∀ p ∈ last.pictures, ∃ data, last.file = some data ∧ p.Whole data := by
      rw [Fits, List.dropLast_concat, List.getLast?_concat]
      refine and_congr Iff.rfl ?_
      simp only [Option.mem_some_iff, forall_eq']
      exact and_congr Iff.rfl (forall₂_congr fun p hp => last.exists_whole_iff hp)
    rw [hfits]
    by_cases hfilled : ∀ p ∈ last.pictures, p.Filled
    · obtain ⟨hfreed, hallocated, hwritten⟩ := destroyed_of_filled before hfilled
      constructor
      · intro hsafe
        refine ⟨fun c hc => ?_, ?_, fun p hp => ?_⟩
        · -- the first buffer would be one of an earlier call
          by_contra hne
          have hpos := after_allocated hc hne
          have hcount := hsafe.freed 0 (by rw [hallocated, List.length_append]; omega)
          rw [hfreed, List.count_eq_zero.mpr] at hcount
          · exact absurd hcount (by decide)
          · intro hmem
            obtain ⟨j, -, hj⟩ := List.mem_map.mp hmem
            omega
        · by_contra hmany
          refine absurd (hsafe.inside 32 ?_) (lt_irrefl 32)
          rw [hwritten, List.mem_append, List.mem_range'_1]
          exact Or.inr ⟨Nat.zero_le _, by omega⟩
        · obtain ⟨i, hi⟩ := List.mem_iff_getElem?.mp hp
          have hlt : i < last.pictures.length := (List.getElem?_eq_some_iff.mp hi).1
          have hnumber : (i : Int) < (parseFile last (after before)).1 := by
            rw [parseFile_of_filled _ hfilled]
            have := last.length_pictures
            dsimp only
            omega
          obtain ⟨_, q, data, hfile, hq, hwhole, -⟩ :=
            hsafe.whole before last (List.prefix_refl _) i hnumber
          rw [hi] at hq
          obtain rfl := Option.some.inj hq
          exact ⟨data, hfile, hwhole⟩
      · rintro ⟨hquiet, hfew, hwhole⟩
        obtain ⟨hnone, hunwritten, -⟩ := after_of_quiet hquiet
        refine ⟨fun i hi => ?_, fun h hh => ?_, fun pre c hprefix i hi => ?_⟩
        · rw [hwritten, hunwritten, List.nil_append, List.mem_range'_1] at hi
          omega
        · rw [hallocated, hnone, List.nil_append, List.length_map] at hh
          rw [hfreed, hnone]
          refine List.count_eq_one_of_mem ?_ ?_
          · simpa using List.nodup_range
          · simpa using hh
        · obtain heq | hlt := List.prefix_concat_iff.mp hprefix
          · obtain ⟨rfl, hlast⟩ := List.append_inj' heq rfl
            obtain rfl : c = last := by simpa using hlast
            rw [parseFile_of_filled _ hfilled] at hi
            have hlength := c.length_pictures
            have hbound : i < c.pictures.length := by
              dsimp only at hi
              omega
            obtain ⟨data, hfile, hp⟩ := hwhole _ (List.getElem_mem hbound)
            exact holds_of_filled _ hfilled (after_freed _) (List.getElem?_eq_getElem hbound)
              hfile hp
          · have hc := hquiet c (hlt.subset (List.mem_append_right _ (List.mem_singleton_self c)))
            rw [parseFile_of_filled _ (by simp [hc])] at hi
            have hneg := Call.number_nonpos hc
            dsimp only at hi
            omega
    · refine iff_of_false (not_safe_of_not_filled hfilled) ?_
      rintro ⟨-, -, hwhole⟩
      refine hfilled fun p hp => ?_
      obtain ⟨data, -, hp⟩ := hwhole p hp
      exact hp.1

/-- A file with an index that names one picture, the file itself. -/
def onePicture : List UInt8 :=
  [0xFF, 0xD8, 0xFF, 0xE2, 0, 50, 77, 80, 70, 0] ++ [0x49, 0x49, 0x2A, 0, 8, 0, 0, 0] ++
    [1, 0, 1, 0xB0, 4, 0, 1, 0, 0, 0, 1, 0, 0, 0, 0, 0, 0, 0] ++
    [0, 0, 0, 0, 52, 0, 0, 0, 0, 0, 0, 0, 0, 0, 0, 0]

def parseOne : Call where
  file := some onePicture
  turns := 1
  ends := by
    intro data hdata _
    obtain rfl := Option.mem_some_iff.mp hdata
    decide +kernel

/-- **The same file twice**: the buffer of the first call is never freed. -/
theorem first_buffer_leaks : ¬ Safe [parseOne, parseOne] := by
  intro h
  have hcount := h.freed 0 (by decide)
  exact absurd hcount (by decide)

end DWindow.Mpo
