import DWindow.Cache.Fragment
import DWindow.Lib.ByteFile
import DWindow.Lib.Decimal
import DWindow.Lib.ByteOrder
import DWindow.Lib.CInt

/-!
# The disk half of the HTTP cache

`disk_fragment` and the parts of `inet_file` that store downloaded ranges, from
`full_cache.cpp`.  A fragment caches the positions `m_start, …, m_pos - 1` in a
file of its own; `feed` is how a download worker hands a block over.  It trims
the block against the first fragment that conflicts with it, appends what is
left to a fragment that ends there, and otherwise opens a new fragment and
records it in the config file.

A buffer pointer is the list of bytes it points at, so that shifting it drops a
prefix.  The debug log `m_access_info`, the locks and the workers that `get`
hints are not here: a fragment list only changes through `feed`, one call at a
time, under `m_fragments_cs`.
-/

namespace DWindow.Cache

open CInt Decimal LittleEndian

structure DiskFragment where
  mStart : Int
  mPos : Int
  mFile : ByteFile
deriving DecidableEq, Repr

namespace DiskFragment

/-- The constructor, on the content the fragment's file already has. -/
def ofFile (content : List UInt8) (startpos : Int) : DiskFragment :=
  let file := (ByteFile.mk content 0).seekEnd
  { mStart := startpos, mPos := startpos + file.pos, mFile := file }

/-- `{m_start, m_pos}`. -/
abbrev me (f : DiskFragment) : Fragment := ⟨f.mStart, f.mPos⟩

abbrev tell (f : DiskFragment) : Int := f.mPos

def put (f : DiskFragment) (buf : List UInt8) (size : Int) : DiskFragment :=
  { f with
    mPos := f.mPos + size
    mFile := f.mFile.write (buf.take (toDWORD size)) }

def remaining (f : DiskFragment) (pos : Fragment) : Pieces := subtractFragment pos f.me

/-- `disk_fragment::remaining2`: the piece it returns and the shifted pointer. -/
def remaining2 (f : DiskFragment) (pos : Fragment) (pointer : List UInt8) :
    Fragment × List UInt8 :=
  let p := subtractFragment pos f.me
  (p.o0,
    if p.count > 0 ∧ p.o0.start > p.o0.stop then pointer.drop (p.o0.start - pos.start).toNat
    else pointer)

@[simp] theorem put_mStart (f : DiskFragment) (buf : List UInt8) (size : Int) :
    (f.put buf size).mStart = f.mStart := rfl
@[simp] theorem put_mPos (f : DiskFragment) (buf : List UInt8) (size : Int) :
    (f.put buf size).mPos = f.mPos + size := rfl
@[simp] theorem put_mFile (f : DiskFragment) (buf : List UInt8) (size : Int) :
    (f.put buf size).mFile = f.mFile.write (buf.take (toDWORD size)) := rfl
@[simp] theorem ofFile_mStart (content : List UInt8) (startpos : Int) :
    (ofFile content startpos).mStart = startpos := rfl
@[simp] theorem ofFile_mPos (content : List UInt8) (startpos : Int) :
    (ofFile content startpos).mPos = startpos + content.length := rfl
@[simp] theorem ofFile_mFile (content : List UInt8) (startpos : Int) :
    (ofFile content startpos).mFile = ⟨content, content.length⟩ := rfl

end DiskFragment

/-- `configfile_entry`: a fragment's first position and its file's name. -/
structure ConfigfileEntry where
  startpos : Int
  file : List UInt16
deriving DecidableEq, Repr

def MAX_PATH : Nat := 260

/-- The bytes of an entry: the position, then the name in `wchar_t[MAX_PATH]`. -/
def ConfigfileEntry.toBytes (e : ConfigfileEntry) : List UInt8 :=
  toLE 8 (e.startpos % 2 ^ 64).toNat ++
    ((e.file ++ List.replicate (MAX_PATH - e.file.length) 0).take MAX_PATH).flatMap
      (fun c : UInt16 => toLE 2 c.toNat)

/-- What `swprintf(new_name, MAX_PATH, L"%s.%03d", configfile, n)` leaves in `new_name`. -/
def fragmentName (configfile : List UInt16) (n : Nat) : List UInt16 :=
  (configfile ++ [46] ++ padded 3 n).take (MAX_PATH - 1)

/-- `inet_file`, as far as the disk goes.  `mConfigFileFile` is the config file as its
`FILE` shows it, and `mConfigDisk` what the last `fflush` has left on disk. -/
structure InetFile where
  mFragments : List DiskFragment
  mConfigFile : List UInt16
  mConfigFileFile : ByteFile
  mConfigDisk : List UInt8
  mFilesize : Int
  mTime : Int
deriving DecidableEq, Repr

namespace InetFile

/-- A new `inet_file` on a config file that does not exist yet. -/
def create (configfile : List UInt16) (time : Int) : InetFile where
  mFragments := []
  mConfigFile := configfile
  mConfigFileFile := ByteFile.empty
  mConfigDisk := []
  mFilesize := 0
  mTime := time

/-- `fflush(m_config_file_file)`. -/
def fflush (s : InetFile) : InetFile := { s with mConfigDisk := s.mConfigFileFile.data }

/-- Nothing of the config file is in the buffer of its `FILE` only. -/
def Flushed (s : InetFile) : Prop := s.mConfigDisk = s.mConfigFileFile.data

instance (s : InetFile) : Decidable s.Flushed := inferInstanceAs (Decidable (_ = _))

@[simp] theorem fflush_mFragments (s : InetFile) : s.fflush.mFragments = s.mFragments := rfl
@[simp] theorem fflush_mConfigFile (s : InetFile) : s.fflush.mConfigFile = s.mConfigFile := rfl
@[simp] theorem fflush_mConfigFileFile (s : InetFile) :
    s.fflush.mConfigFileFile = s.mConfigFileFile := rfl
@[simp] theorem fflush_mFilesize (s : InetFile) : s.fflush.mFilesize = s.mFilesize := rfl
theorem fflush_flushed (s : InetFile) : s.fflush.Flushed := rfl

theorem fflush_of_flushed {s : InetFile} (h : s.Flushed) : s.fflush = s := by
  rw [fflush, ← h]

/-- The first loop of `feed`: trim `pos` against the first fragment that leaves
something else of it.  Returns `left`, the pointer and `conflit`. -/
def feedTrim (pos : Fragment) : List DiskFragment → List UInt8 →
    Fragment × List UInt8 × Bool
  | [], buf => (pos, buf, false)
  | f :: fs, buf =>
    let (left, buf') := f.remaining2 pos buf
    if left ≠ pos then (left, buf', true) else feedTrim pos fs buf'

/-- The second loop of `feed`: append to the first fragment that ends where
`left` starts. -/
def feedAppend (left : Fragment) (buf : List UInt8) :
    List DiskFragment → Option (List DiskFragment)
  | [] => none
  | f :: fs =>
    if f.tell = left.start then some (f.put buf (toInt32 (left.stop - left.start)) :: fs)
    else (feedAppend left buf fs).map (f :: ·)

/-- The name `feed` gives to the file of a new fragment. -/
def newName (s : InetFile) : List UInt16 := fragmentName s.mConfigFile s.mFragments.length

/-- `inet_file::feed`: the cache after the call and the code it returns. -/
def feed (s : InetFile) (buf : List UInt8) (pos : Fragment) : InetFile × Int :=
  let (left, buf, conflit) := feedTrim pos s.mFragments buf
  if left.stop ≤ left.start then (s, if conflit then 1 else 0)
  else
    match feedAppend left buf s.mFragments with
    | some fs => ({ s with mFragments := fs }, if conflit then 1 else 0)
    | none =>
      -- no fragment ends here: open a new one and record it in the config file
      let p := (DiskFragment.ofFile [] left.start).put buf (toInt32 (left.stop - left.start))
      let entry : ConfigfileEntry := ⟨left.start, s.newName⟩
      (fflush { s with
          mFragments := s.mFragments ++ [p]
          mConfigFileFile := s.mConfigFileFile.seekEnd.write entry.toBytes }, 0)

def getdisksize (s : InetFile) : Int :=
  (s.mFragments.map (fun f => f.mPos - f.mStart)).sum

end InetFile

end DWindow.Cache
