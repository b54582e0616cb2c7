import DWindow.Cache.InetFile
import DWindow.Lib.Records
import DWindow.Lib.WString

/-!
# The config file

The header is the file size and the access time, eight bytes each.  The entries follow
it, one for each fragment: the fragment's first position and the name of its file.
`openFile` is the constructor of `inet_file`, which reads all of it, and `setURL` writes
the header of a new file.

The header that `setURL` writes stays in the buffer of the `FILE` until `feed` or `get`
calls `fflush`; the destructor does not close the file.

`readEntries_eq` is what the constructor finds in a file that begins with a header and
goes on in whole entries.
-/

namespace DWindow.Cache

open CInt Decimal LittleEndian Records WString

/-- The bytes of an `__int64`. -/
def int64Bytes (n : Int) : List UInt8 := toLE 8 (n % 2 ^ 64).toNat

/-- The `__int64` that eight bytes store. -/
def ofInt64Bytes (bs : List UInt8) : Int := toInt64 (ofLE bs)

/-- The `wchar_t`s that bytes store. -/
def units : List UInt8 → List UInt16
  | a :: b :: bs => UInt16.ofNat (ofLE [a, b]) :: units bs
  | _ => []

/-- `sizeof(configfile_entry)`. -/
def sizeofEntry : Nat := 8 + 2 * MAX_PATH

/-- The entry that `sizeofEntry` bytes store. -/
def ConfigfileEntry.ofBytes (bs : List UInt8) : ConfigfileEntry :=
  ⟨ofInt64Bytes (bs.take 8), cstr (units (bs.drop 8))⟩

/-- What the program keeps on disk: the config file and the fragments' files by name.
A file that does not exist is an empty one. -/
structure Disk where
  config : List UInt8
  files : List UInt16 → List UInt8

/-- The entries in a config file behind its header. -/
def readEntries (f : ByteFile) : List ConfigfileEntry :=
  (readRecords f sizeofEntry).1.map ConfigfileEntry.ofBytes

namespace InetFile

/-- The constructor of `inet_file`; `time` is what `m_time` holds before it is read. -/
def openFile (configfile : List UInt16) (disk : Disk) (time : Int) : InetFile :=
  let file : ByteFile := ⟨disk.config, 0⟩
  let file₁ := file.afterRead 8
  let file₂ := file₁.afterRead 8
  { mFragments :=
      (readEntries file₂).map fun entry =>
        DiskFragment.ofFile (disk.files entry.file) entry.startpos
    mConfigFile := cstr configfile
    mConfigFileFile := (readRecords file₂ sizeofEntry).2
    mConfigDisk := disk.config
    mFilesize := ((fread file 8).map ofInt64Bytes).getD 0
    mTime := ((fread file₁ 8).map ofInt64Bytes).getD time }

/-- `inet_file::setURL` on a file that has no worker yet: the response code and the
content length are what the server answers, if it is asked.  Nothing flushes the header
it writes. -/
def setURL (s : InetFile) (responsecode contentLength : Int) : InetFile × Int :=
  if s.mFilesize = 0 then
    if responsecode < 200 ∨ responsecode > 299 then (s, -2)
    else if toInt64 contentLength ≤ 0 then ({ s with mFilesize := toInt64 contentLength }, -3)
    else
      ({ s with
          mFilesize := toInt64 contentLength
          mConfigFileFile := ((s.mConfigFileFile.seekSet 0).write
            (int64Bytes (toInt64 contentLength))).write (int64Bytes s.mTime) }, 0)
  else (s, 0)

end InetFile

/-! ## Fields read back -/

@[simp] theorem length_int64Bytes (n : Int) : (int64Bytes n).length = 8 := length_toLE ..

theorem bmod_bmod_emod (n : Int) : (n % 2 ^ 64).bmod (2 ^ 64) = n.bmod (2 ^ 64) := by
  have h := Int.emod_bmod (x := n) (n := 2 ^ 64)
  exact_mod_cast h

theorem ofInt64Bytes_int64Bytes (n : Int) : ofInt64Bytes (int64Bytes n) = toInt64 n := by
  have hlt : (n % 2 ^ 64).toNat < 256 ^ 8 := by
    have := Int.emod_lt_of_pos n (show (0 : Int) < 2 ^ 64 by decide)
    omega
  rw [ofInt64Bytes, int64Bytes, ofLE_toLE_of_lt hlt,
    Int.toNat_of_nonneg (Int.emod_nonneg _ (by decide)),
    toInt64, toInt64, bmod_bmod_emod]

theorem toInt64_toInt64 (n : Int) : toInt64 (toInt64 n) = toInt64 n := Int.bmod_bmod

theorem units_flatMap (str : List UInt16) :
    units (str.flatMap fun c : UInt16 => toLE 2 c.toNat) = str := by
  induction str with
  | nil => rfl
  | cons c cs ih =>
    have hc : toLE 2 c.toNat = [UInt8.ofNat c.toNat, UInt8.ofNat (c.toNat / 256)] := rfl
    have hback := ofLE_toLE_of_lt (w := 2) (v := c.toNat) c.toNat_lt
    rw [hc] at hback
    rw [List.flatMap_cons, hc, List.cons_append, List.cons_append, List.nil_append, units, ih,
      hback,
      UInt16.ofNat_toNat]

theorem take_replicate_append {str : List UInt16} {n : Nat} (h : str.length < n) :
    (str ++ List.replicate (n - str.length) 0).take n =
      str ++ 0 :: List.replicate (n - str.length - 1) 0 := by
  obtain ⟨k, hk⟩ : ∃ k, n - str.length = k + 1 := ⟨n - str.length - 1, by omega⟩
  rw [List.take_of_length_le (by rw [List.length_append, List.length_replicate]; omega), hk,
    List.replicate_succ]
  rfl

/-- An entry that `feed` can write. -/
structure ConfigfileEntry.Stored (e : ConfigfileEntry) : Prop where
  start_eq : toInt64 e.startpos = e.startpos
  noZero : (0 : UInt16) ∉ e.file
  short : e.file.length < MAX_PATH

@[simp] theorem ConfigfileEntry.length_toBytes (e : ConfigfileEntry) :
    e.toBytes.length = sizeofEntry := by
  have hunits : ∀ str : List UInt16,
      (str.flatMap fun c : UInt16 => toLE 2 c.toNat).length = 2 * str.length := by
    intro str
    induction str with
    | nil => rfl
    | cons c cs ih =>
      rw [List.flatMap_cons, List.length_append, length_toLE, ih, List.length_cons]
      omega
  rw [toBytes, List.length_append, length_toLE, hunits, List.length_take, List.length_append,
    List.length_replicate, sizeofEntry]
  omega

/-- **An entry is read back as it was written.** -/
theorem ConfigfileEntry.ofBytes_toBytes {e : ConfigfileEntry} (h : e.Stored) :
    ofBytes e.toBytes = e := by
  have hlen : (toLE 8 (e.startpos % 2 ^ 64).toNat).length = 8 := length_toLE ..
  have hstart := ofInt64Bytes_int64Bytes e.startpos
  rw [h.start_eq, int64Bytes] at hstart
  rw [ofBytes, toBytes, List.take_left' hlen, List.drop_left' hlen, units_flatMap,
    take_replicate_append h.short, cstr_append h.noZero, hstart]

/-- **What is read behind the header**, where whole entries are. -/
theorem readEntries_eq {entries : List ConfigfileEntry} (hentries : ∀ e ∈ entries, e.Stored)
    {f : ByteFile} (h : f.data.drop f.pos = entries.flatMap ConfigfileEntry.toBytes) :
    readEntries f = entries := by
  have hall : ∀ r ∈ entries.map ConfigfileEntry.toBytes, r.length = sizeofEntry := by
    intro r hr
    obtain ⟨e, -, rfl⟩ := List.mem_map.mp hr
    exact e.length_toBytes
  rw [List.flatMap_def] at h
  rw [readEntries, (readRecords_flatten (by decide) _ f hall h).1, List.map_map]
  refine (List.map_congr_left fun e he => ?_).trans (List.map_id _)
  exact ConfigfileEntry.ofBytes_toBytes (hentries e he)

/-! ## Names -/

theorem length_fragmentName_lt (configfile : List UInt16) (n : Nat) :
    (fragmentName configfile n).length < MAX_PATH := by
  rw [fragmentName, List.length_take, MAX_PATH]
  omega

theorem not_mem_fragmentName {configfile : List UInt16} (h : (0 : UInt16) ∉ configfile) (n : Nat) :
    (0 : UInt16) ∉ fragmentName configfile n := by
  intro hmem
  rcases List.mem_append.mp (List.mem_of_mem_take hmem) with hmem | hmem
  · rcases List.mem_append.mp hmem with hmem | hmem
    · exact h hmem
    · exact absurd hmem (by decide)
  · exact absurd (isDigit_of_mem_padded hmem) (by decide)

/-- The whole name of fragment `n` has room in its buffer. -/
def NameFits (configfile : List UInt16) (n : Nat) : Prop :=
  (configfile ++ [46] ++ padded 3 n).length < MAX_PATH

instance (configfile : List UInt16) (n : Nat) : Decidable (NameFits configfile n) :=
  inferInstanceAs (Decidable (_ < _))

theorem fragmentName_of_fits {configfile : List UInt16} {n : Nat} (h : NameFits configfile n) :
    fragmentName configfile n = configfile ++ [46] ++ padded 3 n :=
  List.take_of_length_le (Nat.le_pred_of_lt h)

/-- **Names that fit are different.** -/
theorem fragmentName_injective {configfile : List UInt16} {m n : Nat} (hm : NameFits configfile m)
    (hn : NameFits configfile n) (h : fragmentName configfile m = fragmentName configfile n) :
    m = n := by
  rw [fragmentName_of_fits hm, fragmentName_of_fits hn] at h
  exact padded_injective 3 (List.append_cancel_left h)

end DWindow.Cache
