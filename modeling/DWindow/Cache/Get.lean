import DWindow.Cache.InetFile

/-!
# Reading through the cache

`inet_file::get` keeps a list of ranges it still has to fill.  Each round takes
the first of them, asks the disk fragments in turn, and puts back what the first
one that has something did not cover; when none has anything it waits a
millisecond and tries again, while the workers feed the cache.

What the workers do between two rounds is the argument `rounds`: the cache each
round finds, and whether the caller had cancelled by then.  `getLoop` is `none`
when the rounds end before the loop does.  `disk_fragment::get` moves its file
position and puts it back, so it leaves the fragment as it was.
-/

namespace DWindow.Cache

open CInt LittleEndian

/-- What a caller's buffer holds at each offset, `none` where nothing has been
written yet. -/
abbrev Buffer := Int → Option UInt8

def Buffer.blank : Buffer := fun _ => none

/-- Write `bs` at offset `off`. -/
def Buffer.write (m : Buffer) (off : Int) (bs : List UInt8) : Buffer :=
  fun o => if off ≤ o ∧ o < off + bs.length then bs[(o - off).toNat]? else m o

/-- `disk_fragment::get` into `buf + base`: the pieces left over, or `none` for
the code's `-1`. -/
def DiskFragment.get (f : DiskFragment) (buf : Buffer) (base : Int) (pos : Fragment) :
    Option (List Fragment × Buffer) :=
  let pieces := subtractFragment pos f.me
  let cross := crossFragment pos f.me
  let at_ := base + cross.start - pos.start
  if cross.stop > cross.start then
    let file := f.mFile.seekSet (cross.start - f.mStart).toNat
    some (pieces.left, buf.write at_ (file.readBytes (toDWORD (cross.stop - cross.start))))
  else none

structure Round where
  file : InetFile
  cancel : Bool

namespace InetFile

/-- The loop of `inet_file::get`: whether it filled everything or was cancelled,
the buffer, and the cache it last saw. -/
def getLoop (pos : Fragment) :
    List Round → List Fragment → Buffer → InetFile → Option (Bool × Buffer × InetFile)
  | _, [], buf, cur => some (true, buf, cur)
  | [], _ :: _, _, _ => none
  | r :: rounds, frag :: rest, buf, _ =>
    match r.file.mFragments.findSome? (·.get buf (frag.start - pos.start) frag) with
    -- the leftovers are pushed to the front one by one
    | some (left, buf') => getLoop pos rounds (left.reverse ++ rest) buf' r.file
    | none =>
      if r.cancel then some (false, buf, r.file)
      else getLoop pos rounds (frag :: rest) buf r.file

/-- The access time kept in the config file's header, which is flushed with it. -/
def touch (s : InetFile) (now : Int) : InetFile :=
  if now ≠ s.mTime then
    let t := s.mConfigFileFile.pos
    fflush { s with
      mTime := now
      mConfigFileFile :=
        ((s.mConfigFileFile.seekSet 8).write (toLE 8 (now % 2 ^ 64).toNat)).seekSet t }
  else s

def clip (filesize : Int) (pos : Fragment) : Fragment :=
  let stop := if pos.stop > filesize then filesize else pos.stop
  ⟨min pos.start stop, stop⟩

structure GetResult where
  rtn : Int
  pos : Fragment
  buf : Buffer
  file : InetFile

def get (s : InetFile) (rounds : List Round) (now : Int) (pos : Fragment) : Option GetResult :=
  if pos.start < 0 then some ⟨-1, pos, Buffer.blank, s⟩
  else
    let rtn := if pos.stop > s.mFilesize then 1 else 0
    let pos := clip s.mFilesize pos
    if pos.stop ≤ pos.start then some ⟨0, pos, Buffer.blank, s⟩
    else
      match getLoop pos rounds [pos] Buffer.blank s with
      | none => none
      | some (false, buf, last) => some ⟨-1, ⟨pos.start, pos.start⟩, buf, last⟩
      | some (true, buf, last) => some ⟨rtn, pos, buf, last.touch now⟩

@[simp] theorem touch_mFragments (s : InetFile) (now : Int) :
    (s.touch now).mFragments = s.mFragments := by
  rw [touch]
  split <;> rfl

end InetFile

/-! ## What a read out of a fragment writes -/

theorem Buffer.write_of_mem {m : Buffer} {off o : Int} {bs : List UInt8} (h1 : off ≤ o)
    (h2 : o < off + bs.length) : m.write off bs o = bs[(o - off).toNat]? := by
  rw [Buffer.write, if_pos ⟨h1, h2⟩]

theorem Buffer.write_of_not_mem {m : Buffer} {off o : Int} {bs : List UInt8}
    (h : ¬ (off ≤ o ∧ o < off + bs.length)) : m.write off bs o = m o := by
  rw [Buffer.write, if_neg h]

/-- The byte the fragment's file holds for position `k`. -/
def DiskFragment.byteAt (f : DiskFragment) (k : Int) : Option UInt8 :=
  f.mFile.data[(k - f.mStart).toNat]?

/-- **What a successful `disk_fragment::get` does**: it leaves the pieces of the
cut, and every byte it writes is the one its file holds for that position. -/
theorem DiskFragment.get_spec {f : DiskFragment} {buf buf' : Buffer} {base : Int}
    {pos : Fragment} {left : List Fragment} (h : f.get buf base pos = some (left, buf')) :
    pos.Meets f.me ∧ left = (subtractFragment pos f.me).left ∧
      ∀ k, buf' (base + (k - pos.start)) =
        if (crossFragment pos f.me).start ≤ k ∧
            k < (crossFragment pos f.me).start +
              min (toDWORD ((crossFragment pos f.me).stop - (crossFragment pos f.me).start))
                (f.mFile.data.length - ((crossFragment pos f.me).start - f.mStart).toNat)
        then f.byteAt k else buf (base + (k - pos.start)) := by
  simp only [DiskFragment.get, gt_iff_lt] at h
  split at h
  · rename_i hm
    simp only [Option.some.injEq, Prod.mk.injEq] at h
    obtain ⟨rfl, rfl⟩ := h
    refine ⟨hm, rfl, fun k => ?_⟩
    have hstart : f.mStart ≤ (crossFragment pos f.me).start := by
      simp only [crossFragment]
      omega
    have hlen : ((f.mFile.seekSet ((crossFragment pos f.me).start - f.mStart).toNat).readBytes
        (toDWORD ((crossFragment pos f.me).stop - (crossFragment pos f.me).start))).length =
        min (toDWORD ((crossFragment pos f.me).stop - (crossFragment pos f.me).start))
          (f.mFile.data.length - ((crossFragment pos f.me).start - f.mStart).toNat) := by
      rw [ByteFile.readBytes, List.length_take, List.length_drop]
      rfl
    split
    · rename_i hk
      rw [Buffer.write_of_mem (by omega) (by rw [hlen]; omega), ByteFile.readBytes,
        List.getElem?_take_of_lt (by omega), List.getElem?_drop]
      rw [ByteFile.seekSet_data, ByteFile.seekSet_pos, DiskFragment.byteAt]
      congr 1
      omega
    · rename_i hk
      rw [Buffer.write_of_not_mem (by rw [hlen]; omega)]
  · exact absurd h (by simp)

end DWindow.Cache
