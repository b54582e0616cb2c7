import DWindow.Cache.Integrity
import DWindow.Cache.Assembly

/-!
# Hooked file handles

`MineReadFile`, `MineSetFilePointerEx` and `MineSetFilePointer` of `hookdshow.cpp`:
a handle on a remote file is a `dummy_handle`, a position over an `HTTPHook`,
which reads through `inet_file::get`.

`fetch` is `inet_file::get` on a file all of which it delivers, and `get_eq_fetch`
says that this is what the cache does when its fragments are intact and the caller
does not cancel.  The events of an `OVERLAPPED`, and the reading ahead that is
commented out, are left out.
-/

namespace DWindow.Hook

open Cache CInt

/-- `inet_file::get` on a file with these bytes: its result, the range it reports and
the buffer. -/
def fetch (content : List UInt8) (pos : Fragment) : Int × Fragment × Buffer :=
  if pos.start < 0 then (-1, pos, Buffer.blank)
  else
    let range := InetFile.clip content.length pos
    if range.stop ≤ range.start then (0, range, Buffer.blank)
    else
      (if pos.stop > content.length then 1 else 0, range,
        Buffer.blank.write 0
          ((content.drop range.start.toNat).take (range.stop - range.start).toNat))

/-- `HTTPHook::get`: what it returns, and the buffer. -/
def HTTPHook.get (content : List UInt8) (offset size : Int) : Int × Buffer :=
  let r := fetch content ⟨offset, toInt64 (offset + size)⟩
  (toInt64 (r.2.1.stop - r.2.1.start), r.2.2)

/-- `dummy_handle`, over the bytes of its file. -/
structure DummyHandle where
  pos : Int
  content : List UInt8
deriving DecidableEq, Repr

/-- `OVERLAPPED`, but its event. -/
structure Overlapped where
  offset : UInt32
  offsetHigh : UInt32
  internal : Nat
  internalHigh : Int
deriving DecidableEq, Repr

structure ReadResult where
  handle : DummyHandle
  buffer : Buffer
  numberOfBytesRead : Nat
  overlapped : Option Overlapped
  rtn : Bool

namespace DummyHandle

def size (p : DummyHandle) : Int := p.content.length

/-- The count that `MineReadFile` goes on with. -/
def clipped (p : DummyHandle) (n : UInt32) : Nat :=
  toDWORD (min (n.toNat : Int) (toInt64 (p.size - p.pos)))

def mineReadFile (p : DummyHandle) (n : UInt32) : Option Overlapped → ReadResult
  | some o =>
    -- the high half of the offset is commented out in the source
    let r := HTTPHook.get p.content o.offset.toNat (toInt32 (p.clipped n))
    let got := toInt32 r.1
    ⟨{ p with pos := toInt64 (p.pos + got) }, r.2, toDWORD got, some ⟨0, 0, 0, got⟩,
      toDWORD got == p.clipped n⟩
  | none =>
    let r := HTTPHook.get p.content p.pos (toInt32 (p.clipped n))
    ⟨{ p with pos := toInt64 (p.pos + toDWORD r.1) }, r.2, toDWORD r.1, none,
      toDWORD r.1 == p.clipped n⟩

inductive MoveMethod
  | SEEK_SET
  | SEEK_CUR
  | SEEK_END
deriving DecidableEq, Repr

/-- The `switch` of both seeks. -/
def seekTo (p : DummyHandle) (distance : Int) : MoveMethod → Int
  | .SEEK_SET => distance
  | .SEEK_CUR => toInt64 (p.pos + distance)
  | .SEEK_END => toInt64 (p.size + distance)

/-- `MineSetFilePointerEx`: the handle and the new position. -/
def mineSetFilePointerEx (p : DummyHandle) (distance : Int64) (method : MoveMethod) :
    DummyHandle × Int :=
  let pos := p.seekTo distance.toInt method
  ({ p with pos := pos }, pos)

/-- The `LARGE_INTEGER` with this low half, and the high half or its default. -/
def largeInteger (distance : Int32) : Option Int32 → Int
  | some h => h.toInt * 2 ^ 32 + toDWORD distance.toInt
  | none => (if distance.toInt ≥ 0 then 0 else -1) * 2 ^ 32 + toDWORD distance.toInt

/-- `LowPart` and `HighPart`. -/
def halves (q : Int) : Nat × Int := (toDWORD q, q / 2 ^ 32)

/-- `MineSetFilePointer`: the handle, the low half of the new position and, for a
caller that gave a high half, the high one. -/
def mineSetFilePointer (p : DummyHandle) (distance : Int32) (distanceHigh : Option Int32)
    (method : MoveMethod) : DummyHandle × Nat × Option Int :=
  let pos := p.seekTo (largeInteger distance distanceHigh) method
  ({ p with pos := pos }, (halves pos).1, distanceHigh.map fun _ => (halves pos).2)

end DummyHandle

/-! ## What the cache delivers -/

/-- The remote file with these bytes. -/
def remoteOf (content : List UInt8) (k : Int) : UInt8 := content.getD k.toNat 0

/-- A buffer with the file's bytes in `range`, and nothing else, is the one of `fetch`. -/
theorem buffer_eq_write {content : List UInt8} {range : Fragment} {buf : Buffer}
    (hstart : 0 ≤ range.start) (hstop : range.stop ≤ content.length)
    (hin : ∀ k ∈ range, buf (k - range.start) = some (remoteOf content k))
    (hout : ∀ o, ¬ (0 ≤ o ∧ o < range.stop - range.start) → buf o = none) :
    buf = Buffer.blank.write 0
      ((content.drop range.start.toNat).take (range.stop - range.start).toNat) := by
  have hlen : ((content.drop range.start.toNat).take (range.stop - range.start).toNat).length =
      (range.stop - range.start).toNat := by
    rw [List.length_take, List.length_drop]
    omega
  funext o
  by_cases ho : 0 ≤ o ∧ o < range.stop - range.start
  · rw [Buffer.write_of_mem ho.1 (by rw [hlen]; omega), List.getElem?_take_of_lt (by omega),
      List.getElem?_drop, List.getElem?_eq_getElem (by omega)]
    have hk := hin (range.start + o) (by rw [Fragment.mem_def]; omega)
    rw [show range.start + o - range.start = o by omega] at hk
    rw [hk, remoteOf, List.getD_eq_getElem?_getD, List.getElem?_eq_getElem (by omega),
      Option.getD_some]
    congr 2
    omega
  · rw [hout o ho, Buffer.write_of_not_mem (by rw [hlen]; omega)]
    rfl

/-- **The cache delivers the file**: with intact fragments, a read of less than `2^32`
bytes that is not cancelled is `fetch`. -/
theorem get_eq_fetch {s : InetFile} {rounds : List Round} {now : Int} {pos : Fragment}
    {res : InetFile.GetResult} {content : List UInt8} (hsize : s.mFilesize = content.length)
    (henv : Environment s rounds)
    (hremote : ∀ r ∈ rounds, ContentIntact (remoteOf content) r.file)
    (hshort : (InetFile.clip s.mFilesize pos).stop - (InetFile.clip s.mFilesize pos).start < 2 ^ 32)
    (h : s.get rounds now pos = some res) (hrtn : 0 ≤ res.rtn) :
    (res.rtn, res.pos, res.buf) = fetch content pos := by
  obtain ⟨hin, hout⟩ := (get_loopInv henv (shortReads_of_lt hshort _) h hrtn).gapFree
  have hremote := remoteBytes_inetFile_get hremote h
  rw [hsize] at hin hout
  rw [InetFile.get, hsize] at h
  rw [fetch]
  split at h
  · rw [← Option.some.inj h] at hrtn
    exact absurd hrtn (by simp)
  · next hpos =>
    rw [if_neg hpos]
    dsimp only at h ⊢
    split at h
    · next hempty =>
      rw [if_pos hempty, ← Option.some.inj h]
    · next hne =>
      rw [if_neg hne]
      have hstart : (InetFile.clip content.length pos).start = pos.start := by
        simp only [InetFile.clip] at hne ⊢
        omega
      split at h
      · exact absurd h (by simp)
      · rw [← Option.some.inj h] at hrtn
        exact absurd hrtn (by simp)
      · next buf last _ =>
        rw [← Option.some.inj h] at hin hout hremote ⊢
        refine Prod.ext rfl (Prod.ext rfl ?_)
        refine buffer_eq_write (by omega) ?_ (fun k hk => ?_) hout
        · simp only [InetFile.clip]
          split <;> omega
        · obtain ⟨f, -, -, b, -, hb⟩ := hin k hk
          refine hb.trans ?_
          rw [hremote _ b hb, hstart, show pos.start + (k - pos.start) = k by omega]

end DWindow.Hook
