import DWindow.Hook.Handle
import DWindow.Lib.Machine

/-!
# A hooked handle beside a plain file

A seek on a hooked handle does what it does on a plain file, and so does a read at
the handle's own position.  A read with an `OVERLAPPED` does not: it takes the low
half of the offset only, cuts the count off at the end of the file as seen from the
handle's position, and moves the handle by the count from where it was
(`overlapped_read_short`).  A count of `2^31` and more is negative as an `int`, and
reads nothing.

`InTune` is the condition that no read meets one of these, and `hooked_as_plain`
says that under it a run on the handle answers as the same run on a plain file.
-/

namespace DWindow.Hook

open Cache CInt Machine Runs DummyHandle

inductive FileOp
  | setFilePointerEx (distance : Int64) (method : MoveMethod)
  | setFilePointer (distance : Int32) (distanceHigh : Option Int32) (method : MoveMethod)
  | readFile (n : UInt32) (lpOverlapped : Option Overlapped)

/-- What one gets for it: the halves of a new position, or a count and the buffer. -/
inductive FileReply
  | moved (low : Nat) (high : Option Int)
  | read (count : Nat) (buf : Buffer)

def hookedStep (p : DummyHandle) : FileOp → DummyHandle × FileReply
  | .setFilePointerEx distance method =>
    let r := p.mineSetFilePointerEx distance method
    (r.1, .moved (halves r.2).1 (some (halves r.2).2))
  | .setFilePointer distance distanceHigh method =>
    let r := p.mineSetFilePointer distance distanceHigh method
    (r.1, .moved r.2.1 r.2.2)
  | .readFile n lpOverlapped =>
    let r := p.mineReadFile n lpOverlapped
    (r.handle, .read r.numberOfBytesRead r.buffer)

/-! ## A plain file -/

/-- Where a seek leads. -/
def target (f : ByteFile) (distance : Int) : MoveMethod → Int
  | .SEEK_SET => distance
  | .SEEK_CUR => f.pos + distance
  | .SEEK_END => f.data.length + distance

/-- The distance a caller of `SetFilePointer` gives. -/
def distanceOf (distance : Int32) : Option Int32 → Int
  | some h => h.toInt * 2 ^ 32 + toDWORD distance.toInt
  | none => distance.toInt

/-- The offset in an `OVERLAPPED`. -/
def Overlapped.position (o : Overlapped) : Nat := o.offsetHigh.toNat * 2 ^ 32 + o.offset.toNat

/-- The position a read is for: the one in the `OVERLAPPED`, or else the handle's. -/
def effective (f : ByteFile) : Option Overlapped → Nat
  | some o => o.position
  | none => f.pos

/-- The operation on a plain file. -/
def plainStep (f : ByteFile) : FileOp → ByteFile × FileReply
  | .setFilePointerEx distance method =>
    let q := target f distance.toInt method
    (f.seekSet q.toNat, .moved (halves q).1 (some (halves q).2))
  | .setFilePointer distance distanceHigh method =>
    let q := target f (distanceOf distance distanceHigh) method
    (f.seekSet q.toNat, .moved (halves q).1 (distanceHigh.map fun _ => (halves q).2))
  | .readFile n lpOverlapped =>
    let f := f.seekSet (effective f lpOverlapped)
    let bs := f.readBytes n.toNat
    (f.afterRead n.toNat, .read bs.length (Buffer.blank.write 0 bs))

def Position (q : Int) : Prop := 0 ≤ q ∧ q < 2 ^ 63

/-- A seek leads to a position; a read is for the position of the handle, which an
`OVERLAPPED` gives in its low half, and delivers less than `2^31` bytes. -/
def InTune (f : ByteFile) : FileOp → Prop
  | .setFilePointerEx distance method => Position (target f distance.toInt method)
  | .setFilePointer distance distanceHigh method =>
    Position (target f (distanceOf distance distanceHigh) method)
  | .readFile n lpOverlapped =>
    (∀ o ∈ lpOverlapped, o.offsetHigh = 0 ∧ o.offset.toNat = f.pos) ∧
      min n.toNat (f.data.length - f.pos) < 2 ^ 31

/-! ## One read -/

theorem write_nil (m : Buffer) (off : Int) : m.write off [] = m := by
  funext o
  exact Buffer.write_of_not_mem (by rw [List.length_nil]; omega)

/-- **Behind the end** there is nothing, whatever the count. -/
theorem get_behind {content : List UInt8} {q : Nat} (hq : content.length ≤ q) (size : Int) :
    HTTPHook.get content q size = (0, Buffer.blank) := by
  have hfetch : ∀ stop : Int, ∃ n, fetch content ⟨q, stop⟩ = (0, ⟨n, n⟩, Buffer.blank) := by
    intro stop
    have hstart : (InetFile.clip content.length ⟨q, stop⟩).start =
        (InetFile.clip content.length ⟨q, stop⟩).stop := by
      simp only [InetFile.clip]
      split <;> omega
    refine ⟨(InetFile.clip content.length ⟨q, stop⟩).stop, ?_⟩
    rw [fetch, if_neg (by dsimp only; omega), if_pos (le_of_eq hstart.symm)]
    generalize InetFile.clip content.length ⟨q, stop⟩ = range at hstart ⊢
    obtain ⟨start, stop⟩ := range
    rw [show start = stop from hstart]
  obtain ⟨n, hn⟩ := hfetch (toInt64 (q + size))
  rw [HTTPHook.get, hn]
  dsimp only
  rw [Int.sub_self]
  rfl

/-- **Inside the file** the bytes that are there are delivered. -/
theorem get_inside {content : List UInt8} {q m : Nat} (hlen : content.length < 2 ^ 63)
    (hm : q + m ≤ content.length) :
    HTTPHook.get content q m = ((m : Int), Buffer.blank.write 0 ((content.drop q).take m)) := by
  have hclip : InetFile.clip content.length ⟨q, (q + m : Int)⟩ = ⟨q, q + m⟩ := by
    simp only [InetFile.clip]
    rw [if_neg (by omega), min_eq_left (by omega)]
  have hstop : toInt64 ((q : Int) + m) = q + m := toInt64_of_lt (by omega) (by omega)
  have hcount : toInt64 ((q : Int) + m - q) = m := by
    rw [toInt64_of_lt (by omega) (by omega)]
    omega
  rw [HTTPHook.get, hstop, fetch, if_neg (by dsimp only; omega), hclip]
  dsimp only
  split
  · next h =>
    obtain rfl : m = 0 := by omega
    rw [hcount, List.take_zero, write_nil]
  · rw [hcount, show (q : Int) + m - q = m by omega, Int.toNat_natCast, Int.toNat_natCast]

/-- **A read at a position of the file** delivers what is there. -/
theorem get_clipped {p : DummyHandle} {q : Nat} (hpos : p.pos = q)
    (hlen : p.content.length < 2 ^ 63) (hq : q < 2 ^ 63) {n : UInt32}
    (hn : min n.toNat (p.content.length - q) < 2 ^ 31) :
    HTTPHook.get p.content q (toInt32 (p.clipped n)) =
      ((((p.content.drop q).take n.toNat).length : Int),
        Buffer.blank.write 0 ((p.content.drop q).take n.toNat)) := by
  by_cases hbehind : p.content.length ≤ q
  · rw [get_behind hbehind, List.drop_eq_nil_of_le hbehind, List.take_nil, write_nil]
    rfl
  · have hclipped : (p.clipped n : Int) = min n.toNat (p.content.length - q) := by
      rw [clipped, size, hpos, toInt64_of_lt (by omega) (by omega),
        toDWORD_of_lt (by omega) (by have := n.toNat_lt; omega)]
      omega
    have hsize : toInt32 (p.clipped n) = ((min n.toNat (p.content.length - q) : Nat) : Int) := by
      rw [hclipped, toInt32_of_lt (by omega) (by omega)]
    have htake : (p.content.drop q).take (min n.toNat (p.content.length - q)) =
        (p.content.drop q).take n.toNat := by
      rw [← List.length_drop, ← List.take_eq_take_min]
    rw [hsize, get_inside hlen (by omega), htake, List.length_take, List.length_drop]

/-! ## A run -/

/-- The handle stands where the plain file does. -/
structure Follows (p : DummyHandle) (f : ByteFile) : Prop where
  pos : p.pos = f.pos
  content : p.content = f.data
  short : f.data.length < 2 ^ 63
  inRange : f.pos < 2 ^ 63

theorem seekTo_eq_target {p : DummyHandle} {f : ByteFile} (h : Follows p f) {distance : Int}
    {method : MoveMethod} (hq : Position (target f distance method)) :
    p.seekTo distance method = target f distance method := by
  cases method with
  | SEEK_SET => rfl
  | SEEK_CUR =>
    rw [seekTo, h.pos]
    exact toInt64_of_lt (by have := hq.1; rw [target] at this; omega) hq.2
  | SEEK_END =>
    rw [seekTo, size, h.content]
    exact toInt64_of_lt (by have := hq.1; rw [target] at this; omega) hq.2

theorem largeInteger_eq_distanceOf (distance : Int32) (distanceHigh : Option Int32) :
    largeInteger distance distanceHigh = distanceOf distance distanceHigh := by
  have hlow := distance.le_toInt
  have hhigh := distance.toInt_lt
  cases distanceHigh with
  | some h => rfl
  | none =>
    rw [largeInteger, distanceOf, toDWORD]
    split <;> omega

theorem Follows.seek {p : DummyHandle} {f : ByteFile} (h : Follows p f) {distance : Int}
    {method : MoveMethod} (hq : Position (target f distance method)) :
    Follows { p with pos := p.seekTo distance method }
      (f.seekSet (target f distance method).toNat) where
  pos := by
    rw [seekTo_eq_target h hq, ByteFile.seekSet_pos]
    exact (Int.toNat_of_nonneg hq.1).symm
  content := h.content
  short := h.short
  inRange := by
    have := hq.2
    rw [ByteFile.seekSet_pos]
    omega

/-- **A read in tune** is followed. -/
theorem Follows.read {p : DummyHandle} {f : ByteFile} (h : Follows p f) {n : UInt32}
    {lpOverlapped : Option Overlapped} (hop : InTune f (.readFile n lpOverlapped)) :
    (hookedStep p (.readFile n lpOverlapped)).2 = (plainStep f (.readFile n lpOverlapped)).2 ∧
      Follows (hookedStep p (.readFile n lpOverlapped)).1
        (plainStep f (.readFile n lpOverlapped)).1 := by
  obtain ⟨hoverlapped, hshort⟩ := hop
  have heffective : effective f lpOverlapped = f.pos := by
    cases lpOverlapped with
    | none => rfl
    | some o =>
      obtain ⟨hhigh, hlow⟩ := hoverlapped o rfl
      rw [effective, Overlapped.position, hhigh, hlow, UInt32.toNat_zero, Nat.zero_mul,
        Nat.zero_add]
  have hget := get_clipped h.pos (by rw [h.content]; exact h.short) h.inRange (n := n)
    (by rw [h.content]; exact hshort)
  obtain ⟨bs, hbs⟩ : ∃ bs, bs = f.readBytes n.toNat := ⟨_, rfl⟩
  have hcount : bs.length = min n.toNat (f.data.length - f.pos) := by
    rw [hbs, ByteFile.readBytes, List.length_take, List.length_drop]
  have hsize := h.short
  have hpos := h.inRange
  rw [h.content, ← ByteFile.readBytes, ← hbs] at hget
  have hread : toDWORD (bs.length : Int) = bs.length := by
    have := toDWORD_of_lt (n := (bs.length : Int)) (by omega) (by omega)
    omega
  have hint : toInt32 (bs.length : Int) = bs.length := toInt32_of_lt (by omega) (by omega)
  have hmoved : toInt64 ((f.pos : Int) + bs.length) = f.pos + bs.length :=
    toInt64_of_lt (by omega) (by omega)
  have hplain : plainStep f (.readFile n lpOverlapped) =
      (⟨f.data, f.pos + bs.length⟩, .read bs.length (Buffer.blank.write 0 bs)) := by
    rw [plainStep, heffective, hbs]
    rfl
  have hhooked : hookedStep p (.readFile n lpOverlapped) =
      (⟨f.pos + bs.length, f.data⟩, .read bs.length (Buffer.blank.write 0 bs)) := by
    cases lpOverlapped with
    | none =>
      have hr : p.mineReadFile n none =
          ⟨⟨f.pos + bs.length, f.data⟩, Buffer.blank.write 0 bs, bs.length, none,
            bs.length == p.clipped n⟩ := by
        rw [mineReadFile, h.pos, h.content, hget]
        dsimp only
        rw [hread, hmoved]
      rw [hookedStep, hr]
    | some o =>
      have hr : p.mineReadFile n (some o) =
          ⟨⟨f.pos + bs.length, f.data⟩, Buffer.blank.write 0 bs, bs.length,
            some ⟨0, 0, 0, bs.length⟩, bs.length == p.clipped n⟩ := by
        rw [mineReadFile, (hoverlapped o rfl).2, h.content, hget]
        dsimp only
        rw [hint, hread, h.pos, hmoved]
      rw [hookedStep, hr]
  rw [hplain, hhooked]
  exact ⟨rfl, ⟨by push_cast; rfl, rfl, hsize, by dsimp only; omega⟩⟩

theorem hookedStep_follows (p : DummyHandle) (f : ByteFile) (op : FileOp) (h : Follows p f)
    (hop : InTune f op) : (hookedStep p op).2 = (plainStep f op).2 ∧
      Follows (hookedStep p op).1 (plainStep f op).1 := by
  cases op with
  | setFilePointerEx distance method =>
    refine ⟨?_, h.seek hop⟩
    rw [hookedStep, plainStep, mineSetFilePointerEx]
    dsimp only
    rw [seekTo_eq_target h hop]
  | setFilePointer distance distanceHigh method =>
    rw [hookedStep, plainStep, mineSetFilePointer]
    dsimp only
    rw [largeInteger_eq_distanceOf]
    refine ⟨?_, h.seek hop⟩
    rw [seekTo_eq_target h hop]
  | readFile n lpOverlapped => exact h.read hop

/-- **A hooked handle behaves as a plain file**, in every run whose operations are in
tune: all positions, counts and bytes are the same. -/
theorem hooked_as_plain (content : List UInt8) (hlen : content.length < 2 ^ 63)
    (ops : List FileOp)
    (hops : Along (fun f op => (plainStep f op).1) InTune ⟨content, 0⟩ ops) :
    replies hookedStep ⟨0, content⟩ ops = replies plainStep ⟨content, 0⟩ ops ∧
      (after hookedStep ⟨0, content⟩ ops).pos = (after plainStep ⟨content, 0⟩ ops).pos := by
  obtain ⟨hreplies, hend⟩ := simulates hookedStep_follows ops ⟨0, content⟩ ⟨content, 0⟩
    ⟨rfl, rfl, hlen, by dsimp only; omega⟩ hops
  exact ⟨hreplies, hend.pos⟩

def FileReply.count : FileReply → Nat
  | .moved low _ => low
  | .read count _ => count

/-- After eight of ten bytes an `OVERLAPPED` read of four at the front delivers two. -/
theorem overlapped_read_short :
    ¬ ∀ (content : List UInt8) (ops : List FileOp), content.length < 2 ^ 63 →
      replies hookedStep ⟨0, content⟩ ops = replies plainStep ⟨content, 0⟩ ops := by
  intro h
  have hcounts := congrArg (List.map FileReply.count)
    (h [0, 1, 2, 3, 4, 5, 6, 7, 8, 9] [.readFile 8 none, .readFile 4 (some ⟨0, 0, 0, 0⟩)]
      (by decide))
  exact absurd hcounts (by decide)

/-- Reads up to the end and past it, a seek back, and an `OVERLAPPED` read where the
handle stands. -/
theorem hooked_as_plain_five :
    let content : List UInt8 := [0, 1, 2, 3, 4, 5, 6, 7, 8, 9]
    let ops : List FileOp := [.readFile 8 none, .readFile 4 none, .readFile 4 none,
      .setFilePointer (-7) none .SEEK_END, .readFile 2 (some ⟨3, 0, 0, 0⟩)]
    replies hookedStep ⟨0, content⟩ ops = replies plainStep ⟨content, 0⟩ ops ∧
      (after hookedStep ⟨0, content⟩ ops).pos = (after plainStep ⟨content, 0⟩ ops).pos :=
  hooked_as_plain [0, 1, 2, 3, 4, 5, 6, 7, 8, 9] (by decide) _
    ⟨⟨by simp, by decide⟩, ⟨by simp, by decide⟩, ⟨by simp, by decide⟩, ⟨by decide, by decide⟩,
      ⟨by decide, by decide⟩, trivial⟩

end DWindow.Hook
