import DWindow.Cache.Feed
import DWindow.Cache.Get
import DWindow.Lib.Runs
import DWindow.Lib.Slice

/-!
# Content integrity of the cache

The cache is meant to hold the remote file: the byte at offset `k` of a
fragment's file is the remote byte at `m_start + k`.  `feed` breaks this when a
block begins inside the first fragment it meets and reaches past its end.  The
trimmed piece is then stored from the front of the block, because `remaining2`
does not shift the pointer (`remaining2_of_meets`), and the remote bytes end up
shifted by the length of the overlap.  `feed_not_intact` is the smallest case.

`NoPrefixOverlap` is the condition that this does not happen and that the piece
is short enough for the `(int)` cast.  Under it `intact_feed` keeps the
invariant `Intact`, and `feed_run_intact` is the result for whole runs, together
with what it means for `get`.
-/

namespace DWindow.Cache

open CInt Runs Slice

/-- Every cached byte is the remote byte of its position. -/
def ContentIntact (remote : Int → UInt8) (s : InetFile) : Prop :=
  ∀ f ∈ s.mFragments, ∀ k : Nat, (k : Int) < f.mPos - f.mStart →
    f.mFile.data[k]? = some (remote (f.mStart + k))

/-- One call of a worker: the block it read at `pos` is the remote file's. -/
def feedRemote (remote : Int → UInt8) (s : InetFile) (pos : Fragment) : InetFile :=
  (s.feed (slice remote pos.start pos.stop) pos).1

/-- A block that meets nothing, or begins before the first fragment it meets, or
lies inside it; what is stored of it is shorter than `2^31` bytes. -/
def NoPrefixOverlap (s : InetFile) (pos : Fragment) : Prop :=
  match firstMet s.mFragments pos with
  | none => pos.stop - pos.start < 2 ^ 31
  | some f => (pos.start < f.mStart ∧ f.mStart - pos.start < 2 ^ 31) ∨
      (f.mStart ≤ pos.start ∧ pos.stop ≤ f.mPos)

instance (s : InetFile) (pos : Fragment) : Decidable (NoPrefixOverlap s pos) :=
  match h : firstMet s.mFragments pos with
  | none => decidable_of_iff (pos.stop - pos.start < 2 ^ 31) (by rw [NoPrefixOverlap, h])
  | some f => decidable_of_iff ((pos.start < f.mStart ∧ f.mStart - pos.start < 2 ^ 31) ∨
      (f.mStart ≤ pos.start ∧ pos.stop ≤ f.mPos)) (by rw [NoPrefixOverlap, h])

/-- A fragment whose file is the remote file's piece `m_start, …, m_pos - 1`,
with the file position at its end. -/
structure Filled (remote : Int → UInt8) (f : DiskFragment) : Prop where
  le : f.mStart ≤ f.mPos
  data_eq : f.mFile.data = slice remote f.mStart f.mPos
  pos_eq : f.mFile.pos = f.mFile.data.length

def Intact (remote : Int → UInt8) (s : InetFile) : Prop :=
  ∀ f ∈ s.mFragments, f.mStart < f.mPos ∧ Filled remote f

theorem intact_create (remote : Int → UInt8) (configfile : List UInt16) (time : Int) :
    Intact remote (InetFile.create configfile time) := by
  intro f hf
  exact absurd hf (List.not_mem_nil)

theorem Intact.nonEmpty {remote : Int → UInt8} {s : InetFile} (h : Intact remote s) :
    NonEmpty s.mFragments := fun f hf => (h f hf).1

theorem Intact.contentIntact {remote : Int → UInt8} {s : InetFile} (h : Intact remote s) :
    ContentIntact remote s := by
  intro f hf k hk
  rw [(h f hf).2.data_eq, getElem?_slice remote (by omega)]

/-! ## One call -/

theorem filled_ofFile_nil (remote : Int → UInt8) (a : Int) :
    Filled remote (DiskFragment.ofFile [] a) where
  le := by simp
  data_eq := by simp [slice_of_le]
  pos_eq := rfl

/-- Appending the remote bytes that follow keeps a fragment filled. -/
theorem Filled.put {remote : Int → UInt8} {f : DiskFragment} (hf : Filled remote f)
    {left : Fragment} {b : Int} (hpos : f.mPos = left.start) (hlt : left.start < left.stop)
    (hsize : left.stop - left.start < 2 ^ 31) (hb : left.stop ≤ b) :
    (f.put (slice remote left.start b) (toInt32 (left.stop - left.start))).mPos = left.stop ∧
      Filled remote (f.put (slice remote left.start b) (toInt32 (left.stop - left.start))) := by
  have hint : toInt32 (left.stop - left.start) = left.stop - left.start :=
    toInt32_of_lt (by omega) hsize
  have hpos' : (f.put (slice remote left.start b) (left.stop - left.start)).mPos = left.stop := by
    rw [DiskFragment.put_mPos]
    omega
  have hdw := toDWORD_of_lt (n := left.stop - left.start) (by omega) (by omega)
  have htake : (slice remote left.start b).take (toDWORD (left.stop - left.start)) =
      slice remote left.start left.stop := by
    rw [take_slice remote (by omega)]
    congr 1
    omega
  have hdata : (f.put (slice remote left.start b) (left.stop - left.start)).mFile.data =
      slice remote f.mStart left.stop := by
    rw [DiskFragment.put_mFile, ByteFile.write_data_of_end hf.pos_eq, htake, hf.data_eq, hpos]
    exact slice_append remote (hpos ▸ hf.le) hlt.le
  rw [hint]
  refine ⟨hpos', ?_, ?_, ?_⟩
  · rw [hpos']
    have := hf.le
    simp only [DiskFragment.put_mStart]
    omega
  · rw [hpos', hdata]
    rfl
  · rw [hdata, DiskFragment.put_mFile, htake, ByteFile.write_pos, hf.pos_eq, hf.data_eq,
      ← List.length_append, hpos, slice_append remote (hpos ▸ hf.le) hlt.le]

/-- Under the condition the piece starts where the block does. -/
theorem piece_of_noPrefixOverlap {s : InetFile} {pos : Fragment} (hok : NoPrefixOverlap s pos)
    (hlt : (piece s.mFragments pos).start < (piece s.mFragments pos).stop) :
    (piece s.mFragments pos).start = pos.start ∧ (piece s.mFragments pos).stop ≤ pos.stop ∧
      (piece s.mFragments pos).stop - (piece s.mFragments pos).start < 2 ^ 31 := by
  rw [NoPrefixOverlap] at hok
  rw [piece] at hlt ⊢
  cases hfirst : firstMet s.mFragments pos with
  | none =>
    rw [hfirst] at hok
    exact ⟨rfl, le_refl _, hok⟩
  | some f =>
    rw [hfirst] at hok hlt
    have hm : pos.Meets f.me := by simpa using List.find?_some hfirst
    rw [Fragment.meets_iff] at hm
    simp only [trimmed] at hok hlt hm ⊢
    rcases hok with ⟨h1, h2⟩ | ⟨h1, h2⟩
    · rw [if_pos h1]
      exact ⟨rfl, by simp only; omega, h2⟩
    · rw [if_neg (by omega)] at hlt
      simp only at hlt
      omega

theorem intact_feed {remote : Int → UInt8} {s : InetFile} {pos : Fragment}
    (hs : Intact remote s) (hp : pos.start < pos.stop) (hok : NoPrefixOverlap s pos) :
    Intact remote (feedRemote remote s pos) := by
  refine feed_forall hs.nonEmpty hp hs ?_
  intro hlt f hf hpos
  obtain ⟨h1, h2, h3⟩ := piece_of_noPrefixOverlap hok hlt
  have hfilled : Filled remote f := by
    rcases hf with hf | rfl
    · exact (hs f hf).2
    · exact filled_ofFile_nil remote _
  obtain ⟨hend, hput⟩ := hfilled.put hpos hlt h3 h2
  rw [← h1]
  refine ⟨?_, hput⟩
  rw [hend, DiskFragment.put_mStart]
  have := hfilled.le
  omega

/-! ## Runs -/

theorem intact_run {remote : Int → UInt8} {configfile : List UInt16} {time : Int}
    {blocks : List Fragment} (hwf : ∀ pos ∈ blocks, pos.start < pos.stop)
    (hok : Along (feedRemote remote) NoPrefixOverlap (InetFile.create configfile time) blocks) :
    Intact remote (run (feedRemote remote) (InetFile.create configfile time) blocks) :=
  along_run _ (fun _ _ hs h => intact_feed hs h.2 h.1) blocks _
    (intact_create remote configfile time) (along_and_forall blocks _ hok hwf)

/-! ## What `get` delivers -/

/-- Every byte in the buffer is the remote byte of its position. -/
def RemoteBytes (remote : Int → UInt8) (start : Int) (buf : Buffer) : Prop :=
  ∀ o b, buf o = some b → b = remote (start + o)

theorem remoteBytes_get {remote : Int → UInt8} {f : DiskFragment} {buf buf' : Buffer}
    {start : Int} {frag : Fragment} {left : List Fragment}
    (hf : ∀ k : Nat, (k : Int) < f.mPos - f.mStart →
      f.mFile.data[k]? = some (remote (f.mStart + k)))
    (hbuf : RemoteBytes remote start buf)
    (hget : f.get buf (frag.start - start) frag = some (left, buf')) :
    RemoteBytes remote start buf' := by
  obtain ⟨hm, -, hspec⟩ := DiskFragment.get_spec hget
  intro o b hb
  have ho := hspec (start + o)
  rw [show frag.start - start + (start + o - frag.start) = o by omega] at ho
  rw [hb] at ho
  split at ho
  · rename_i hk
    have hcross : (crossFragment frag f.me).stop ≤ f.mPos ∧
        f.mStart ≤ (crossFragment frag f.me).start := by
      rw [Fragment.meets_iff] at hm
      simp only [crossFragment] at hm ⊢
      omega
    have hdw : (toDWORD ((crossFragment frag f.me).stop - (crossFragment frag f.me).start) : Int) ≤
        (crossFragment frag f.me).stop - (crossFragment frag f.me).start := by
      rw [Fragment.Meets] at hm
      simp only [toDWORD]
      omega
    rw [DiskFragment.byteAt, hf _ (by omega)] at ho
    rw [Option.some.inj ho]
    congr 1
    omega
  · exact hbuf o b ho.symm

theorem remoteBytes_getLoop {remote : Int → UInt8} {pos : Fragment} : ∀ (rounds : List Round)
    (pending : List Fragment) (buf : Buffer) (cur : InetFile) {done : Bool} {buf' : Buffer}
    {last : InetFile}, (∀ r ∈ rounds, ContentIntact remote r.file) →
    RemoteBytes remote pos.start buf →
    InetFile.getLoop pos rounds pending buf cur = some (done, buf', last) →
    RemoteBytes remote pos.start buf' := by
  intro rounds
  induction rounds with
  | nil =>
    intro pending buf cur done buf' last _ hbuf h
    cases pending with
    | nil =>
      simp only [InetFile.getLoop, Option.some.injEq, Prod.mk.injEq] at h
      exact h.2.1 ▸ hbuf
    | cons frag rest => exact absurd h (by simp [InetFile.getLoop])
  | cons r rounds ih =>
    intro pending buf cur done buf' last hr hbuf h
    have hrest : ∀ r ∈ rounds, ContentIntact remote r.file :=
      fun q hq => hr q (List.mem_cons_of_mem _ hq)
    cases pending with
    | nil =>
      simp only [InetFile.getLoop, Option.some.injEq, Prod.mk.injEq] at h
      exact h.2.1 ▸ hbuf
    | cons frag rest =>
      rw [InetFile.getLoop] at h
      split at h
      · rename_i left buf'' hsome
        obtain ⟨f, hf, hget⟩ := List.exists_of_findSome?_eq_some hsome
        exact ih _ buf'' _ hrest
          (remoteBytes_get (hr r (List.mem_cons_self ..) f hf) hbuf hget) h
      · split at h
        · simp only [Option.some.injEq, Prod.mk.injEq] at h
          exact h.2.1 ▸ hbuf
        · exact ih _ buf _ hrest hbuf h

theorem remoteBytes_blank (remote : Int → UInt8) (start : Int) :
    RemoteBytes remote start Buffer.blank := by
  intro o b h
  exact absurd h (by simp [Buffer.blank])

/-- **`get` delivers remote bytes only**, when the fragments it finds in each
round are intact. -/
theorem remoteBytes_inetFile_get {remote : Int → UInt8} {s : InetFile} {rounds : List Round}
    {now : Int} {pos : Fragment} {res : InetFile.GetResult}
    (hr : ∀ r ∈ rounds, ContentIntact remote r.file)
    (h : s.get rounds now pos = some res) : RemoteBytes remote pos.start res.buf := by
  rw [InetFile.get] at h
  split at h
  · rw [← Option.some.inj h]
    exact remoteBytes_blank remote _
  · dsimp only at h
    split at h
    · rw [← Option.some.inj h]
      exact remoteBytes_blank remote _
    · rename_i hlt
      have hstart : (InetFile.clip s.mFilesize pos).start = pos.start := by
        simp only [InetFile.clip] at hlt ⊢
        omega
      split at h
      · exact absurd h (by simp)
      · rename_i buf last hloop
        rw [← Option.some.inj h, ← hstart]
        exact remoteBytes_getLoop rounds _ _ _ hr (remoteBytes_blank remote _) hloop
      · rename_i buf last hloop
        rw [← Option.some.inj h, ← hstart]
        exact remoteBytes_getLoop rounds _ _ _ hr (remoteBytes_blank remote _) hloop

/-! ## A run of `feed` -/

/-- **Without a prefix overlap the cache holds the remote file**, and a `get`
that finds states of the run in its rounds delivers remote bytes only. -/
theorem feed_run_intact (remote : Int → UInt8) (configfile : List UInt16) (time : Int)
    (blocks : List Fragment)
    (hwf : ∀ pos ∈ blocks, 0 ≤ pos.start ∧ pos.start < pos.stop ∧ pos.stop < 2 ^ 63)
    (hok : Along (feedRemote remote) NoPrefixOverlap (InetFile.create configfile time) blocks) :
    (∀ n, ContentIntact remote
      (run (feedRemote remote) (InetFile.create configfile time) (blocks.take n))) ∧
    ∀ (s : InetFile) (rounds : List Round) (now : Int) (pos : Fragment)
      (res : InetFile.GetResult),
      (∀ r ∈ rounds, ∃ n, r.file.mFragments =
        (run (feedRemote remote) (InetFile.create configfile time) (blocks.take n)).mFragments) →
      s.get rounds now pos = some res → RemoteBytes remote pos.start res.buf := by
  have hreach : ∀ n, ContentIntact remote
      (run (feedRemote remote) (InetFile.create configfile time) (blocks.take n)) := fun n =>
    (intact_run (fun pos h => (hwf pos (List.mem_of_mem_take h)).2.1)
      (along_take hok n)).contentIntact
  refine ⟨hreach, fun s rounds now pos res hr h => remoteBytes_inetFile_get (fun r hmem => ?_) h⟩
  obtain ⟨n, hn⟩ := hr r hmem
  intro f hf
  exact hreach n f (hn ▸ hf)

/-- The low byte of a position, as a remote file to test with. -/
def countingFile (k : Int) : UInt8 := UInt8.ofNat k.toNat

theorem feed_run_intact_three :
    ContentIntact countingFile (run (feedRemote countingFile) (InetFile.create [] 0)
      [⟨4, 8⟩, ⟨0, 6⟩, ⟨8, 9⟩]) := by
  have h := feed_run_intact countingFile [] 0 [⟨4, 8⟩, ⟨0, 6⟩, ⟨8, 9⟩] (by decide) (by
    refine ⟨?_, ?_, ?_, trivial⟩ <;> decide)
  exact h.1 3

/-- **A block that begins inside a cached range corrupts the cache.**  After
`[0, 2)` and `[1, 3)` the byte at position `2` is the remote byte at `1`. -/
theorem feed_not_intact :
    ¬ ∀ (remote : Int → UInt8) (configfile : List UInt16) (time : Int) (blocks : List Fragment),
      (∀ pos ∈ blocks, 0 ≤ pos.start ∧ pos.start < pos.stop ∧ pos.stop < 2 ^ 63) →
      ContentIntact remote
        (run (feedRemote remote) (InetFile.create configfile time) blocks) := by
  intro h
  have hc := h countingFile [] 0 [⟨0, 2⟩, ⟨1, 3⟩] (by decide)
  have hbyte := hc ((DiskFragment.ofFile [] 0).put [0, 1] 2 |>.put [1, 2] 1)
    (by decide) 2 (by decide)
  exact absurd hbyte (by decide)

end DWindow.Cache
