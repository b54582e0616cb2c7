import DWindow.Cache.InetFile

/-!
# What one `feed` does

`feed_cases` is the inversion of `feed` that every invariant of the cache goes
through: on a cache whose fragments are not empty, the call works with
`piece s pos`, the part of `pos` before the first fragment it meets, or behind
it when `pos` starts inside.  An empty piece changes nothing, otherwise either
the fragment that ends where the piece starts grows by it, or a new fragment is
opened for it.

`remaining2_of_meets` shows the pointer `feed` stores from: it is the caller's
pointer, whichever piece was kept.  The shift in `remaining2` is guarded by
`o[0].start > o[0].end`, which no piece satisfies.
-/

namespace DWindow.Cache

open CInt

/-- Every fragment holds at least one position. -/
def NonEmpty (fs : List DiskFragment) : Prop := ∀ f ∈ fs, f.mStart < f.mPos

/-- The first fragment, in list order, that meets `pos`. -/
def firstMet (fs : List DiskFragment) (pos : Fragment) : Option DiskFragment :=
  fs.find? (fun f => decide (pos.Meets f.me))

/-- What `f` leaves of a range it meets: the part before `f`, or the part behind
it when the range starts inside. -/
def trimmed (f : DiskFragment) (pos : Fragment) : Fragment :=
  if pos.start < f.mStart then ⟨pos.start, f.mStart⟩ else ⟨min f.mPos pos.stop, pos.stop⟩

/-- The part of `pos` that `feed` stores. -/
def piece (fs : List DiskFragment) (pos : Fragment) : Fragment :=
  match firstMet fs pos with
  | none => pos
  | some f => trimmed f pos

/-! ## The trimming loop -/

theorem remaining2_of_not_meets {f : DiskFragment} {pos : Fragment} (buf : List UInt8)
    (hf : f.mStart < f.mPos) (hp : pos.start < pos.stop) (hm : ¬ pos.Meets f.me) :
    f.remaining2 pos buf = (pos, buf) := by
  obtain ⟨h0, _⟩ := subtractFragment_of_not_meets hp hf hm
  simp only [DiskFragment.remaining2, h0]
  rw [if_neg (by omega)]

/-- **The pointer is never shifted**, not even when the front of `pos` is cut
away. -/
theorem remaining2_of_meets {f : DiskFragment} {pos : Fragment} (buf : List UInt8)
    (hm : pos.Meets f.me) : f.remaining2 pos buf = (trimmed f pos, buf) := by
  have hcut := subtractFragment_of_meets hm
  rw [Fragment.meets_iff] at hm
  dsimp only at hm hcut
  have ho0 : (subtractFragment pos f.me).o0 = trimmed f pos := by
    by_cases h1 : pos.start < f.mStart
    · rw [hcut, trimmed, if_pos (by omega), if_pos h1]
      simp only [show max pos.start f.mStart = f.mStart by omega]
      split <;> rfl
    · rw [hcut, trimmed, if_neg (by omega), if_neg h1, min_comm f.mPos pos.stop]
      split
      · rfl
      · simp only [show min pos.stop f.mPos = pos.stop by omega]
  have hle : (trimmed f pos).start ≤ (trimmed f pos).stop := by
    rw [trimmed]
    split <;> simp only <;> omega
  simp only [DiskFragment.remaining2, ho0]
  rw [if_neg (by omega)]

theorem trimmed_ne {f : DiskFragment} {pos : Fragment} (hm : pos.Meets f.me) :
    trimmed f pos ≠ pos := by
  obtain ⟨a, b⟩ := pos
  rw [Fragment.meets_iff] at hm
  dsimp only at hm
  rw [trimmed]
  split <;> simp only [ne_eq, Fragment.mk.injEq] <;> omega

theorem firstMet_cons_of_meets {f : DiskFragment} {pos : Fragment} (fs : List DiskFragment)
    (hm : pos.Meets f.me) : firstMet (f :: fs) pos = some f :=
  List.find?_cons_of_pos (decide_eq_true hm)

theorem firstMet_cons_of_not_meets {f : DiskFragment} {pos : Fragment} (fs : List DiskFragment)
    (hm : ¬ pos.Meets f.me) : firstMet (f :: fs) pos = firstMet fs pos :=
  List.find?_cons_of_neg (by simpa using hm)

theorem feedTrim_eq {pos : Fragment} (hp : pos.start < pos.stop) (buf : List UInt8) :
    ∀ fs : List DiskFragment, NonEmpty fs →
      InetFile.feedTrim pos fs buf = (piece fs pos, buf, (firstMet fs pos).isSome) := by
  intro fs
  induction fs with
  | nil => intro _; rfl
  | cons f fs ih =>
    intro hne
    have hf := hne f (List.mem_cons_self ..)
    by_cases hm : pos.Meets f.me
    · rw [InetFile.feedTrim, remaining2_of_meets buf hm, piece, firstMet_cons_of_meets fs hm]
      exact if_pos (trimmed_ne hm)
    · rw [InetFile.feedTrim, remaining2_of_not_meets buf hf hp hm, piece,
        firstMet_cons_of_not_meets fs hm]
      exact (if_neg (by simp)).trans (ih (fun g hg => hne g (List.mem_cons_of_mem _ hg)))

/-! ## The appending loop -/

theorem feedAppend_cases (left : Fragment) (buf : List UInt8) : ∀ fs : List DiskFragment,
    (InetFile.feedAppend left buf fs = none ∧ ∀ f ∈ fs, f.mPos ≠ left.start) ∨
      ∃ pre f post, fs = pre ++ f :: post ∧ f.mPos = left.start ∧
        InetFile.feedAppend left buf fs =
          some (pre ++ f.put buf (toInt32 (left.stop - left.start)) :: post) := by
  intro fs
  induction fs with
  | nil => exact Or.inl ⟨rfl, by simp⟩
  | cons f fs ih =>
    by_cases hf : f.mPos = left.start
    · exact Or.inr ⟨[], f, fs, rfl, hf, if_pos hf⟩
    · have hrec : InetFile.feedAppend left buf (f :: fs) =
          (InetFile.feedAppend left buf fs).map (f :: ·) := if_neg hf
      rcases ih with ⟨h1, h2⟩ | ⟨pre, g, post, rfl, hg, h⟩
      · refine Or.inl ⟨by rw [hrec, h1]; rfl, fun g hg => ?_⟩
        rcases List.mem_cons.mp hg with rfl | hg
        · exact hf
        · exact h2 g hg
      · exact Or.inr ⟨f :: pre, g, post, rfl, hg, by rw [hrec, h]; rfl⟩

/-! ## One call -/

/-- **The three things a `feed` can do.** -/
theorem feed_state_cases {s : InetFile} {pos : Fragment} (buf : List UInt8)
    (hne : NonEmpty s.mFragments) (hp : pos.start < pos.stop) :
    let left := piece s.mFragments pos
    let size := toInt32 (left.stop - left.start)
    (left.stop ≤ left.start ∧ (s.feed buf pos).1 = s) ∨
    (left.start < left.stop ∧ ∃ pre f post, s.mFragments = pre ++ f :: post ∧
      f.mPos = left.start ∧
      (s.feed buf pos).1 = { s with mFragments := pre ++ f.put buf size :: post }) ∨
    (left.start < left.stop ∧ (∀ f ∈ s.mFragments, f.mPos ≠ left.start) ∧
      (s.feed buf pos).1 = InetFile.fflush { s with
        mFragments := s.mFragments ++ [(DiskFragment.ofFile [] left.start).put buf size]
        mConfigFileFile := s.mConfigFileFile.seekEnd.write
          (ConfigfileEntry.toBytes ⟨left.start, s.newName⟩) }) := by
  intro left size
  by_cases hle : left.stop ≤ left.start
  · refine Or.inl ⟨hle, ?_⟩
    simp only [InetFile.feed, feedTrim_eq hp buf _ hne]
    rw [if_pos hle]
  · refine Or.inr ?_
    rcases feedAppend_cases left buf s.mFragments with ⟨h, hno⟩ | ⟨pre, f, post, hs, hf, h⟩
    · refine Or.inr ⟨by omega, hno, ?_⟩
      simp only [InetFile.feed, feedTrim_eq hp buf _ hne]
      rw [if_neg hle, h]
    · refine Or.inl ⟨by omega, pre, f, post, hs, hf, ?_⟩
      simp only [InetFile.feed, feedTrim_eq hp buf _ hne]
      rw [if_neg hle, h]

theorem feed_cases {s : InetFile} {pos : Fragment} (buf : List UInt8)
    (hne : NonEmpty s.mFragments) (hp : pos.start < pos.stop) :
    let left := piece s.mFragments pos
    let size := toInt32 (left.stop - left.start)
    (left.stop ≤ left.start ∧ (s.feed buf pos).1 = s) ∨
    (left.start < left.stop ∧ ∃ pre f post, s.mFragments = pre ++ f :: post ∧
      f.mPos = left.start ∧
      (s.feed buf pos).1.mFragments = pre ++ f.put buf size :: post) ∨
    (left.start < left.stop ∧ (∀ f ∈ s.mFragments, f.mPos ≠ left.start) ∧
      (s.feed buf pos).1.mFragments =
        s.mFragments ++ [(DiskFragment.ofFile [] left.start).put buf size]) := by
  intro left size
  rcases feed_state_cases buf hne hp with h | ⟨hlt, pre, f, post, hs, hf, h⟩ | ⟨hlt, hno, h⟩
  · exact Or.inl h
  · exact Or.inr (Or.inl ⟨hlt, pre, f, post, hs, hf, by rw [h]⟩)
  · exact Or.inr (Or.inr ⟨hlt, hno, by rw [h, InetFile.fflush_mFragments]⟩)

/-- A property of single fragments survives a `feed` if growing by the piece and
opening a fragment for it keep it. -/
theorem feed_forall {s : InetFile} {pos : Fragment} {buf : List UInt8} {P : DiskFragment → Prop}
    (hne : NonEmpty s.mFragments) (hp : pos.start < pos.stop) (hP : ∀ f ∈ s.mFragments, P f)
    (hput : (piece s.mFragments pos).start < (piece s.mFragments pos).stop → ∀ f,
      (f ∈ s.mFragments ∨ f = DiskFragment.ofFile [] (piece s.mFragments pos).start) →
      f.mPos = (piece s.mFragments pos).start →
      P (f.put buf (toInt32 ((piece s.mFragments pos).stop - (piece s.mFragments pos).start)))) :
    ∀ f ∈ (s.feed buf pos).1.mFragments, P f := by
  intro f hf
  rcases feed_cases buf hne hp with ⟨-, h⟩ | ⟨hlt, pre, g, post, hs, hg, h⟩ | ⟨hlt, -, h⟩
  · rw [h] at hf
    exact hP f hf
  · rw [h] at hf
    rw [hs] at hP
    rcases List.mem_append.mp hf with hf | hf
    · exact hP f (List.mem_append_left _ hf)
    · rcases List.mem_cons.mp hf with rfl | hf
      · exact hput hlt g (Or.inl (by rw [hs]; simp)) hg
      · exact hP f (List.mem_append_right _ (List.mem_cons_of_mem _ hf))
  · rw [h] at hf
    rcases List.mem_append.mp hf with hf | hf
    · exact hP f hf
    · rw [List.mem_singleton.mp hf]
      exact hput hlt _ (Or.inr rfl) (by simp)

end DWindow.Cache
