import DWindow.Cache.Feed

/-!
# What `feed` returns

The header promises 1 when some of the block is in a fragment already, and 0 otherwise; a
worker stops at a 1.  The last exit of `feed`, behind a new fragment, returns 0 all the same.
And a fragment without a position, which is what the constructor makes of a missing file, cuts
a block in two like any other.  `returns_iff` says when the code is right.
-/

namespace DWindow.Cache

/-- The first loop of `feed` keeps less than the whole of `pos` because of this fragment. -/
def DiskFragment.Cuts (f : DiskFragment) (pos : Fragment) : Prop :=
  pos.Meets f.me ∨ f.mStart = f.mPos ∧ pos.start < f.mStart ∧ f.mStart < pos.stop

instance decidableCuts (f : DiskFragment) (pos : Fragment) : Decidable (f.Cuts pos) :=
  inferInstanceAs (Decidable (_ ∨ _))

/-- What the first fragment that cuts `pos` leaves of it. -/
def leftOf (fs : List DiskFragment) (pos : Fragment) : Fragment :=
  match fs.find? fun f => decide (f.Cuts pos) with
  | none => pos
  | some f => trimmed f pos

def Stored (fs : List DiskFragment) (pos : Fragment) : Prop := ∃ f ∈ fs, ∃ k, k ∈ pos ∧ k ∈ f.me

/-- **The code tells whether some of the range was stored.** -/
structure Tells (s : InetFile) (buf : List UInt8) (pos : Fragment) : Prop where
  one : (s.feed buf pos).2 = 1 ↔ Stored s.mFragments pos
  zero : (s.feed buf pos).2 = 0 ↔ ¬Stored s.mFragments pos

/-- The two ways to a wrong code are closed: what is left of a range of which some is stored is
empty or begins where a fragment ends, and when nothing of it is stored but a fragment without a
position lies inside, no fragment ends at its start. -/
structure Joined (fs : List DiskFragment) (pos : Fragment) : Prop where
  stored : Stored fs pos →
    (leftOf fs pos).stop ≤ (leftOf fs pos).start ∨ ∃ f ∈ fs, f.mPos = (leftOf fs pos).start
  fresh : ¬Stored fs pos → (∃ f ∈ fs, f.Cuts pos) → ∀ f ∈ fs, f.mPos ≠ pos.start

section

variable {f : DiskFragment} {fs : List DiskFragment} {pos : Fragment}

theorem stored_iff : Stored fs pos ↔ ∃ f ∈ fs, pos.Meets f.me :=
  exists_congr fun _ => and_congr_right fun _ => Fragment.meets_iff_exists.symm

theorem subtractFragment_o0 (frag sub : Fragment) :
    (subtractFragment frag sub).o0 =
      let cross := crossFragment frag sub
      let stop := max frag.start (min cross.start frag.stop)
      if frag.start = stop then ⟨min (max cross.stop frag.start) frag.stop, frag.stop⟩
      else ⟨frag.start, stop⟩ := by
  simp only [subtractFragment, apply_ite Pieces.o0, ite_self]

/-- A range without a position cuts `pos` in two when it lies inside, and leaves it alone
otherwise. -/
theorem subtractFragment_empty (hp : pos.start < pos.stop) (c : Int) :
    (subtractFragment pos ⟨c, c⟩).o0 =
      if pos.start < c ∧ c < pos.stop then ⟨pos.start, c⟩ else pos := by
  obtain ⟨a, b⟩ := pos
  dsimp only at hp
  rw [subtractFragment_o0]
  dsimp only [crossFragment]
  split
  · split
    · rw [Fragment.mk.injEq]
      omega
    · rw [Fragment.mk.injEq]
      omega
  · split
    · rw [Fragment.mk.injEq]
      omega
    · rw [Fragment.mk.injEq]
      omega

theorem remaining2_fst (buf : List UInt8) (hf : f.mStart ≤ f.mPos) (hp : pos.start < pos.stop) :
    (f.remaining2 pos buf).1 = if f.Cuts pos then trimmed f pos else pos := by
  by_cases hm : pos.Meets f.me
  · rw [remaining2_of_meets buf hm, if_pos (.inl hm)]
  · rcases hf.lt_or_eq with hlt | hempty
    · have hcuts : ¬f.Cuts pos := fun h => h.elim hm fun h => hlt.ne h.1
      rw [remaining2_of_not_meets buf hlt hp hm, if_neg hcuts]
    · have hcuts : f.Cuts pos ↔ pos.start < f.mStart ∧ f.mStart < pos.stop :=
        ⟨fun h => h.elim (absurd · hm) And.right, fun h => .inr ⟨hempty, h⟩⟩
      have hme : f.me = ⟨f.mStart, f.mStart⟩ := by rw [DiskFragment.me, ← hempty]
      rw [DiskFragment.remaining2, hme]
      dsimp only
      rw [subtractFragment_empty hp]
      simp only [hcuts]
      split
      · next hinside => rw [trimmed, if_pos hinside.1]
      · rfl

theorem trimmed_ne_of_cuts (h : f.Cuts pos) : trimmed f pos ≠ pos := by
  rcases h with h | ⟨-, hlt, hlt'⟩
  · exact trimmed_ne h
  · obtain ⟨a, b⟩ := pos
    dsimp only at hlt hlt'
    rw [trimmed, if_pos hlt]
    simp only [ne_eq, Fragment.mk.injEq, true_and]
    exact hlt'.ne

/-- **The first loop** of `feed`. -/
theorem feedTrim_fst (hp : pos.start < pos.stop) : ∀ {fs : List DiskFragment} (buf : List UInt8),
    (∀ f ∈ fs, f.mStart ≤ f.mPos) → (InetFile.feedTrim pos fs buf).1 = leftOf fs pos ∧
      ((InetFile.feedTrim pos fs buf).2.2 = true ↔ ∃ f ∈ fs, f.Cuts pos) := by
  intro fs
  induction fs with
  | nil => exact fun buf _ => ⟨rfl, by simp [InetFile.feedTrim]⟩
  | cons f fs ih =>
    intro buf hfs
    rw [List.forall_mem_cons] at hfs
    have hleft := remaining2_fst buf hfs.1 hp
    by_cases hcuts : f.Cuts pos
    · rw [if_pos hcuts] at hleft
      have hne : (f.remaining2 pos buf).1 ≠ pos := by
        rw [hleft]
        exact trimmed_ne_of_cuts hcuts
      have htrim : InetFile.feedTrim pos (f :: fs) buf =
          ((f.remaining2 pos buf).1, (f.remaining2 pos buf).2, true) := if_pos hne
      have hleftOf : leftOf (f :: fs) pos = trimmed f pos := by
        rw [leftOf, List.find?_cons_of_pos (by simpa using hcuts)]
      rw [htrim, hleftOf]
      exact ⟨hleft, iff_of_true rfl ⟨f, List.mem_cons_self .., hcuts⟩⟩
    · rw [if_neg hcuts] at hleft
      obtain ⟨hfst, hsnd⟩ := ih (f.remaining2 pos buf).2 hfs.2
      have hleftOf : leftOf (f :: fs) pos = leftOf fs pos := by
        rw [leftOf, List.find?_cons_of_neg (by simpa using hcuts), leftOf]
      simp only [InetFile.feedTrim, hleft, ne_eq, not_true_eq_false, if_false]
      rw [hleftOf, List.exists_mem_cons_iff, or_iff_right hcuts]
      exact ⟨hfst, hsnd⟩

/-- A range of which nothing is stored is cut by a fragment without a position. -/
theorem leftOf_of_not_stored (hstored : ¬Stored fs pos) (hcut : ∃ f ∈ fs, f.Cuts pos) :
    (leftOf fs pos).start = pos.start ∧ (leftOf fs pos).start < (leftOf fs pos).stop := by
  obtain ⟨f, hf, hcuts⟩ := hcut
  cases hfind : fs.find? fun f => decide (f.Cuts pos) with
  | none => exact absurd (decide_eq_true hcuts) (List.find?_eq_none.mp hfind f hf)
  | some g =>
    have hg : g.Cuts pos := by simpa using List.find?_some hfind
    have hgmem := List.mem_of_find?_eq_some hfind
    obtain hmeets | ⟨-, hlt, -⟩ := hg
    · exact absurd (stored_iff.mpr ⟨g, hgmem, hmeets⟩) hstored
    · have hleft : leftOf fs pos = ⟨pos.start, g.mStart⟩ := by
        rw [leftOf, hfind]
        exact if_pos hlt
      rw [hleft]
      exact ⟨rfl, hlt⟩

/-- **The code**, on any cache: 1 when something is cut off and what is left is empty or goes to
a fragment that ends there. -/
theorem feed_code (s : InetFile) (buf : List UInt8) (hp : pos.start < pos.stop)
    (hfs : ∀ f ∈ s.mFragments, f.mStart ≤ f.mPos) :
    ((s.feed buf pos).2 = 1 ∨ (s.feed buf pos).2 = 0) ∧ ((s.feed buf pos).2 = 1 ↔
      (∃ f ∈ s.mFragments, f.Cuts pos) ∧
        ((leftOf s.mFragments pos).stop ≤ (leftOf s.mFragments pos).start ∨
          ∃ f ∈ s.mFragments, f.mPos = (leftOf s.mFragments pos).start)) := by
  obtain ⟨hleft, hcuts⟩ := feedTrim_fst hp buf hfs
  rw [InetFile.feed]
  generalize InetFile.feedTrim pos s.mFragments buf = trim at hleft hcuts
  obtain ⟨left, buf', conflit⟩ := trim
  dsimp only at hleft hcuts ⊢
  rw [← hleft, ← hcuts]
  have hcode : ((if conflit = true then 1 else 0 : Int) = 1 ∨
      (if conflit = true then 1 else 0 : Int) = 0) ∧
        ((if conflit = true then 1 else 0 : Int) = 1 ↔ conflit = true) := by
    cases conflit with
    | true => exact ⟨.inl rfl, iff_of_true rfl rfl⟩
    | false => exact ⟨.inr rfl, by decide⟩
  by_cases hempty : left.stop ≤ left.start
  · rw [if_pos hempty, and_iff_left (Or.inl hempty)]
    exact hcode
  · rw [if_neg hempty, or_iff_right hempty]
    rcases feedAppend_cases left buf' s.mFragments with ⟨hnone, hends⟩ |
      ⟨pre, f, post, hsplit, hend, hsome⟩
    · rw [hnone]
      refine ⟨Or.inr rfl, iff_of_false Int.zero_ne_one ?_⟩
      rintro ⟨-, f, hf, hend⟩
      exact hends f hf hend
    · have hf : f ∈ s.mFragments := by
        rw [hsplit]
        exact List.mem_append_right _ (List.mem_cons_self ..)
      have hjoins : ∃ f ∈ s.mFragments, f.mPos = left.start := ⟨f, hf, hend⟩
      rw [hsome, and_iff_left hjoins]
      exact hcode

end

/-- **`feed` returns what the header says** exactly when what is left of the block joins on. -/
theorem returns_iff (s : InetFile) (buf : List UInt8) (pos : Fragment)
    (hp : pos.start < pos.stop) (hfs : ∀ f ∈ s.mFragments, f.mStart ≤ f.mPos) :
    Tells s buf pos ↔ Joined s.mFragments pos := by
  obtain ⟨hbinary, hone⟩ := feed_code s buf hp hfs
  have hzero : (s.feed buf pos).2 = 0 ↔ ¬(s.feed buf pos).2 = 1 := by
    rcases hbinary with h | h
    · rw [h]
      decide
    · rw [h]
      decide
  have htells : Tells s buf pos ↔ ((s.feed buf pos).2 = 1 ↔ Stored s.mFragments pos) :=
    ⟨Tells.one, fun h => ⟨h, hzero.trans (not_congr h)⟩⟩
  rw [htells, hone]
  have hcuts : Stored s.mFragments pos → ∃ f ∈ s.mFragments, f.Cuts pos := by
    rw [stored_iff]
    rintro ⟨f, hf, hmeets⟩
    exact ⟨f, hf, .inl hmeets⟩
  by_cases hstored : Stored s.mFragments pos
  · rw [iff_true_right hstored, and_iff_right (hcuts hstored)]
    exact ⟨fun h => ⟨fun _ => h, absurd hstored⟩, fun h => h.stored hstored⟩
  · rw [iff_false_right hstored]
    constructor
    · intro h
      refine ⟨fun h' => absurd h' hstored, fun _ hcut f hf hend => h ⟨hcut, .inr ⟨f, hf, ?_⟩⟩⟩
      rw [hend, (leftOf_of_not_stored hstored hcut).1]
    · rintro h ⟨hcut, hjoins⟩
      obtain ⟨hstart, hlt⟩ := leftOf_of_not_stored hstored hcut
      obtain hempty | ⟨f, hf, hend⟩ := hjoins
      · omega
      · exact h.fresh hstored hcut f hf (hend.trans hstart)

/-- A cache with ten bytes from `start` on. -/
def tenBytes (start : Int) : InetFile :=
  { InetFile.create [] 0 with mFragments := [DiskFragment.ofFile (List.replicate 10 0) start] }

theorem stored_tenBytes : Stored (tenBytes 0).mFragments ⟨5, 20⟩ :=
  ⟨_, List.mem_singleton_self _, 5, by decide, by decide⟩

/-- A block that goes on where a fragment ends. -/
theorem returns_iff_overlap : Tells (tenBytes 0) [] ⟨5, 20⟩ :=
  (returns_iff (tenBytes 0) [] ⟨5, 20⟩ (by decide) (by decide)).mpr
    ⟨fun _ => .inr (by decide), fun h => absurd stored_tenBytes h⟩

/-- **A 0 for a block that is partly stored.**  Of the ten bytes from 5 on, five are in a fragment
already; the others get a new fragment. -/
theorem zero_for_stored : ¬Tells (tenBytes 10) [] ⟨5, 15⟩ := by
  intro h
  have hstored : Stored (tenBytes 10).mFragments ⟨5, 15⟩ :=
    ⟨_, List.mem_singleton_self _, 10, by decide, by decide⟩
  exact absurd (h.one.mpr hstored) (by decide)

end DWindow.Cache
