import DWindow.Cache.Feed
import DWindow.Lib.Runs
import Mathlib.Data.Finset.Card

/-!
# Disjointness of the cached ranges

No position should be cached twice, and `getdisksize` then counts the positions
that are.  `feed` gives this up when a block meets two fragments: its first loop
stops at the first one that conflicts, and the piece that leaves may still
overlap another.  `feed_not_disjoint` is such a run, with the fragments in the
order the downloads happened.

`PieceFree` is the condition that the piece kept meets no other fragment.  Under
it `apart_feed` keeps the ranges apart, and `feed_run_disjoint` is the result
for whole runs.  What is in the blocks plays no part here.
-/

namespace DWindow.Cache

open CInt Runs

/-- The two fragments cache no position in common. -/
def Apart (f g : DiskFragment) : Prop := ∀ k, k ∈ f.me → k ∉ g.me

theorem Apart.symm {f g : DiskFragment} (h : Apart f g) : Apart g f :=
  fun k hg hf => h k hf hg

def PairwiseDisjoint (s : InetFile) : Prop := s.mFragments.Pairwise Apart

/-- The positions `f` caches. -/
def DiskFragment.positions (f : DiskFragment) : Finset Int :=
  (Finset.range (f.mPos - f.mStart).toNat).image (fun k : Nat => f.mStart + k)

def cachedPositions (fs : List DiskFragment) : Finset Int :=
  fs.foldr (fun f acc => f.positions ∪ acc) ∅

/-- A worker's call: the buffer and the range it was read from. -/
structure FeedCall where
  buf : List UInt8
  pos : Fragment

def feedStep (s : InetFile) (c : FeedCall) : InetFile := (s.feed c.buf c.pos).1

/-- The part of `pos` in front of the first fragment it meets, or behind it when
`pos` starts inside, meets no fragment; and it is shorter than `2^31`. -/
def PieceFree (s : InetFile) (pos : Fragment) : Prop :=
  match firstMet s.mFragments pos with
  | none => pos.stop - pos.start < 2 ^ 31
  | some f =>
    if pos.start < f.mStart then
      f.mStart - pos.start < 2 ^ 31 ∧
        ∀ g ∈ s.mFragments, ¬ Fragment.Meets ⟨pos.start, f.mStart⟩ g.me
    else
      pos.stop ≤ f.mPos ∨ (pos.stop - f.mPos < 2 ^ 31 ∧
        ∀ g ∈ s.mFragments, ¬ Fragment.Meets ⟨f.mPos, pos.stop⟩ g.me)

instance (s : InetFile) (pos : Fragment) : Decidable (PieceFree s pos) :=
  match h : firstMet s.mFragments pos with
  | none => decidable_of_iff (pos.stop - pos.start < 2 ^ 31) (by rw [PieceFree, h])
  | some f =>
    if hlt : pos.start < f.mStart then
      decidable_of_iff (f.mStart - pos.start < 2 ^ 31 ∧
        ∀ g ∈ s.mFragments, ¬ Fragment.Meets ⟨pos.start, f.mStart⟩ g.me)
        (by rw [PieceFree, h]; simp only [if_pos hlt])
    else
      decidable_of_iff (pos.stop ≤ f.mPos ∨ (pos.stop - f.mPos < 2 ^ 31 ∧
        ∀ g ∈ s.mFragments, ¬ Fragment.Meets ⟨f.mPos, pos.stop⟩ g.me))
        (by rw [PieceFree, h]; simp only [if_neg hlt])

/-! ## Counting -/

theorem mem_positions {f : DiskFragment} {k : Int} : k ∈ f.positions ↔ k ∈ f.me := by
  rw [DiskFragment.positions, Finset.mem_image]
  constructor
  · rintro ⟨i, hi, rfl⟩
    rw [Finset.mem_range] at hi
    exact ⟨show f.mStart ≤ _ by omega, show _ < f.mPos by omega⟩
  · rintro ⟨hstart, hstop⟩
    have hstart : f.mStart ≤ k := hstart
    have hstop : k < f.mPos := hstop
    exact ⟨(k - f.mStart).toNat, Finset.mem_range.mpr (by omega), by omega⟩

theorem card_positions (f : DiskFragment) : f.positions.card = (f.mPos - f.mStart).toNat := by
  rw [DiskFragment.positions, Finset.card_image_of_injective, Finset.card_range]
  intro i j h
  simpa using h

theorem cachedPositions_cons (f : DiskFragment) (fs : List DiskFragment) :
    cachedPositions (f :: fs) = f.positions ∪ cachedPositions fs := rfl

theorem mem_cachedPositions {fs : List DiskFragment} {k : Int} :
    k ∈ cachedPositions fs ↔ ∃ f ∈ fs, k ∈ f.me := by
  induction fs with
  | nil => simp [cachedPositions]
  | cons f fs ih =>
    rw [cachedPositions_cons, Finset.mem_union, ih, mem_positions, List.exists_mem_cons_iff]

/-- **Disjoint ranges are counted once each.** -/
theorem sum_eq_card {fs : List DiskFragment} (hne : NonEmpty fs) (hd : fs.Pairwise Apart) :
    (fs.map (fun f => f.mPos - f.mStart)).sum = (cachedPositions fs).card := by
  induction fs with
  | nil => rfl
  | cons f fs ih =>
    obtain ⟨hf, hfs⟩ := List.pairwise_cons.mp hd
    have hdisj : Disjoint f.positions (cachedPositions fs) := by
      rw [Finset.disjoint_left]
      intro k hk hmem
      obtain ⟨g, hg, hkg⟩ := mem_cachedPositions.mp hmem
      exact hf g hg k (mem_positions.mp hk) hkg
    have hlen := hne f (List.mem_cons_self ..)
    rw [List.map_cons, List.sum_cons, ih (fun g hg => hne g (List.mem_cons_of_mem _ hg)) hfs,
      cachedPositions_cons, Finset.card_union_of_disjoint hdisj, card_positions]
    omega

/-! ## One call -/

/-- A piece that `feed` stores under the condition is short and meets nothing. -/
theorem piece_of_pieceFree {s : InetFile} {pos : Fragment} (hok : PieceFree s pos)
    (hlt : (piece s.mFragments pos).start < (piece s.mFragments pos).stop) :
    (piece s.mFragments pos).stop - (piece s.mFragments pos).start < 2 ^ 31 ∧
      ∀ g ∈ s.mFragments, ¬ (piece s.mFragments pos).Meets g.me := by
  rw [PieceFree] at hok
  rw [piece] at hlt ⊢
  cases hfirst : firstMet s.mFragments pos with
  | none =>
    rw [hfirst] at hok
    refine ⟨hok, fun g hg => ?_⟩
    simpa using List.find?_eq_none.mp hfirst g hg
  | some f =>
    rw [hfirst] at hok hlt
    simp only [trimmed] at hok hlt ⊢
    by_cases h1 : pos.start < f.mStart
    · rw [if_pos h1] at hok ⊢
      exact hok
    · rw [if_neg h1] at hok hlt ⊢
      simp only at hlt
      rcases hok with h2 | ⟨h2, h3⟩
      · omega
      · rw [show min f.mPos pos.stop = f.mPos by omega]
        exact ⟨h2, h3⟩

theorem put_mPos_of_lt {f : DiskFragment} {left : Fragment} (buf : List UInt8)
    (hpos : f.mPos = left.start) (hlt : left.start < left.stop)
    (hsize : left.stop - left.start < 2 ^ 31) :
    (f.put buf (toInt32 (left.stop - left.start))).mPos = left.stop := by
  rw [DiskFragment.put_mPos, toInt32_of_lt (by omega) hsize]
  omega

/-- What a grown fragment caches: what it cached before, and the piece. -/
theorem mem_put {f : DiskFragment} {left : Fragment} {buf : List UInt8} {k : Int}
    (hpos : f.mPos = left.start) (hlt : left.start < left.stop)
    (hsize : left.stop - left.start < 2 ^ 31)
    (hk : k ∈ (f.put buf (toInt32 (left.stop - left.start))).me) : k ∈ f.me ∨ k ∈ left := by
  have h := put_mPos_of_lt buf hpos hlt hsize
  simp only [Fragment.mem_def, h, DiskFragment.put_mStart, hpos] at hk ⊢
  omega

theorem apart_feed {s : InetFile} {pos : Fragment} {buf : List UInt8}
    (hne : NonEmpty s.mFragments) (hs : PairwiseDisjoint s) (hp : pos.start < pos.stop)
    (hok : PieceFree s pos) :
    NonEmpty (s.feed buf pos).1.mFragments ∧ PairwiseDisjoint (s.feed buf pos).1 := by
  rw [PairwiseDisjoint]
  rcases feed_cases buf hne hp with ⟨-, h⟩ | ⟨hlt, pre, f, post, hsplit, hpos, h⟩ | ⟨hlt, -, h⟩
  · rw [h]
    exact ⟨hne, hs⟩
  · obtain ⟨hsize, hfree⟩ := piece_of_pieceFree hok hlt
    -- the grown fragment keeps clear of a fragment that neither it nor the piece meets
    have hgrown : ∀ g ∈ s.mFragments, Apart f g →
        Apart (f.put buf (toInt32 ((piece s.mFragments pos).stop -
          (piece s.mFragments pos).start))) g := by
      intro g hg hfg k hk hkg
      rcases mem_put hpos hlt hsize hk with hkf | hkl
      · exact hfg k hkf hkg
      · exact hfree g hg (Fragment.meets_iff_exists.mpr ⟨k, hkl, hkg⟩)
    have hstop := put_mPos_of_lt buf hpos hlt hsize
    rw [PairwiseDisjoint, hsplit] at hs
    rw [hsplit] at hne
    obtain ⟨hpre, hfpost, hcross⟩ := List.pairwise_append.mp hs
    obtain ⟨hf, hpost⟩ := List.pairwise_cons.mp hfpost
    have hmem : ∀ g, g ∈ pre ∨ g ∈ post → g ∈ s.mFragments := by
      rintro g (hg | hg) <;> simp [hsplit, hg]
    rw [h]
    constructor
    · intro g hg
      rcases List.mem_append.mp hg with hg | hg
      · exact hne g (List.mem_append_left _ hg)
      · rcases List.mem_cons.mp hg with rfl | hg
        · have := hne f (by simp)
          rw [hstop, DiskFragment.put_mStart]
          omega
        · exact hne g (List.mem_append_right _ (List.mem_cons_of_mem _ hg))
    · refine List.pairwise_append.mpr ⟨hpre, List.pairwise_cons.mpr ⟨?_, hpost⟩, ?_⟩
      · exact fun g hg => hgrown g (hmem g (Or.inr hg)) (hf g hg)
      · intro g hg g' hg'
        rcases List.mem_cons.mp hg' with rfl | hg'
        · exact (hgrown g (hmem g (Or.inl hg)) (hcross g hg f (List.mem_cons_self ..)).symm).symm
        · exact hcross g hg g' (List.mem_cons_of_mem _ hg')
  · obtain ⟨hsize, hfree⟩ := piece_of_pieceFree hok hlt
    have hstart : (DiskFragment.ofFile [] (piece s.mFragments pos).start).mPos =
        (piece s.mFragments pos).start := by simp
    have hstop := put_mPos_of_lt buf hstart hlt hsize
    rw [h]
    constructor
    · intro g hg
      rcases List.mem_append.mp hg with hg | hg
      · exact hne g hg
      · rw [List.mem_singleton.mp hg, hstop]
        simpa using hlt
    · refine List.pairwise_append.mpr ⟨hs, List.pairwise_singleton _ _, ?_⟩
      intro g hg g' hg' k hkg hkg'
      rw [List.mem_singleton.mp hg'] at hkg'
      rcases mem_put hstart hlt hsize hkg' with hkn | hkl
      · simp [Fragment.mem_def] at hkn
        omega
      · exact hfree g hg (Fragment.meets_iff_exists.mpr ⟨k, hkl, hkg⟩)

/-! ## A run of `feed` -/

/-- **While no piece meets a second fragment the cached ranges are disjoint**, and
`getdisksize` is the number of positions cached. -/
theorem feed_run_disjoint (configfile : List UInt16) (time : Int) (calls : List FeedCall)
    (hwf : ∀ c ∈ calls, 0 ≤ c.pos.start ∧ c.pos.start < c.pos.stop)
    (hok : Along feedStep (fun s c => PieceFree s c.pos) (InetFile.create configfile time) calls)
    (n : Nat) :
    PairwiseDisjoint (run feedStep (InetFile.create configfile time) (calls.take n)) ∧
      (run feedStep (InetFile.create configfile time) (calls.take n)).getdisksize =
        (cachedPositions
          (run feedStep (InetFile.create configfile time) (calls.take n)).mFragments).card := by
  have hinv := along_run (fun s => NonEmpty s.mFragments ∧ PairwiseDisjoint s)
    (fun _ _ hs h => apart_feed hs.1 hs.2 h.2.2 h.1)
    (calls.take n) (InetFile.create configfile time)
    ⟨fun f hf => absurd hf List.not_mem_nil, List.Pairwise.nil⟩
    (along_and_forall _ _ (along_take hok n) (fun c hc => hwf c (List.mem_of_mem_take hc)))
  exact ⟨hinv.2, sum_eq_card hinv.1 hinv.2⟩

theorem feed_run_disjoint_three :
    PairwiseDisjoint (run feedStep (InetFile.create [] 0)
      ([⟨[], ⟨4, 8⟩⟩, ⟨[], ⟨0, 6⟩⟩, ⟨[], ⟨7, 9⟩⟩] : List FeedCall)) :=
  (feed_run_disjoint [] 0 [⟨[], ⟨4, 8⟩⟩, ⟨[], ⟨0, 6⟩⟩, ⟨[], ⟨7, 9⟩⟩] (by simp)
    ⟨by decide, by decide, by decide, trivial⟩ 3).1

/-- **A block that meets two fragments is cached twice.**  With `[4, 6)` and
`[1, 2)` cached in this order, `[0, 5)` leaves the piece `[0, 4)`, and position
`1` is stored again. -/
theorem feed_not_disjoint :
    ¬ ∀ (configfile : List UInt16) (time : Int) (calls : List FeedCall),
      (∀ c ∈ calls, 0 ≤ c.pos.start ∧ c.pos.start < c.pos.stop) →
      PairwiseDisjoint (run feedStep (InetFile.create configfile time) calls) ∧
        (run feedStep (InetFile.create configfile time) calls).getdisksize =
          (cachedPositions
            (run feedStep (InetFile.create configfile time) calls).mFragments).card := by
  intro h
  have hc := (h [] 0 [⟨[0, 0], ⟨4, 6⟩⟩, ⟨[0], ⟨1, 2⟩⟩, ⟨[0, 0, 0, 0, 0], ⟨0, 5⟩⟩] (by simp)).2
  exact absurd hc (by decide)

end DWindow.Cache
