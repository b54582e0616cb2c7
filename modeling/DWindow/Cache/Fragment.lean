import Mathlib.Data.Int.Basic
import Mathlib.Data.List.Basic
import Mathlib.Tactic.Linarith

/-!
# Fragments

A `fragment` of `full_cache.h` is a half-open range of file positions, written
here as `⟨start, stop⟩` (the source's second field is called `end`).  The two
helpers at the top of `full_cache.cpp` are embedded as they stand:
`crossFragment` is the intersection and `subtractFragment` cuts one range out of
another, leaving zero, one or two pieces in the array `o`.

Everything later proved about the cache goes through three facts about the cut.
`subtractFragment_of_not_meets` says a disjoint range leaves the whole of `frag`
in `o[0]`; `subtractFragment_of_meets` says what each of the four placements of
an overlapping range leaves; and `left_of_meets` says the pieces are together exactly
`frag` without the range.  The positions are `__int64` in the source.  None of
the operations leaves the interval spanned by its arguments, so `Int` is used
and no wrap-around can occur.
-/

namespace DWindow.Cache

/-- `fragment`: the positions `start, …, stop - 1`. -/
structure Fragment where
  start : Int
  stop : Int
deriving DecidableEq, Repr

instance : Membership Int Fragment := ⟨fun f k => f.start ≤ k ∧ k < f.stop⟩

theorem Fragment.mem_def {f : Fragment} {k : Int} : k ∈ f ↔ f.start ≤ k ∧ k < f.stop := Iff.rfl

instance (f : Fragment) (k : Int) : Decidable (k ∈ f) :=
  inferInstanceAs (Decidable (f.start ≤ k ∧ k < f.stop))

/-- `cross_fragment`: the intersection, empty when the two do not meet. -/
def crossFragment (a b : Fragment) : Fragment :=
  let start := max a.start b.start
  let stop := min a.stop b.stop
  ⟨start, max start stop⟩

/-- What `subtract_fragment` returns: its count, and the array it fills. -/
structure Pieces where
  count : Nat
  o0 : Fragment
  o1 : Fragment
deriving DecidableEq, Repr

/-- The pieces a caller may read, `o[0..count)`. -/
def Pieces.left (p : Pieces) : List Fragment := [p.o0, p.o1].take p.count

def subtractFragment (frag subtractor : Fragment) : Pieces :=
  let cross := crossFragment frag subtractor
  let first : Fragment := ⟨frag.start, max frag.start (min cross.start frag.stop)⟩
  let o1 : Fragment := ⟨min (max cross.stop frag.start) frag.stop, frag.stop⟩
  let o0 := if first.start = first.stop then o1 else first
  if o0.start = o0.stop then ⟨0, o0, o1⟩
  else if o1.start = o1.stop then ⟨1, o0, o1⟩
  else ⟨if o0 ≠ o1 then 2 else 1, o0, o1⟩

theorem count_subtractFragment_le (frag sub : Fragment) :
    (subtractFragment frag sub).count ≤ 2 := by
  simp only [subtractFragment]
  split_ifs
  all_goals simp

theorem length_left {p : Pieces} (h : p.count ≤ 2) : p.left.length = p.count := by
  rw [Pieces.left, List.length_take]
  exact Nat.min_eq_left h

/-! ## The intersection -/

theorem mem_crossFragment {a b : Fragment} {k : Int} :
    k ∈ crossFragment a b ↔ k ∈ a ∧ k ∈ b := by
  simp only [crossFragment, Fragment.mem_def]
  omega

/-- The two ranges have a position in common. -/
def Fragment.Meets (a b : Fragment) : Prop :=
  (crossFragment a b).start < (crossFragment a b).stop

instance (a b : Fragment) : Decidable (a.Meets b) :=
  inferInstanceAs (Decidable (_ < _))

theorem Fragment.meets_iff {a b : Fragment} :
    a.Meets b ↔ max a.start b.start < min a.stop b.stop := by
  simp only [Fragment.Meets, crossFragment]
  omega

theorem Fragment.meets_iff_exists {a b : Fragment} : a.Meets b ↔ ∃ k, k ∈ a ∧ k ∈ b := by
  rw [Fragment.meets_iff]
  constructor
  · intro h
    refine ⟨max a.start b.start, ?_, ?_⟩
    all_goals
      rw [Fragment.mem_def]
      omega
  · rintro ⟨k, ha, hb⟩
    rw [Fragment.mem_def] at ha hb
    omega

/-! ## The cut -/

theorem subtractFragment_of_not_meets {frag sub : Fragment} (h : frag.start < frag.stop)
    (hs : sub.start < sub.stop) (hm : ¬ frag.Meets sub) :
    (subtractFragment frag sub).o0 = frag ∧ (subtractFragment frag sub).count = 1 := by
  obtain ⟨a, b⟩ := frag
  obtain ⟨c, d⟩ := sub
  rw [Fragment.meets_iff] at hm
  simp only [subtractFragment, crossFragment] at *
  -- the range lies wholly to the left of `frag` or wholly to its right
  rcases le_or_gt d a with hda | had
  · simp only [show max a c = a by omega, show min b d = d by omega,
      show max a d = a by omega, show min a b = a by omega, max_self, if_true]
    simp [h.ne]
  · have hbc : b ≤ c := by omega
    simp only [show max a c = c by omega, show max c (min b d) = c by omega,
      show min c b = b by omega, show max a b = b by omega, show max c a = c by omega]
    simp [h.ne]

/-- **The four placements of a range that meets `frag`.**  `c` and `d` are the
ends of the intersection. -/
theorem subtractFragment_of_meets {frag sub : Fragment} (hm : frag.Meets sub) :
    subtractFragment frag sub =
      let c := max frag.start sub.start
      let d := min frag.stop sub.stop
      if frag.start < c then
        if d < frag.stop then ⟨2, ⟨frag.start, c⟩, ⟨d, frag.stop⟩⟩
        else ⟨1, ⟨frag.start, c⟩, ⟨frag.stop, frag.stop⟩⟩
      else
        if d < frag.stop then ⟨1, ⟨d, frag.stop⟩, ⟨d, frag.stop⟩⟩
        else ⟨0, ⟨frag.stop, frag.stop⟩, ⟨frag.stop, frag.stop⟩⟩ := by
  obtain ⟨a, b⟩ := frag
  obtain ⟨c, d⟩ := sub
  rw [Fragment.meets_iff] at hm
  simp only at hm
  generalize hc' : max a c = c' at hm
  generalize hd' : min b d = d' at hm
  simp only [subtractFragment, crossFragment, hc', hd', show max c' d' = d' by omega,
    show min c' b = c' by omega, show max a c' = c' by omega, show max d' a = d' by omega,
    show min d' b = d' by omega]
  by_cases h1 : a < c'
  · by_cases h2 : d' < b
    · simp [h1, h2, h1.ne, h2.ne]
      omega
    · have : d' = b := by omega
      subst this
      simp [h1, h1.ne]
  · have : a = c' := by omega
    subst this
    by_cases h2 : d' < b
    · simp [h2, h2.ne]
    · have : d' = b := by omega
      subst this
      simp

/-- **The pieces are `frag` without the range**, none of them is empty, and two
pieces stand in increasing order. -/
theorem left_of_meets {frag sub : Fragment} (hm : frag.Meets sub) :
    (∀ o ∈ (subtractFragment frag sub).left, o.start < o.stop) ∧
      (subtractFragment frag sub).left.Pairwise (fun o o' => o.stop ≤ o'.start) ∧
      ∀ k, (∃ o ∈ (subtractFragment frag sub).left, k ∈ o) ↔ k ∈ frag ∧ k ∉ sub := by
  rw [subtractFragment_of_meets hm]
  rw [Fragment.meets_iff] at hm
  dsimp only
  split <;> split <;> refine ⟨?_, ?_, fun k => ?_⟩
  all_goals
    simp [Pieces.left, Fragment.mem_def]
    try omega

/-- An empty range cuts `frag` in two where it stands inside, and leaves it as it is elsewhere. -/
theorem subtractFragment_of_empty {frag sub : Fragment} (h : frag.start < frag.stop)
    (hs : sub.start = sub.stop) :
    (subtractFragment frag sub).left =
      if frag.start < sub.start ∧ sub.start < frag.stop then
        [⟨frag.start, sub.start⟩, ⟨sub.start, frag.stop⟩]
      else [frag] := by
  obtain ⟨a, b⟩ := frag
  obtain ⟨c, d⟩ := sub
  dsimp only at h hs ⊢
  subst hs
  by_cases hac : a < c
  · by_cases hcb : c < b
    · simp only [subtractFragment, crossFragment, Pieces.left, show max a c = c by omega,
        show min b c = c by omega, show max c a = c by omega, show min c b = c by omega, max_self]
      simp [hac, hcb, hac.ne, hcb.ne]
    · simp only [subtractFragment, crossFragment, Pieces.left, show max a c = c by omega,
        show min b c = b by omega, show max c b = c by omega, show min c b = b by omega,
        show max a b = b by omega, show max c a = c by omega]
      simp [hcb, h.ne]
  · simp only [subtractFragment, crossFragment, Pieces.left, show max a c = a by omega,
      show min b c = c by omega, show max a a = a by omega, show min a b = a by omega]
    simp [hac, h.ne]

/-- **The cut.**  Of a range that is not empty at most two pieces are left, in increasing order,
which are together exactly the range without the other; none is left where the other covers it. -/
theorem subtractFragment_exact {frag sub : Fragment} (h : frag.start < frag.stop)
    (hs : sub.start ≤ sub.stop) :
    (subtractFragment frag sub).count ≤ 2 ∧
      (subtractFragment frag sub).left.length = (subtractFragment frag sub).count ∧
      (∀ o ∈ (subtractFragment frag sub).left, o.start < o.stop) ∧
      (subtractFragment frag sub).left.Pairwise (fun o o' => o.stop ≤ o'.start) ∧
      (∀ k, (∃ o ∈ (subtractFragment frag sub).left, k ∈ o) ↔ k ∈ frag ∧ k ∉ sub) ∧
      ((subtractFragment frag sub).count = 0 → sub.start ≤ frag.start ∧ frag.stop ≤ sub.stop) := by
  have hcount := count_subtractFragment_le frag sub
  have hlength := length_left hcount
  have hpieces : (∀ o ∈ (subtractFragment frag sub).left, o.start < o.stop) ∧
      (subtractFragment frag sub).left.Pairwise (fun o o' => o.stop ≤ o'.start) ∧
      ∀ k, (∃ o ∈ (subtractFragment frag sub).left, k ∈ o) ↔ k ∈ frag ∧ k ∉ sub := by
    by_cases hm : frag.Meets sub
    · exact left_of_meets hm
    · obtain hlt | heq := hs.lt_or_eq
      · obtain ⟨ho, hone⟩ := subtractFragment_of_not_meets h hlt hm
        rw [Fragment.meets_iff] at hm
        simp only [Pieces.left, hone, ho, Fragment.mem_def]
        refine ⟨by simpa using h, by simp, fun k => ?_⟩
        simp only [List.take_succ_cons, List.take_zero, List.mem_singleton, exists_eq_left]
        omega
      · rw [subtractFragment_of_empty h heq]
        split
        · refine ⟨by simpa using ‹_ ∧ _›, by simp, fun k => ?_⟩
          simp only [List.mem_cons, List.not_mem_nil, or_false, exists_eq_or_imp, exists_eq_left,
            Fragment.mem_def]
          omega
        · refine ⟨by simpa using h, by simp, fun k => ?_⟩
          simp only [List.mem_singleton, exists_eq_left, Fragment.mem_def]
          omega
  refine ⟨hcount, hlength, hpieces.1, hpieces.2.1, hpieces.2.2, fun hzero => ?_⟩
  -- nothing is left, so the range has the first and the last position of `frag`
  rw [hzero, List.length_eq_zero_iff] at hlength
  have hnone : ∀ k, ¬ (k ∈ frag ∧ k ∉ sub) := fun k => by
    rw [← hpieces.2.2 k, hlength]
    simp
  have hfirst := hnone frag.start
  have hlast := hnone (frag.stop - 1)
  simp only [Fragment.mem_def] at hfirst hlast
  omega

/-- A range that stands inside leaves two pieces. -/
theorem subtractFragment_exact_inside :
    (subtractFragment ⟨0, 10⟩ ⟨3, 5⟩).left = [⟨0, 3⟩, ⟨5, 10⟩] ∧
      ∀ k, (∃ o ∈ (subtractFragment ⟨0, 10⟩ ⟨3, 5⟩).left, k ∈ o) ↔
        k ∈ (⟨0, 10⟩ : Fragment) ∧ k ∉ (⟨3, 5⟩ : Fragment) := by
  have hexact := @subtractFragment_exact ⟨0, 10⟩ ⟨3, 5⟩ (by decide) (by decide)
  exact ⟨by decide, hexact.2.2.2.2.1⟩

end DWindow.Cache
