import Mathlib.Algebra.Order.BigOperators.Group.List
import Mathlib.Algebra.Order.Ring.Rat
import Mathlib.Tactic.Linarith
import Mathlib.Tactic.Ring

/-!
# Seeking in a segmented movie

`player.total`, `tell` and `seek` of `playlist.lua` for a movie that comes in segments, of
which one is loaded.  `seek` takes the lengths of segments off the target until what is left
is in the segment, `tell` adds those in front of the current segment back.
When the segment changes, `seek` sets the rest of the target to 0, so it lands where it was
asked to if and only if the target is in the current segment, or is 0: `lands_iff`.

Numbers are exact.  The segment that is loaded begins at position 0; `player.pause` and the
second eye's segments change nothing here and are left out.
-/

namespace DWindow.UI

/-- A movie in segments: their durations in seconds, the number of the one that is loaded,
`playlist.current`, and the position inside it in milliseconds. -/
structure SegmentedMovie where
  durations : List Rat
  current : Nat
  position : Rat

namespace SegmentedMovie

def length (durations : List Rat) : Rat := (durations.map (· * 1000)).sum

def total (s : SegmentedMovie) : Rat := s.durations.sum * 1000

def tell (s : SegmentedMovie) : Rat := s.position + length (s.durations.take (s.current - 1))

/-- The loop of `player.seek`: the number of the segment, and what is left of the target. -/
def seekLoop : List Rat → Nat → Rat → Nat × Rat
  | d :: d' :: durations, segment, target =>
    if d * 1000 < target then seekLoop (d' :: durations) (segment + 1) (target - d * 1000)
    else (segment, target)
  | _, segment, target => (segment, target)

/-- `player.seek`, and what it returns. -/
def seek (s : SegmentedMovie) (target : Rat) : SegmentedMovie × Bool :=
  if target < 0 ∨ s.total ≤ target then (s, false)
  else
    let r := seekLoop s.durations 1 target
    if r.1 ≠ s.current then ({ s with current := r.1, position := 0 }, true)
    else ({ s with position := r.2 }, true)

/-- The time span of segment `k`. -/
def span (s : SegmentedMovie) (k : Nat) : Set Rat :=
  {t | length (s.durations.take (k - 1)) ≤ t ∧ t ≤ length (s.durations.take k)}

/-- A seek lands where it was asked to. -/
structure Lands (s : SegmentedMovie) (target : Rat) : Prop where
  accepted : (s.seek target).2 = true
  first : 1 ≤ (s.seek target).1.current
  last : (s.seek target).1.current ≤ s.durations.length
  inside : target ∈ s.span (s.seek target).1.current
  tell : (s.seek target).1.tell = target

/-! ## Lengths -/

@[simp] theorem length_nil : length [] = 0 := rfl

@[simp] theorem length_cons (d : Rat) (l : List Rat) : length (d :: l) = d * 1000 + length l := by
  simp [length]

@[simp] theorem length_append (a b : List Rat) : length (a ++ b) = length a + length b := by
  simp [length]

theorem length_nonneg {l : List Rat} (h : ∀ d ∈ l, 0 < d) : 0 ≤ length l := by
  induction l with
  | nil => simp
  | cons d l ih =>
    have hd := h d List.mem_cons_self
    have hl := ih fun x hx => h x (List.mem_cons_of_mem _ hx)
    rw [length_cons]
    linarith

theorem total_eq (s : SegmentedMovie) : s.total = length s.durations := by
  rw [total]
  induction s.durations with
  | nil => simp
  | cons d l ih =>
    rw [List.sum_cons, length_cons, ← ih]
    ring

/-- The start of a segment is not before those of the segments in front of it. -/
theorem length_take_le {l : List Rat} (h : ∀ d ∈ l, 0 < d) {i j : Nat} (hij : i ≤ j) :
    length (l.take i) ≤ length (l.take j) := by
  obtain ⟨k, rfl⟩ := Nat.exists_eq_add_of_le hij
  rw [List.take_add, length_append]
  have hrest := length_nonneg (l := (l.drop i).take k) fun d hd =>
    h d (List.mem_of_mem_drop (List.mem_of_mem_take hd))
  linarith

/-! ## The loop -/

/-- **The loop** stops at the first segment that is the last one or goes as far as what is
left of the target. -/
theorem seekLoop_spec : ∀ (b : List Rat) (segment : Nat) (target : Rat), b ≠ [] →
    ∃ c d e, b = c ++ d :: e ∧
      seekLoop b segment target = (segment + c.length, target - length c) ∧
      (c ≠ [] → length c < target) ∧ (e ≠ [] → target ≤ length c + d * 1000) := by
  intro b
  induction b with
  | nil => intro _ _ h; exact absurd rfl h
  | cons d b ih =>
    intro segment target _
    cases b with
    | nil =>
      exact ⟨[], d, [], rfl, by simp [seekLoop], fun h => absurd rfl h, fun h => absurd rfl h⟩
    | cons d' durations =>
      by_cases hlt : d * 1000 < target
      · obtain ⟨c, x, e, hb, hloop, hbefore, hend⟩ :=
          ih (segment + 1) (target - d * 1000) (List.cons_ne_nil _ _)
        refine ⟨d :: c, x, e, by rw [hb, List.cons_append], ?_, ?_, ?_⟩
        · rw [seekLoop, if_pos hlt, hloop, length_cons, List.length_cons]
          congr 1
          · omega
          · ring
        · intro _
          rw [length_cons]
          by_cases hc : c = []
          · simpa [hc] using hlt
          · have := hbefore hc
            linarith
        · intro he
          have := hend he
          rw [length_cons]
          linarith
      · refine ⟨[], d, d' :: durations, rfl, ?_, fun h => absurd rfl h, fun _ => ?_⟩
        · rw [seekLoop, if_neg hlt]
          simp
        · rw [length_nil]
          linarith

/-- **The seek** finds a segment that has the target in it, behind its start unless the
target is 0. -/
theorem seek_spec {s : SegmentedMovie} {target : Rat} (hne : s.durations ≠ [])
    (h0 : 0 ≤ target) (htotal : target < s.total) :
    ∃ k, 1 ≤ k ∧ k ≤ s.durations.length ∧ target ∈ s.span k ∧
      (target = length (s.durations.take (k - 1)) → target = 0) ∧
      s.seek target =
        if k ≠ s.current then ({ s with current := k, position := 0 }, true)
        else ({ s with position := target - length (s.durations.take (k - 1)) }, true) := by
  obtain ⟨c, d, e, hsplit, hloop, hbefore, hend⟩ := seekLoop_spec s.durations 1 target hne
  have hguard : ¬(target < 0 ∨ s.total ≤ target) := by
    rintro (h | h)
    · linarith
    · linarith
  have hstart : length (s.durations.take (1 + c.length - 1)) = length c := by
    rw [Nat.add_sub_cancel_left, hsplit, List.take_left]
  have hstop : length (s.durations.take (1 + c.length)) = length c + d * 1000 := by
    rw [hsplit, Nat.add_comm, List.take_length_add_append]
    simp
  refine ⟨1 + c.length, Nat.le_add_right _ _, ?_, ⟨?_, ?_⟩, ?_, ?_⟩
  · rw [hsplit, List.length_append, List.length_cons]
    omega
  · rw [hstart]
    by_cases hc : c = []
    · simpa [hc] using h0
    · exact (hbefore hc).le
  · rw [hstop]
    by_cases he : e = []
    · rw [total_eq, hsplit, he, length_append, length_cons, length_nil] at htotal
      linarith
    · exact hend he
  · rw [hstart]
    intro h
    by_cases hc : c = []
    · rw [h, hc, length_nil]
    · exact absurd h (hbefore hc).ne'
  · rw [seek, if_neg hguard, hloop, hstart]

/-- In the current segment a seek lands where it was asked to. -/
theorem lands_current {s : SegmentedMovie} {target position : Rat} (hfirst : 1 ≤ s.current)
    (hlast : s.current ≤ s.durations.length) (hspan : target ∈ s.span s.current)
    (hposition : position = target - length (s.durations.take (s.current - 1)))
    (hseek : s.seek target = ({ s with position := position }, true)) : s.Lands target := by
  refine ⟨by rw [hseek], ?_, ?_, ?_, ?_⟩
  · rw [hseek]
    exact hfirst
  · rw [hseek]
    exact hlast
  · rw [hseek]
    exact hspan
  · rw [hseek, hposition]
    apply sub_add_cancel

theorem lands_other {s : SegmentedMovie} {target : Rat} {k : Nat} (hfirst : 1 ≤ k)
    (hlast : k ≤ s.durations.length) (hspan : target ∈ s.span k)
    (hseek : s.seek target = ({ s with current := k, position := 0 }, true)) :
    s.Lands target ↔ target = length (s.durations.take (k - 1)) := by
  constructor
  · intro h
    have htell := h.tell
    rw [hseek] at htell
    simp only [tell] at htell
    rw [← htell, zero_add]
  · intro h
    refine ⟨by rw [hseek], ?_, ?_, ?_, ?_⟩
    · rw [hseek]
      exact hfirst
    · rw [hseek]
      exact hlast
    · rw [hseek]
      exact hspan
    · rw [hseek, h]
      apply zero_add

/-- **A seek lands where it was asked to** if and only if the target is 0 or in the current
segment, behind its start. -/
theorem lands_iff (s : SegmentedMovie) (target : Rat) (hpos : ∀ d ∈ s.durations, 0 < d)
    (hfirst : 1 ≤ s.current) (hlast : s.current ≤ s.durations.length)
    (h0 : 0 ≤ target) (htotal : target < s.total) :
    s.Lands target ↔ target = 0 ∨
      length (s.durations.take (s.current - 1)) < target ∧
        target ≤ length (s.durations.take s.current) := by
  have hne : s.durations ≠ [] := by
    rintro hnil
    rw [hnil, List.length_nil] at hlast
    omega
  obtain ⟨k, hk1, hkn, hspan, hzero, hseek⟩ := seek_spec hne h0 htotal
  by_cases hcur : k = s.current
  · subst hcur
    rw [if_neg (not_not.mpr rfl)] at hseek
    apply iff_of_true (lands_current hk1 hkn hspan rfl hseek)
    by_cases h : target = length (s.durations.take (s.current - 1))
    · exact Or.inl (hzero h)
    · exact Or.inr ⟨lt_of_le_of_ne hspan.1 (Ne.symm h), hspan.2⟩
  · rw [if_pos hcur] at hseek
    rw [lands_other hk1 hkn hspan hseek]
    constructor
    · intro h
      exact Or.inl (hzero h)
    · rintro (h | ⟨hlt, hle⟩)
      · -- 0 is in no segment but at the start of it.
        apply le_antisymm
        · rw [h]
          exact length_nonneg fun d hd => hpos d (List.mem_of_mem_take hd)
        · exact hspan.1
      · -- No other segment has the target behind its start.
        rcases Nat.lt_or_gt_of_ne hcur with h | h
        · have := length_take_le hpos (show k ≤ s.current - 1 by omega)
          have := hspan.2
          linarith
        · have := length_take_le hpos (show s.current ≤ k - 1 by omega)
          have := hspan.1
          linarith

/-- Inside the loaded segment. -/
theorem lands_first_segment :
    (⟨[10, 10], 1, 0⟩ : SegmentedMovie).Lands 7000 :=
  (lands_iff ⟨[10, 10], 1, 0⟩ 7000 (by decide) (by decide) (by decide)
    (by decide +kernel) (by decide +kernel)).mpr (Or.inr (by decide +kernel))

/-- A seek to 15 s, in the middle of the second segment, ends at 10 s, at its start. -/
theorem seek_lost_in_segment :
    ((⟨[10, 10], 1, 0⟩ : SegmentedMovie).seek 15000).2 = true ∧
      ((⟨[10, 10], 1, 0⟩ : SegmentedMovie).seek 15000).1.current = 2 ∧
      ((⟨[10, 10], 1, 0⟩ : SegmentedMovie).seek 15000).1.tell = 10000 ∧
      ¬(⟨[10, 10], 1, 0⟩ : SegmentedMovie).Lands 15000 := by
  refine ⟨by decide +kernel, by decide +kernel, by decide +kernel, ?_⟩
  rintro h
  exact absurd h.tell (by decide +kernel)

end SegmentedMovie

end DWindow.UI
