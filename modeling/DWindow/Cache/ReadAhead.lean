import DWindow.Cache.Workers

/-!
# How far the workers read ahead

A worker may read up to `m_maxpos`, which `hint` moves on but never more than
`2 * PRELOADING_SIZE` in front of `m_pos`, and a range that nobody is responsible for gets a
worker of its own.  The sums are `__int64`: with a position in the last
`2 * PRELOADING_SIZE` bytes that the type can count they come out negative, and the window
of a worker closes (`last_position_uncovered`).
-/

namespace DWindow.Cache

open CInt Runs

namespace InetWorker

/-- The window of the worker ends where its sums still can be counted. -/
def Countable (w : InetWorker) : Prop :=
  -2 ^ 63 ≤ w.mPos ∧ w.mPos + PRELOADING_SIZE * 2 < 2 ^ 63

/-- The worker reads at most `2 * PRELOADING_SIZE` ahead. -/
def InWindow (w : InetWorker) : Prop := w.mMaxpos ≤ w.mPos + PRELOADING_SIZE * 2

instance (w : InetWorker) : Decidable w.InWindow := inferInstanceAs (Decidable (_ ≤ _))

theorem hint_mMaxpos {w : InetWorker} (hc : w.Countable) (hw : w.InWindow) (pos : Int) :
    w.mMaxpos ≤ (w.hint pos).mMaxpos ∧ (w.hint pos).InWindow := by
  have hsum : toInt64 (w.mPos + PRELOADING_SIZE * 2) = w.mPos + PRELOADING_SIZE * 2 := by
    have hpre : 0 ≤ PRELOADING_SIZE := by decide
    exact toInt64_of_lt (by have := hc.1; omega) hc.2
  unfold InWindow at hw ⊢
  simp only [hint, hsum]
  omega

/-- A new worker is responsible for what it is opened for. -/
theorem create_responsible {pos : Int} (h0 : 0 ≤ pos) (h : pos + PRELOADING_SIZE < 2 ^ 63)
    (now : Int) : (create (pos.tdiv BLOCK_SIZE * BLOCK_SIZE) now).responsible pos = true := by
  have hblock : BLOCK_SIZE = 65536 := rfl
  have hpre : PRELOADING_SIZE = 1048576 := rfl
  have hdiv : pos.tdiv BLOCK_SIZE * BLOCK_SIZE = pos / 65536 * 65536 := by
    rw [hblock, Int.tdiv_eq_ediv_of_nonneg h0]
  rw [hdiv]
  rw [hpre] at h
  have hsum : toInt64 (pos / 65536 * 65536 + PRELOADING_SIZE) =
      pos / 65536 * 65536 + 1048576 := by
    rw [hpre]
    exact toInt64_of_lt (by omega) (by omega)
  simp only [responsible, create, hsum, Bool.and_eq_true, decide_eq_true_eq]
  omega

end InetWorker

namespace Workers

/-- The workers that a step leaves on the list. -/
def leftBy (s : Workers) : WorkerStep → Workers
  | .remove i => s.eraseIdx i
  | _ => s

/-- What a step does to the read-ahead: every window stays within its bound, none ends
earlier than before, and a call that may open a worker leaves one that is responsible. -/
structure ReadsAhead (s : Workers) (a : WorkerStep) : Prop where
  inWindow : ∀ w ∈ s.step a, w.InWindow
  grows : ∀ (i : Nat) (w : InetWorker), (s.leftBy a)[i]? = some w →
    ∃ w', (s.step a)[i]? = some w' ∧ w.mMaxpos ≤ w'.mMaxpos
  covered : ∀ pos tick choice, a = .hint pos true tick choice → 0 ≤ pos.start →
    ∃ w ∈ s.step a, w.responsible pos.start = true

/-- A step that opens no worker and moves none where `2 * PRELOADING_SIZE` more cannot be
counted. -/
def InRange (s : Workers) : WorkerStep → Prop
  | .hint pos openNew _ _ => s.opens pos openNew = true →
      -2 ^ 63 ≤ pos.start ∧ pos.start + PRELOADING_SIZE * 2 < 2 ^ 63
  | .hintPost _ => True
  | .progress i o _ => ∀ w ∈ s[i]?, w.mPos + o + PRELOADING_SIZE * 2 < 2 ^ 63
  | .remove _ => True

instance (s : Workers) : ∀ a : WorkerStep, Decidable (InRange s a)
  | .hint pos openNew _ _ => inferInstanceAs (Decidable (s.opens pos openNew = true →
      -2 ^ 63 ≤ pos.start ∧ pos.start + PRELOADING_SIZE * 2 < 2 ^ 63))
  | .hintPost _ => isTrue trivial
  | .progress i o _ =>
    inferInstanceAs (Decidable (∀ w ∈ s[i]?, w.mPos + o + PRELOADING_SIZE * 2 < 2 ^ 63))
  | .remove _ => isTrue trivial

/-- Every window stays within its bound and can be counted. -/
def Windowed (s : Workers) : Prop := ∀ w ∈ s, w.Countable ∧ w.InWindow

theorem Windowed.hinted {s : Workers} (h : s.Windowed) (pos : Fragment) :
    Windowed (s.hinted pos) := by
  intro w hw
  obtain ⟨v, hv, rfl⟩ := List.mem_map.mp hw
  obtain ⟨hc, hin⟩ := h v hv
  have hin' := (InetWorker.hint_mMaxpos hc hin pos.start).2
  exact ⟨hc, (InetWorker.hint_mMaxpos (w := v.hint pos.start) hc hin' pos.stop).2⟩

theorem Windowed.signalQuit {s : Workers} (h : s.Windowed) (place : Option Nat) :
    Windowed (s.signalQuit place) := by
  cases place with
  | none => exact h
  | some i =>
    intro w hw
    rw [Workers.signalQuit, List.mem_iff_getElem?] at hw
    obtain ⟨j, hj⟩ := hw
    rw [List.getElem?_modify] at hj
    obtain ⟨v, hv, rfl⟩ := Option.map_eq_some_iff.mp hj
    have := h v (List.mem_of_getElem? hv)
    split
    · exact this
    · exact this

theorem Windowed.create {start : Int} (hmin : -2 ^ 63 ≤ start)
    (hmax : start + PRELOADING_SIZE * 2 < 2 ^ 63) (now : Int) :
    (InetWorker.create start now).Countable ∧ (InetWorker.create start now).InWindow := by
  have hpre : PRELOADING_SIZE = 1048576 := rfl
  refine ⟨⟨hmin, hmax⟩, ?_⟩
  unfold InetWorker.InWindow
  simp only [InetWorker.create]
  rw [hpre] at hmax ⊢
  rw [toInt64_of_lt (by omega) (by omega)]
  omega

theorem getElem?_signalQuit {s : Workers} {i : Nat} {w : InetWorker} (h : s[i]? = some w)
    (place : Option Nat) :
    ∃ w', (s.signalQuit place)[i]? = some w' ∧ w'.mMaxpos = w.mMaxpos := by
  cases place with
  | none => exact ⟨w, h, rfl⟩
  | some k =>
    rw [Workers.signalQuit, List.getElem?_modify, h]
    refine ⟨_, rfl, ?_⟩
    split <;> rfl

/-- Rounding a position down, towards zero, does not leave the range. -/
theorem blockStart_range {pos : Int} (hmin : -2 ^ 63 ≤ pos)
    (hmax : pos + PRELOADING_SIZE * 2 < 2 ^ 63) :
    -2 ^ 63 ≤ pos.tdiv BLOCK_SIZE * BLOCK_SIZE ∧
      pos.tdiv BLOCK_SIZE * BLOCK_SIZE + PRELOADING_SIZE * 2 < 2 ^ 63 := by
  have hblock : BLOCK_SIZE = 65536 := rfl
  have hpre : PRELOADING_SIZE = 1048576 := rfl
  rw [hpre] at hmax ⊢
  rw [hblock]
  rcases le_total 0 pos with h0 | h0
  · rw [Int.tdiv_eq_ediv_of_nonneg h0]
    omega
  · obtain ⟨n, rfl⟩ : ∃ n, pos = -n := ⟨-pos, (neg_neg pos).symm⟩
    rw [Int.neg_tdiv, Int.tdiv_eq_ediv_of_nonneg (by omega)]
    omega

theorem Windowed.step {s : Workers} (h : s.Windowed) {a : WorkerStep} (ha : s.InRange a) :
    Windowed (s.step a) := by
  cases a with
  | hint pos openNew tick choice =>
    rw [Workers.step]
    split
    · next hopens =>
      obtain ⟨hmin, hmax⟩ := ha hopens
      obtain ⟨hmin, hmax⟩ := blockStart_range hmin hmax
      intro w hw
      rcases List.mem_append.mp hw with hw | hw
      · exact (h.hinted pos).signalQuit _ w hw
      · rw [List.mem_singleton.mp hw]
        exact Windowed.create hmin hmax _
    · exact h.hinted pos
  | hintPost now =>
    intro w hw
    rcases List.mem_append.mp hw with hw | hw
    · exact h w hw
    · rw [List.mem_singleton.mp hw]
      exact Windowed.create (by decide) (by decide) now
  | progress i o now =>
    intro w hw
    rw [Workers.step, List.mem_iff_getElem?] at hw
    obtain ⟨j, hj⟩ := hw
    rw [List.getElem?_modify] at hj
    obtain ⟨v, hv, rfl⟩ := Option.map_eq_some_iff.mp hj
    obtain ⟨hc, hin⟩ := h v (List.mem_of_getElem? hv)
    split
    · next heq =>
      subst heq
      have hroom := ha v hv
      have hpre : PRELOADING_SIZE = 1048576 := rfl
      unfold InetWorker.Countable at hc ⊢
      unfold InetWorker.InWindow at hin ⊢
      rw [hpre] at hc hin hroom ⊢
      rw [InetWorker.progress]
      split
      · exact ⟨hc, hin⟩
      · rw [toInt64_of_lt (by omega) (by omega)]
        dsimp only
        omega
    · exact ⟨hc, hin⟩
  | remove i => exact fun w hw => h w (List.mem_of_mem_eraseIdx hw)

theorem Windowed.readsAhead {s : Workers} (h : s.Windowed) {a : WorkerStep} (ha : s.InRange a) :
    s.ReadsAhead a := by
  refine ⟨fun w hw => (h.step ha w hw).2, fun i w hw => ?_, ?_⟩
  · cases a with
    | hint pos openNew tick choice =>
      obtain ⟨hc, hin⟩ := h w (List.mem_of_getElem? hw)
      have hfirst := InetWorker.hint_mMaxpos hc hin pos.start
      have hsecond := InetWorker.hint_mMaxpos (w := w.hint pos.start) hc hfirst.2 pos.stop
      have hhinted : (s.hinted pos)[i]? = some ((w.hint pos.start).hint pos.stop) := by
        rw [Workers.hinted, List.getElem?_map]
        exact congrArg (Option.map _) hw
      have hgrown : w.mMaxpos ≤ ((w.hint pos.start).hint pos.stop).mMaxpos := by omega
      rw [Workers.step]
      split
      · obtain ⟨w', hw', heq⟩ := getElem?_signalQuit hhinted
          ((s.hinted pos).victim tick choice)
        refine ⟨w', ?_, by rwa [heq]⟩
        rw [List.getElem?_append_left (List.getElem?_eq_some_iff.mp hw').1, hw']
      · exact ⟨_, hhinted, hgrown⟩
    | hintPost now =>
      have hw : s[i]? = some w := hw
      refine ⟨w, ?_, Int.le_refl _⟩
      rw [Workers.step, List.getElem?_append_left (List.getElem?_eq_some_iff.mp hw).1]
      exact hw
    | progress k o now =>
      have hw : s[i]? = some w := hw
      rw [Workers.step, List.getElem?_modify, hw]
      refine ⟨_, rfl, ?_⟩
      split <;> exact Int.le_refl _
    | remove k => exact ⟨w, hw, Int.le_refl _⟩
  · rintro pos tick choice rfl h0
    rw [Workers.step]
    by_cases hopens : s.opens pos true = true
    · rw [if_pos hopens]
      have hpre : 0 ≤ PRELOADING_SIZE := by decide
      exact ⟨_, List.mem_append_right _ (List.mem_singleton_self _),
        InetWorker.create_responsible h0 (by have := (ha hopens).2; omega) _⟩
    · rw [if_neg hopens]
      simpa [opens] using hopens

/-- **The window of every worker** stays within its bound and never closes, and a call that
may open a worker leaves one that is responsible, all along a run whose positions leave room
for the window in an `__int64`. -/
theorem readsAhead_along (steps : List WorkerStep) (h : Along step InRange [] steps) :
    Along step ReadsAhead [] steps :=
  along_of_invariant Windowed (fun _ _ hs ha => hs.step ha) (fun _ _ hs ha => hs.readsAhead ha)
    steps [] (by simp [Windowed]) h

/-- Two workers, and a range for which there has to be a third one. -/
theorem readsAhead_along_three : Along step ReadsAhead []
    [.hintPost 0, .hint ⟨2 ^ 24, 2 ^ 24 + 5⟩ true (fun _ => 0) 0, .progress 0 4096 1,
      .hint ⟨5, 9⟩ true (fun _ => 2) 0] :=
  readsAhead_along _ (by decide)

/-- The last position that an `__int64` can count: the new worker's window ends before it
begins. -/
theorem last_position_uncovered :
    ¬ ∀ (steps : List WorkerStep), Along step ReadsAhead [] steps := by
  intro h
  obtain ⟨hlast, -⟩ := h [.hint ⟨2 ^ 63 - 1, 2 ^ 63 - 1⟩ true (fun _ => 0) 0]
  obtain ⟨w, hw, hresponsible⟩ := hlast.covered _ _ _ rfl (by decide)
  revert w
  decide

end Workers

end DWindow.Cache
