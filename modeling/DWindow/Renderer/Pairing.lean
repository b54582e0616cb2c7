import DWindow.Lib.CInt

/-!
# Pairing left and right frames

The dual-stream branch of `my12doomRenderer::DoRender`: two queues of decoded samples are
searched for a left and a right one of nearly the same start time, everything in front of
them is deleted, and the two go to the renderer.

The search and the clean-up compare start times as `(int)` differences with half a frame
length, the one with `<` and the other with `>`.  `pairs_iff` says when the two samples
handed over are a pair all the same.  The samples are of any type with a start time, any
64-bit integers; the caller's time `start` has been adjusted already.  The packet counts of
the inputs (`drop_packets`) are left out.
-/

namespace DWindow.Renderer

open CInt

/-- `abs` of an `int`; the least one is its own absolute value. -/
def absInt (n : Int) : Int := if n < 0 then toInt32 (-n) else n

/-- The two queues, the samples being rendered, and those deleted, in order. -/
structure My12doomRenderer (σ : Type*) where
  mLeftQueue : List σ
  mRightQueue : List σ
  mSample2render1 : Option σ
  mSample2render2 : Option σ
  deleted : List σ
deriving DecidableEq, Repr

variable {σ : Type*} (mStart : σ → Int) (frameLength : Int)

def matches32 (a b : Int) : Prop := absInt (toInt32 (a - b)) < frameLength.tdiv 2

/-- The test of the two loops that drop samples. -/
def unmatched32 (a matchedTime : Int) : Prop :=
  absInt (toInt32 (a - matchedTime)) > frameLength.tdiv 2

instance (a b : Int) : Decidable (matches32 frameLength a b) :=
  inferInstanceAs (Decidable (_ < _))

instance (a b : Int) : Decidable (unmatched32 frameLength a b) :=
  inferInstanceAs (Decidable (_ > _))

/-- The search: the start time of the first left sample that a right one matches. -/
def findMatch (right : List σ) : List σ → Option Int
  | [] => none
  | sample :: left =>
    if ∃ r ∈ right, matches32 frameLength (mStart sample) (mStart r) then some (mStart sample)
    else findMatch right left

/-- One of the loops that drop samples: those dropped, the one kept and the rest of the
queue; no result when the queue runs empty. -/
def dropUnmatched (matchedTime : Int) : List σ → Option (List σ × σ × List σ)
  | [] => none
  | sample :: queue =>
    if unmatched32 frameLength (mStart sample) matchedTime then
      (dropUnmatched matchedTime queue).map fun r => (sample :: r.1, r.2)
    else some ([], sample, queue)

namespace My12doomRenderer

/-- One pairing step; `false` is `S_FALSE`. -/
def pair (s : My12doomRenderer σ) (start : Int) : Option (Bool × My12doomRenderer σ) :=
  match findMatch mStart frameLength s.mRightQueue s.mLeftQueue with
  | none => some (false, s)
  | some matchedTime =>
    if matchedTime > start then some (false, s)
    else
      (dropUnmatched mStart frameLength matchedTime s.mLeftQueue).bind fun l =>
      (dropUnmatched mStart frameLength matchedTime s.mRightQueue).map fun r =>
        (true,
          { mLeftQueue := l.2.2
            mRightQueue := r.2.2
            mSample2render1 := some l.2.1
            mSample2render2 := some r.2.1
            deleted := s.deleted ++ l.1 ++ r.1 ++ s.mSample2render1.toList ++
              s.mSample2render2.toList })

end My12doomRenderer

/-! ## What a step is for -/

/-- The two times are less than half a frame apart. -/
def Close (a b : Int) : Prop := |a - b| < frameLength.tdiv 2

/-- The first left sample that a right one is close to is due. -/
def Due (left right : List σ) (start : Int) : Prop :=
  ∃ before l after, left = before ++ l :: after ∧
    (∀ a ∈ before, ∀ r ∈ right, ¬Close frameLength (mStart a) (mStart r)) ∧
    (∃ r ∈ right, Close frameLength (mStart l) (mStart r)) ∧ mStart l ≤ start

/-- **A right step.**  Nothing happens, or a pair is due, a left and a right sample that are
close go to the renderer, and what was in front of them and what was rendered before is
deleted, each sample once. -/
def Pairs (s s' : My12doomRenderer σ) (start : Int) : Prop :=
  s' = s ∨ Due mStart frameLength s.mLeftQueue s.mRightQueue start ∧
    ∃ dropped x left dropped' y right,
      s.mLeftQueue = dropped ++ x :: left ∧ s.mRightQueue = dropped' ++ y :: right ∧
      Close frameLength (mStart x) (mStart y) ∧
      s' = { mLeftQueue := left, mRightQueue := right, mSample2render1 := some x
             mSample2render2 := some y
             deleted := s.deleted ++ dropped ++ dropped' ++ s.mSample2render1.toList ++
               s.mSample2render2.toList }

/-- Where the search finds a match that is due, every left sample in front of it is dropped,
and some right sample is close to it of which the same holds. -/
def Aligned (left right : List σ) (start : Int) : Prop :=
  ∀ before l after, left = before ++ l :: after →
    (∀ a ∈ before, ∀ r ∈ right, ¬matches32 frameLength (mStart a) (mStart r)) →
    (∃ r ∈ right, matches32 frameLength (mStart l) (mStart r)) → mStart l ≤ start →
    (∀ a ∈ before, unmatched32 frameLength (mStart a) (mStart l)) ∧
    ∃ before' r after', right = before' ++ r :: after' ∧
      Close frameLength (mStart l) (mStart r) ∧
      ∀ a ∈ before', unmatched32 frameLength (mStart a) (mStart l)

/-! ## The tests -/

theorem toInt32_bounds (d : Int) : -2 ^ 31 ≤ toInt32 d ∧ toInt32 d < 2 ^ 31 :=
  ⟨Int.le_bmod (by norm_num), Int.bmod_lt (by norm_num)⟩

/-- Narrowing brings a difference closer to zero. -/
theorem absInt_toInt32_le (d : Int) : absInt (toInt32 d) ≤ |d| := by
  obtain ⟨hlow, hhigh⟩ := toInt32_bounds d
  have habs : absInt (toInt32 d) ≤ |toInt32 d| := by
    rw [absInt]
    split
    · next hneg =>
      have hle : toInt32 (-toInt32 d) ≤ -toInt32 d := by
        by_cases hmin : toInt32 d = -2 ^ 31
        · rw [hmin]
          decide
        · exact le_of_eq (toInt32_of_lt (by omega) (by omega))
      exact hle.trans (neg_le_abs _)
    · exact le_abs_self _
  refine habs.trans ?_
  by_cases hd : -2 ^ 31 ≤ d ∧ d < 2 ^ 31
  · exact le_of_eq (congrArg _ (toInt32_of_lt hd.1 hd.2))
  · have hfar : 2 ^ 31 ≤ |d| := by
      rw [le_abs]
      omega
    exact (abs_le.mpr ⟨hlow, hhigh.le⟩).trans hfar

variable {mStart frameLength}

theorem matches32_of_close {a b : Int} (h : Close frameLength a b) : matches32 frameLength a b :=
  lt_of_le_of_lt (absInt_toInt32_le _) h

theorem not_unmatched32_of_close {a b : Int} (h : Close frameLength a b) :
    ¬unmatched32 frameLength b a := by
  rw [Close, abs_sub_comm] at h
  exact not_lt_of_gt (lt_of_le_of_lt (absInt_toInt32_le _) h)

/-- A time is not dropped for itself when there is room for a pair. -/
theorem not_unmatched32_self {a b : Int} (h : Close frameLength a b) (t : Int) :
    ¬unmatched32 frameLength t t := by
  have hpos : 0 < frameLength.tdiv 2 := lt_of_le_of_lt (abs_nonneg _) h
  rw [unmatched32, sub_self]
  exact not_lt_of_gt hpos

/-! ## The search and the clean-up -/

theorem findMatch_eq_none {right : List σ} : ∀ {left : List σ},
    (∀ a ∈ left, ∀ r ∈ right, ¬matches32 frameLength (mStart a) (mStart r)) →
    findMatch mStart frameLength right left = none := by
  intro left
  induction left with
  | nil =>
    intro _
    rfl
  | cons a left ih =>
    intro h
    rw [List.forall_mem_cons] at h
    rw [findMatch, if_neg fun ⟨r, hr, hmatch⟩ => h.1 r hr hmatch]
    exact ih h.2

theorem findMatch_append {right : List σ} {l : σ} (after : List σ)
    (hl : ∃ r ∈ right, matches32 frameLength (mStart l) (mStart r)) : ∀ {before : List σ},
    (∀ a ∈ before, ∀ r ∈ right, ¬matches32 frameLength (mStart a) (mStart r)) →
    findMatch mStart frameLength right (before ++ l :: after) = some (mStart l) := by
  intro before
  induction before with
  | nil =>
    intro _
    rw [List.nil_append, findMatch, if_pos hl]
  | cons a before ih =>
    intro h
    rw [List.forall_mem_cons] at h
    rw [List.cons_append, findMatch, if_neg fun ⟨r, hr, hmatch⟩ => h.1 r hr hmatch]
    exact ih h.2

/-- The search stops at the first left sample that a right one matches. -/
theorem exists_first_match (mStart : σ → Int) (frameLength : Int) (right : List σ) :
    ∀ (left : List σ),
    (∀ a ∈ left, ∀ r ∈ right, ¬matches32 frameLength (mStart a) (mStart r)) ∨
    ∃ before l after, left = before ++ l :: after ∧
      (∀ a ∈ before, ∀ r ∈ right, ¬matches32 frameLength (mStart a) (mStart r)) ∧
      ∃ r ∈ right, matches32 frameLength (mStart l) (mStart r) := by
  intro left
  induction left with
  | nil => exact .inl fun a ha => absurd ha List.not_mem_nil
  | cons a left ih =>
    by_cases ha : ∃ r ∈ right, matches32 frameLength (mStart a) (mStart r)
    · exact .inr ⟨[], a, left, rfl, fun b hb => absurd hb List.not_mem_nil, ha⟩
    · have hnone : ∀ r ∈ right, ¬matches32 frameLength (mStart a) (mStart r) :=
        fun r hr hmatch => ha ⟨r, hr, hmatch⟩
      rcases ih with h | ⟨before, l, after, rfl, hbefore, hl⟩
      · exact .inl (List.forall_mem_cons.mpr ⟨hnone, h⟩)
      · exact .inr ⟨a :: before, l, after, rfl, List.forall_mem_cons.mpr ⟨hnone, hbefore⟩, hl⟩

theorem dropUnmatched_append {t : Int} {l : σ} (hl : ¬unmatched32 frameLength (mStart l) t)
    (after : List σ) : ∀ {before : List σ},
    (∀ a ∈ before, unmatched32 frameLength (mStart a) t) →
    dropUnmatched mStart frameLength t (before ++ l :: after) = some (before, l, after) := by
  intro before
  induction before with
  | nil =>
    intro _
    rw [List.nil_append, dropUnmatched, if_neg hl]
  | cons a before ih =>
    intro h
    rw [List.forall_mem_cons] at h
    rw [List.cons_append, dropUnmatched, if_pos h.1, ih h.2]
    rfl

/-- What is kept is the first sample that is not dropped. -/
theorem of_dropUnmatched {t : Int} : ∀ {queue dropped rest : List σ} {x : σ},
    dropUnmatched mStart frameLength t queue = some (dropped, x, rest) →
    queue = dropped ++ x :: rest ∧ (∀ a ∈ dropped, unmatched32 frameLength (mStart a) t) ∧
      ¬unmatched32 frameLength (mStart x) t := by
  intro queue
  induction queue with
  | nil => intro dropped rest x h; cases h
  | cons a queue ih =>
    intro dropped rest x h
    rw [dropUnmatched] at h
    split at h
    · next ha =>
      obtain ⟨⟨d, y, q⟩, hd, he⟩ := Option.map_eq_some_iff.mp h
      cases he
      obtain ⟨rfl, hdropped, hx⟩ := ih hd
      exact ⟨rfl, List.forall_mem_cons.mpr ⟨ha, hdropped⟩, hx⟩
    · next ha =>
      cases h
      exact ⟨rfl, fun b hb => absurd hb List.not_mem_nil, ha⟩

/-- Two ways to split a queue at a sample that is not dropped and has only dropped ones in
front of it: one sample is in front of the other only if it is dropped there. -/
theorem split_eq {t : Int} {x l : σ} : ∀ {dropped rest before after : List σ},
    dropped ++ x :: rest = before ++ l :: after →
    (∀ a ∈ dropped, unmatched32 frameLength (mStart a) t) →
    ¬unmatched32 frameLength (mStart l) t →
      x ∈ before ∨ dropped = before ∧ x = l ∧ rest = after := by
  intro dropped
  induction dropped with
  | nil =>
    intro rest before after h _ _
    cases before with
    | nil =>
      cases h
      exact .inr ⟨rfl, rfl, rfl⟩
    | cons b before =>
      cases h
      exact .inl (List.mem_cons_self ..)
  | cons d dropped ih =>
    intro rest before after h hdropped hl
    rw [List.forall_mem_cons] at hdropped
    cases before with
    | nil =>
      cases h
      exact absurd hdropped.1 hl
    | cons b before =>
      rw [List.cons_append, List.cons_append, List.cons.injEq] at h
      obtain ⟨rfl, h⟩ := h
      rcases ih h hdropped.2 hl with hx | ⟨rfl, rfl, rfl⟩
      · exact .inl (List.mem_cons_of_mem _ hx)
      · exact .inr ⟨rfl, rfl, rfl⟩

/-! ## When a step is right -/

/-- **A pairing step is right** if and only if the queues are aligned: two samples that are
handed over differ by less than half a frame, with no pair, or none that is due, nothing
happens, no empty queue is asked for a sample, and what is removed is handed over or deleted
once. -/
theorem pairs_iff (mStart : σ → Int) (frameLength : Int) (s : My12doomRenderer σ) (start : Int) :
    (∃ rtn s', s.pair mStart frameLength start = some (rtn, s') ∧
      Pairs mStart frameLength s s' start) ↔
      Aligned mStart frameLength s.mLeftQueue s.mRightQueue start := by
  constructor
  · rintro ⟨rtn, s', hpair, hpairs⟩ before l after hleft hbefore hl hdue
    rw [My12doomRenderer.pair, hleft, findMatch_append after hl hbefore] at hpair
    simp only [if_neg (not_lt_of_ge hdue)] at hpair
    obtain ⟨⟨dropped, x, left⟩, hdropl, hpair⟩ := Option.bind_eq_some_iff.mp hpair
    obtain ⟨⟨dropped', y, right⟩, hdropr, he⟩ := Option.map_eq_some_iff.mp hpair
    cases he
    obtain ⟨hsplit, hall, -⟩ := of_dropUnmatched hdropl
    obtain ⟨hsplit', hall', -⟩ := of_dropUnmatched hdropr
    rcases hpairs with hsame | ⟨-, d, x', q, d', y', q', -, -, hclose, hs'⟩
    · -- a queue that has lost a sample is not the same
      have hlen := congrArg (fun u => u.mLeftQueue.length) hsame
      simp only [hleft, hsplit, List.length_append, List.length_cons] at hlen
      omega
    · obtain ⟨rfl, rfl⟩ : x = x' ∧ y = y' := by
        have hleftx := congrArg My12doomRenderer.mSample2render1 hs'
        have hrighty := congrArg My12doomRenderer.mSample2render2 hs'
        exact ⟨Option.some.inj hleftx, Option.some.inj hrighty⟩
      have hself := not_unmatched32_self hclose (mStart l)
      have hy : y ∈ s.mRightQueue := by
        rw [hsplit']
        exact List.mem_append_right _ (List.mem_cons_self ..)
      rcases split_eq hsplit.symm hall hself with hx | ⟨rfl, rfl, rfl⟩
      · exact absurd (matches32_of_close hclose) (hbefore x hx y hy)
      · exact ⟨hall, dropped', y, right, hsplit', hclose, hall'⟩
  · intro haligned
    rcases exists_first_match mStart frameLength s.mRightQueue s.mLeftQueue with
      hnone | ⟨before, l, after, hleft, hbefore, hl⟩
    · exact ⟨false, s, by rw [My12doomRenderer.pair, findMatch_eq_none hnone], .inl rfl⟩
    · by_cases hdue : mStart l ≤ start
      · obtain ⟨hdrop, before', r, after', hright, hclose, hdrop'⟩ :=
          haligned before l after hleft hbefore hl hdue
        have hr : r ∈ s.mRightQueue := by
          rw [hright]
          exact List.mem_append_right _ (List.mem_cons_self ..)
        refine ⟨true, _, ?_, .inr ⟨⟨before, l, after, hleft, ?_, ⟨r, hr, hclose⟩, hdue⟩, before, l,
          after, before', r, after', hleft, hright, hclose, rfl⟩⟩
        · rw [My12doomRenderer.pair, hleft, findMatch_append after hl hbefore]
          simp only [if_neg (not_lt_of_ge hdue)]
          rw [dropUnmatched_append (not_unmatched32_self hclose _) after hdrop, Option.bind_some,
            hright, dropUnmatched_append (not_unmatched32_of_close hclose) after' hdrop']
          rfl
        · intro a ha b hb hab
          exact hbefore a ha b hb (matches32_of_close hab)
      · refine ⟨false, s, ?_, .inl rfl⟩
        rw [My12doomRenderer.pair, hleft, findMatch_append after hl hbefore]
        exact if_pos (lt_of_not_ge hdue)

/-- Start times of `0` and of `2 ^ 32`, seven minutes later, are taken for a pair; and a left
sample at `0`, half a frame in front of the matched one at `10`, is handed over with a right
one at `12`. -/
theorem pairs_far_frames :
    (My12doomRenderer.pair id 208541 ⟨[0], [4294967296], none, none, []⟩ 0 =
      some (true, ⟨[], [], some 0, some 4294967296, []⟩) ∧
      ¬Close 208541 0 4294967296) ∧
    My12doomRenderer.pair id 20 ⟨[0, 10], [12], none, none, []⟩ 10 =
      some (true, ⟨[10], [], some 0, some 12, []⟩) ∧ ¬Close 20 0 12 := by
  refine ⟨⟨by decide, ?_⟩, by decide, ?_⟩
  · rw [Close]
    decide
  · rw [Close]
    decide

end DWindow.Renderer
