import DWindow.Cache.InetFile

/-!
# What `pre_read` asks for

`inet_file::pre_read` cuts the range it is given by one disk fragment after another, each
time every piece that is left, and hands what remains to the workers.
-/

namespace DWindow.Cache

/-- The pieces of a range that some others leave of it: none is empty, each ends before the
next one begins, and together they are the range without the others. -/
structure Missing (pos : Fragment) (others pieces : List Fragment) : Prop where
  nonEmpty : ∀ o ∈ pieces, o.start < o.stop
  ordered : pieces.Pairwise (fun o o' => o.stop ≤ o'.start)
  covers : ∀ k, (∃ o ∈ pieces, k ∈ o) ↔ k ∈ pos ∧ ∀ f ∈ others, k ∉ f

/-- A range that does not meet `frag` leaves it whole, or in two if it is empty. -/
theorem left_of_not_meets {frag sub : Fragment} (h : frag.start < frag.stop)
    (hm : ¬ frag.Meets sub) :
    (subtractFragment frag sub).left = [frag] ∨ ∃ m, frag.start < m ∧ m < frag.stop ∧
      (subtractFragment frag sub).left = [⟨frag.start, m⟩, ⟨m, frag.stop⟩] := by
  obtain ⟨a, b⟩ := frag
  obtain ⟨c, d⟩ := sub
  rw [Fragment.meets_iff] at hm
  dsimp only at h hm
  have hcross : crossFragment ⟨a, b⟩ ⟨c, d⟩ = ⟨max a c, max a c⟩ := by
    simp only [crossFragment, Fragment.mk.injEq, true_and]
    omega
  have hcut (m : Int) (hma : a ≤ m) (hc : max a c = m) : subtractFragment ⟨a, b⟩ ⟨c, d⟩ =
      if min m b = a then ⟨1, ⟨a, b⟩, ⟨a, b⟩⟩
      else if min m b = b then ⟨1, ⟨a, b⟩, ⟨b, b⟩⟩
      else ⟨2, ⟨a, m⟩, ⟨m, b⟩⟩ := by
    simp only [subtractFragment, hcross, hc, max_eq_left hma,
      show max a (min m b) = min m b by omega]
    split
    · next hfirst =>
      have hmin : min m b = a := hfirst.symm
      simp [hmin, h.ne]
    · next hfirst =>
      have hmin : min m b ≠ a := fun heq => hfirst heq.symm
      by_cases hlast : min m b = b
      · simp [hlast, h.ne']
      · have hm' : min m b = m := by omega
        rw [hm'] at hlast hmin ⊢
        simp [hlast, hmin, Ne.symm hmin]
  obtain ⟨m, hc⟩ : ∃ m, max a c = m := ⟨_, rfl⟩
  have hma : a ≤ m := by omega
  rw [hcut m hma hc]
  split
  · exact .inl rfl
  · split
    · exact .inl rfl
    · exact .inr ⟨m, show a < m by omega, show m < b by omega, rfl⟩

/-- **One cut**, by a range that may lie anywhere and may be empty. -/
theorem missing_subtractFragment {frag : Fragment} (h : frag.start < frag.stop) (sub : Fragment) :
    Missing frag [sub] (subtractFragment frag sub).left := by
  by_cases hm : frag.Meets sub
  · obtain ⟨hne, hord, hcov⟩ := left_of_meets hm
    exact ⟨hne, hord, by simpa using hcov⟩
  · have hsub {k : Int} (hk : k ∈ frag) : k ∉ sub :=
      fun hs => hm (Fragment.meets_iff_exists.mpr ⟨k, hk, hs⟩)
    rcases left_of_not_meets h hm with hleft | ⟨m, ham, hmb, hleft⟩
    · rw [hleft]
      refine ⟨by simpa using h, by simp, fun k => ?_⟩
      simpa using fun hk => hsub hk
    · rw [hleft]
      refine ⟨by simp [ham, hmb], by simp, fun k => ?_⟩
      simp only [List.mem_cons, List.not_mem_nil, or_false, exists_eq_or_imp, exists_eq_left,
        forall_eq]
      constructor
      · intro hk
        have hin : k ∈ frag := by
          simp only [Fragment.mem_def] at hk ⊢
          omega
        exact ⟨hin, hsub hin⟩
      · rintro ⟨hk, -⟩
        simp only [Fragment.mem_def] at hk ⊢
        omega

theorem Missing.within {pos : Fragment} {others pieces : List Fragment}
    (h : Missing pos others pieces) {o : Fragment} (ho : o ∈ pieces) :
    pos.start ≤ o.start ∧ o.stop ≤ pos.stop := by
  have hne := h.nonEmpty o ho
  have hfirst := ((h.covers o.start).mp ⟨o, ho, by rw [Fragment.mem_def]; omega⟩).1
  have hlast := ((h.covers (o.stop - 1)).mp ⟨o, ho, by rw [Fragment.mem_def]; omega⟩).1
  rw [Fragment.mem_def] at hfirst hlast
  omega

/-- **One turn of the outer loop**: every piece is cut by the next range. -/
theorem Missing.cut {pos : Fragment} {others pieces : List Fragment}
    (h : Missing pos others pieces) (f : Fragment) :
    Missing pos (others ++ [f])
      (pieces.flatMap fun piece => (subtractFragment piece f).left) := by
  have hcut (o : Fragment) (ho : o ∈ pieces) := missing_subtractFragment (h.nonEmpty o ho) f
  refine ⟨fun o ho => ?_, ?_, fun k => ?_⟩
  · obtain ⟨piece, hpiece, ho⟩ := List.mem_flatMap.mp ho
    exact (hcut piece hpiece).nonEmpty o ho
  · rw [List.pairwise_flatMap]
    refine ⟨fun piece hpiece => (hcut piece hpiece).ordered, ?_⟩
    refine h.ordered.imp_of_mem fun {a b} ha hb hab x hx y hy => ?_
    have := (hcut a ha).within hx
    have := (hcut b hb).within hy
    omega
  · constructor
    · rintro ⟨o, ho, hk⟩
      obtain ⟨piece, hpiece, ho⟩ := List.mem_flatMap.mp ho
      obtain ⟨hin, hout⟩ := ((hcut piece hpiece).covers k).mp ⟨o, ho, hk⟩
      obtain ⟨hpos, hothers⟩ := (h.covers k).mp ⟨piece, hpiece, hin⟩
      refine ⟨hpos, fun g hg => ?_⟩
      rcases List.mem_append.mp hg with hg | hg
      · exact hothers g hg
      · exact hout g hg
    · rintro ⟨hpos, hothers⟩
      obtain ⟨piece, hpiece, hin⟩ :=
        (h.covers k).mpr ⟨hpos, fun g hg => hothers g (List.mem_append_left _ hg)⟩
      obtain ⟨o, ho, hk⟩ := ((hcut piece hpiece).covers k).mpr
        ⟨hin, fun g hg => hothers g (List.mem_append_right _ hg)⟩
      exact ⟨o, List.mem_flatMap.mpr ⟨piece, hpiece, ho⟩, hk⟩

namespace InetFile

/-- The ranges that `inet_file::pre_read` passes to `inet_worker_manager::hint`. -/
def preRead (s : InetFile) (pos : Fragment) : List Fragment :=
  s.mFragments.foldl
    (fun fragmentList f => fragmentList.flatMap fun piece => (f.remaining piece).left) [pos]

/-- **`pre_read` asks for exactly what is missing**, whatever the fragments are and however
they overlap. -/
theorem preRead_missing (s : InetFile) {pos : Fragment} (h : pos.start < pos.stop) :
    Missing pos (s.mFragments.map DiskFragment.me) (s.preRead pos) := by
  have hloop (fs : List DiskFragment) : ∀ (others pieces : List Fragment),
      Missing pos others pieces → Missing pos (others ++ fs.map DiskFragment.me)
        (fs.foldl (fun fragmentList f =>
          fragmentList.flatMap fun piece => (f.remaining piece).left) pieces) := by
    induction fs with
    | nil => simp
    | cons f fs ih =>
      intro others pieces hpieces
      have := ih _ _ (hpieces.cut f.me)
      rwa [List.append_assoc] at this
  have hstart : Missing pos [] [pos] :=
    ⟨by simpa using h, by simp, by simp⟩
  exact hloop s.mFragments [] [pos] hstart

/-- Two fragments that overlap, and one over the beginning of the range. -/
theorem preRead_missing_three : Missing ⟨0, 100⟩ [⟨-5, 10⟩, ⟨40, 60⟩, ⟨50, 70⟩]
    [⟨10, 40⟩, ⟨70, 100⟩] :=
  @preRead_missing ⟨[⟨-5, 10, .empty⟩, ⟨40, 60, .empty⟩, ⟨50, 70, .empty⟩], [], .empty, [], 0, 0⟩
    ⟨0, 100⟩ (by decide)

end InetFile

end DWindow.Cache
