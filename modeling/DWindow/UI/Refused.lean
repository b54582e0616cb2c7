import DWindow.UI.Cycles

/-!
# Anchors that are refused

`SetPoint` returns false when the target is the frame itself or a child of it, when there is
no target, and when the new edge would close a loop.  In the last case it takes the new edge
back, which was not there before (`Dag.addLayoutChild_removeLayoutChild`), but not before it
has taken out the edge of the old anchor of the point, and that one it does not put back.
`refused_changes_nothing_iff` says which calls leave everything as it was.
-/

namespace DWindow.UI.Layout

open Function Links Relation Runs

variable {Point Offset : Type*}

section Returns

variable [DecidableEq Point]

/-- The second half of `SetPoint`, with the value it returns. -/
def anchorToReturns (s : Layout Point Offset) (op : SetPoint Point Offset)
    (a : Anchor Point Offset) : Option (Layout Point Offset × Bool) :=
  (s.linkTo op a).bind fun got => (notify op got).map fun s => (s, got.2)

variable [BEq Offset] [Zero Offset]

/-- `SetPoint`, with the value it returns. -/
def setPointReturns (s : Layout Point Offset) (op : SetPoint Point Offset) :
    Option (Layout Point Offset × Bool) :=
  match op.target with
  | none => some (s, false)
  | some frame =>
    if op.self = frame ∨ op.parent frame = some op.self then some (s, false)
    else
      match s.anchors op.self op.point with
      | none => s.anchorToReturns op (op.asked frame)
      | some t =>
        if t.same (op.asked frame) then some (s, true)
        else (s.removeLayoutChild t.frame op.self).anchorToReturns op (op.asked frame)

omit [DecidableEq Point] [BEq Offset] [Zero Offset] in
/-- If the call comes to look for a loop and the point has an anchor with its edge, then no
edges lead from the frame to the new target. -/
def Restores (s : Layout Point Offset) (op : SetPoint Point Offset) : Prop :=
  ∀ frame ∈ op.target, ¬(op.self = frame ∨ op.parent frame = some op.self) →
    ∀ t ∈ s.anchors op.self op.point, op.self ∈ s.layoutChilds t.frame →
      ¬ReflTransGen s.Edge op.self frame

omit [BEq Offset] [Zero Offset] in
theorem map_anchorToReturns (s : Layout Point Offset) (op : SetPoint Point Offset)
    (a : Anchor Point Offset) : (s.anchorToReturns op a).map Prod.fst = s.anchorTo op a := by
  rw [anchorToReturns, anchorTo_eq, Option.map_bind]
  congr 1
  funext got
  simp [Function.comp_def]

theorem map_setPointReturns (s : Layout Point Offset) (op : SetPoint Point Offset) :
    (s.setPointReturns op).map Prod.fst = s.setPoint op := by
  rw [setPointReturns, setPoint]
  cases op.target with
  | none => rfl
  | some frame =>
    dsimp only
    split
    · rfl
    · cases s.anchors op.self op.point with
      | none => apply map_anchorToReturns
      | some t =>
        dsimp only
        split
        · rfl
        · apply map_anchorToReturns

end Returns

variable {s s' : Layout Point Offset} {op : SetPoint Point Offset} {frame : Nat}

/-! ## The edges that are put in and taken out -/

/-- **The undo is right about the new edge**: it was not there if there is a way back. -/
theorem Dag.addLayoutChild_removeLayoutChild (h : s.Dag) {self : Nat}
    (hway : ReflTransGen s.Edge self frame) :
    (s.addLayoutChild frame self).removeLayoutChild frame self = s := by
  have hchilds : self ∉ s.layoutChilds frame := fun hedge => h.acyclic frame (.head' hedge hway)
  have hparents : frame ∉ s.layoutParents self := by
    rwa [h.mem_parents, ← h.mem_childs]
  have hadded : s.addLayoutChild frame self =
      { s with
        layoutParents := update s.layoutParents self (s.layoutParents self ++ [frame])
        layoutChilds := update s.layoutChilds frame (s.layoutChilds frame ++ [self]) } :=
    if_neg hparents
  rw [hadded, removeLayoutChild, if_pos (by simp)]
  simp [List.erase_append_right, hchilds, hparents]

/-- Taking out an edge that is not there changes nothing, and only that. -/
theorem Dag.removeLayoutChild_eq_iff (h : s.Dag) (self frame : Nat) :
    s.removeLayoutChild self frame = s ↔ frame ∉ s.layoutChilds self := by
  constructor
  · intro heq hedge
    have hlinked := h.toLinked.removeLayoutChild self frame
    rw [heq] at hlinked
    exact ((hlinked.mem_childs self frame).mp hedge).2 ⟨rfl, rfl⟩
  · intro hedge
    apply if_neg
    rwa [h.mem_parents, ← h.mem_childs]

theorem Dag.dropped_eq_iff (h : s.Dag) (op : SetPoint Point Offset) :
    s.dropped op = s ↔
      ∀ t ∈ s.anchors op.self op.point, op.self ∉ s.layoutChilds t.frame := by
  rw [Layout.dropped]
  cases s.anchors op.self op.point with
  | none => simp
  | some t => simp [h.removeLayoutChild_eq_iff]

/-! ## One call -/

section Call

variable [DecidableEq Point]

theorem frame_of_same [BEq Offset] {t a : Anchor Point Offset} (h : t.same a = true) :
    t.frame = a.frame := by
  rw [Anchor.same, decide_eq_true_eq] at h
  exact h.1

/-- **The second half of `SetPoint`** returns false exactly when there is a way back to the
target, and has changed nothing then. -/
theorem Dag.anchorToReturns_cases (h : s.Dag) (op : SetPoint Point Offset)
    (a : Anchor Point Offset) (hself : op.self < s.count) (hframe : a.frame < s.count) :
    ReflTransGen s.Edge op.self a.frame ∧ s.anchorToReturns op a = some (s, false) ∨
      ¬ReflTransGen s.Edge op.self a.frame ∧ ∃ s', s.anchorToReturns op a = some (s', true) := by
  obtain ⟨hcount, -⟩ := count_addLayoutChild (s := s) a.frame op.self
  have hadded := h.toLinked.addLayoutChild a.frame op.self
  obtain ⟨loop, hloop, hiff⟩ := h.search hself a.frame (Nat.lt_succ_self _)
  rw [acyclic_congr hadded.edge_iff, acyclic_insert_iff h.acyclic, not_not] at hiff
  obtain ⟨s', sent, hlink, hdag, -, -⟩ := h.linkTo_cases hself hframe
  rw [anchorToReturns, hlink, Option.bind_some]
  rw [linkTo, hcount, hloop, Option.map_some] at hlink
  cases loop with
  | true =>
    have hway := hiff.mp rfl
    rw [if_pos rfl, h.addLayoutChild_removeLayoutChild hway] at hlink
    cases hlink
    exact Or.inl ⟨hway, rfl⟩
  | false =>
    rw [if_neg Bool.false_ne_true] at hlink
    cases hlink
    refine Or.inr ⟨fun hway => Bool.false_ne_true (hiff.mpr hway), ?_⟩
    obtain ⟨got, hgot⟩ := Option.isSome_iff_exists.mp (hdag.ends op.self (Nat.lt_succ_self _))
    rw [notify, if_pos rfl, hgot]
    exact ⟨_, rfl⟩

variable [BEq Offset] [Zero Offset]

theorem setPointReturns_of_start (htarget : op.target = some frame)
    (hstart : op.self = frame ∨ op.parent frame = some op.self) :
    s.setPointReturns op = some (s, false) := by
  rw [setPointReturns, htarget]
  exact if_pos hstart

theorem setPointReturns_of_same (htarget : op.target = some frame)
    (hstart : ¬(op.self = frame ∨ op.parent frame = some op.self)) {t : Anchor Point Offset}
    (ht : t ∈ s.anchors op.self op.point) (hsame : t.same (op.asked frame) = true) :
    s.setPointReturns op = some (s, true) := by
  rw [Option.mem_def] at ht
  simp [setPointReturns, htarget, hstart, ht, hsame]

theorem setPointReturns_of_new (htarget : op.target = some frame)
    (hstart : ¬(op.self = frame ∨ op.parent frame = some op.self))
    (hnew : ∀ t ∈ s.anchors op.self op.point, t.same (op.asked frame) = false) :
    s.setPointReturns op = (s.dropped op).anchorToReturns op (op.asked frame) := by
  rw [setPointReturns, htarget, Layout.dropped]
  simp only [if_neg hstart]
  cases ht : s.anchors op.self op.point with
  | none => rfl
  | some t => simp [hnew t ht]

/-- **A call** that comes to look for a loop returns false exactly when it finds one, with the
edge of the old anchor taken out. -/
theorem Dag.setPointReturns_of_new (h : s.Dag) (hknown : s.Known op)
    (htarget : op.target = some frame)
    (hstart : ¬(op.self = frame ∨ op.parent frame = some op.self))
    (hnew : ∀ t ∈ s.anchors op.self op.point, t.same (op.asked frame) = false) :
    ReflTransGen s.Edge op.self frame ∧ s.setPointReturns op = some (s.dropped op, false) ∨
      ¬ReflTransGen s.Edge op.self frame ∧ ∃ s', s.setPointReturns op = some (s', true) := by
  have hcount := count_dropped s op
  rw [Layout.setPointReturns_of_new htarget hstart hnew, ← h.way_dropped_iff]
  apply (h.dropped op).anchorToReturns_cases op (op.asked frame)
  · rw [hcount]
    exact hknown.1
  · rw [hcount]
    exact hknown.2 frame htarget

/-- **What a call leaves as it was**, on a layout without cycles. -/
theorem Dag.refused_iff (h : s.Dag) (hknown : s.Known op) :
    (∀ s', s.setPointReturns op = some (s', false) → s' = s) ↔ s.Restores op := by
  cases htarget : op.target with
  | none =>
    apply iff_of_true
    · intro s' hs'
      rw [setPointReturns, htarget] at hs'
      cases hs'
      rfl
    · intro frame hframe
      rw [htarget] at hframe
      cases hframe
  | some frame =>
    have hrestores : s.Restores op ↔ (¬(op.self = frame ∨ op.parent frame = some op.self) →
        ∀ t ∈ s.anchors op.self op.point, op.self ∈ s.layoutChilds t.frame →
          ¬ReflTransGen s.Edge op.self frame) := by
      simp [Restores, htarget]
    rw [hrestores]
    by_cases hstart : op.self = frame ∨ op.parent frame = some op.self
    · rw [setPointReturns_of_start htarget hstart]
      apply iff_of_true
      · intro s' hs'
        cases hs'
        rfl
      · intro hnot
        exact absurd hstart hnot
    by_cases hsame : ∃ t ∈ s.anchors op.self op.point, t.same (op.asked frame) = true
    · obtain ⟨t, ht, hsame⟩ := hsame
      rw [setPointReturns_of_same htarget hstart ht hsame]
      apply iff_of_true
      · intro s' hs'
        cases hs'
      · -- The anchor that is there already leads to the target, so no way leads back.
        intro _ u hu hedge hway
        rw [Option.mem_unique hu ht, frame_of_same hsame] at hedge
        exact h.acyclic frame (.head' hedge hway)
    · have hnew : ∀ t ∈ s.anchors op.self op.point, t.same (op.asked frame) = false := by
        intro t ht
        rw [Bool.eq_false_iff]
        intro hts
        exact hsame ⟨t, ht, hts⟩
      obtain ⟨hway, hreturns⟩ | ⟨hfree, s', hreturns⟩ :=
        h.setPointReturns_of_new hknown htarget hstart hnew
      · rw [hreturns]
        constructor
        · intro hkept _ t ht hedge
          exact absurd hedge ((h.dropped_eq_iff op).mp (hkept _ rfl) t ht)
        · intro hrest s' hs'
          cases hs'
          apply (h.dropped_eq_iff op).mpr
          intro t ht hedge
          exact hrest hstart t ht hedge hway
      · rw [hreturns]
        apply iff_of_true
        · intro s'' hs''
          cases hs''
        · intro _ _ _ _
          exact hfree

/-- **A refused anchor changes nothing** exactly if the call meets the condition, in every
layout that calls of `SetPoint` lead to. -/
theorem refused_changes_nothing_iff (count : Nat) (ops : List (SetPoint Point Offset)) :
    ∃ s ∈ run step (some (init count)) ops, ∀ op, s.Known op →
      ((∀ s', s.setPointReturns op = some (s', false) → s' = s) ↔ s.Restores op) := by
  obtain ⟨s, hs, hdag⟩ := run_dag count ops
  exact ⟨s, hs, fun op hknown => hdag.refused_iff hknown⟩

/-- Frame 1 is anchored to frame 0 and frame 2 to frame 1.  Anchoring the point of frame 1 to
frame 2 is refused, and the edge from frame 0 is gone. -/
theorem refused_edge_lost :
    ∃ s ∈ run step (some (init 3 : Layout Nat Int))
        [⟨1, 5, some 0, none, none, none, fun _ => none⟩,
          ⟨2, 5, some 1, none, none, none, fun _ => none⟩],
      ∃ s', s.setPointReturns ⟨1, 5, some 2, none, none, none, fun _ => none⟩ =
          some (s', false) ∧
        s.layoutChilds 0 = [1] ∧ s'.layoutChilds 0 = [] ∧
        s.layoutParents 1 = [0] ∧ s'.layoutParents 1 = [] := by
  refine ⟨_, rfl, _, rfl, ?_⟩
  decide

end Call

end DWindow.UI.Layout
