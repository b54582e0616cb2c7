import DWindow.UI.Layout

/-!
# No cycle of layout edges

`SetPoint` adds the edge to the new target first, looks for a loop with a search that remembers
nothing, and takes the edge back when it has found one.  Whatever else happens to the anchors,
the edges never form a cycle (`never_a_cycle`): the search finds one exactly when the new edge
has closed it, and ends in any case, since every way that does not come back to the frame does.
What a frame does on an event is its own handler.  `SetPoint` returns when the handlers that it
calls do, which is taken for granted here; `OnLayoutChange` of a plain frame is `CalculateAbsRect`,
and `RectEnds` says when that returns.
-/

namespace DWindow.UI.Layout

open Function Links Relation Runs

variable {Point Offset : Type*}

/-- `S` is in `F.layout_childs`. -/
def Edge (s : Layout Point Offset) (F S : Nat) : Prop := S ∈ s.layoutChilds F

/-- The layout without the edge of the old anchor of the point. -/
def dropped (s : Layout Point Offset) (op : SetPoint Point Offset) : Layout Point Offset :=
  match s.anchors op.self op.point with
  | none => s
  | some t => s.removeLayoutChild t.frame op.self

/-- The layout that `SetPoint` looks for a loop in. -/
def searched (s : Layout Point Offset) (op : SetPoint Point Offset) (frame : Nat) :
    Layout Point Offset :=
  (s.dropped op).addLayoutChild frame op.self

/-- **The edges are without a cycle**, an event goes to finitely many frames, and ends with any
handlers that do, and the search of any call of `SetPoint` ends and finds a loop exactly when
the edge just added has closed one. -/
structure LoopFree (s : Layout Point Offset) : Prop where
  acyclic : Acyclic s.Edge
  ends : ∀ frame depth, s.count < depth → (s.broadcastLayoutEvent depth frame).isSome
  handled : ∀ {σ : Type} (handler : σ → Nat → Option σ), (∀ t F, (handler t F).isSome) →
    ∀ t frame depth, s.count < depth →
      (broadcastTo handler s.layoutChilds depth t frame).isSome
  search : ∀ op : SetPoint Point Offset, s.Known op → ∀ frame ∈ op.target,
    ∀ depth, s.count < depth → Acyclic (s.dropped op).Edge ∧
      ∃ loop, (s.searched op frame).hasLoopReference op.self depth op.self = some loop ∧
        (loop = true ↔ ¬Acyclic (s.searched op frame).Edge)

/-- What the calls keep: both lists hold the same edges between frames that are there, and
these form no cycle. -/
structure Dag (s : Layout Point Offset) : Prop extends s.Linked s.Edge where
  acyclic : Acyclic s.Edge
  bounded : ∀ F S, s.Edge F S → F < s.count ∧ S < s.count

variable {s s' : Layout Point Offset} {E : Nat → Nat → Prop} {op : SetPoint Point Offset}
  {frame : Nat}

theorem Linked.edge_iff (h : s.Linked E) (F S : Nat) : s.Edge F S ↔ E F S := h.mem_childs F S

theorem Linked.dag (h : s.Linked E) (hacyclic : Acyclic E)
    (hbounded : ∀ F S, E F S → F < s.count ∧ S < s.count) : s.Dag where
  toLinked := h.congr fun F S => (h.edge_iff F S).symm
  acyclic := (acyclic_congr h.edge_iff).mpr hacyclic
  bounded F S hFS := hbounded F S ((h.edge_iff F S).mp hFS)

theorem init_dag (count : Nat) : (init count : Layout Point Offset).Dag := by
  have hnone : ∀ F S, ¬(init count : Layout Point Offset).Edge F S :=
    fun F S => List.not_mem_nil
  exact
    { mem_childs := fun F S => Iff.rfl
      mem_parents := fun F S => iff_of_false List.not_mem_nil (hnone F S)
      nodup_childs := fun _ => List.nodup_nil
      nodup_parents := fun _ => List.nodup_nil
      acyclic := fun a ha => by
        obtain ⟨b, hab, -⟩ := TransGen.head'_iff.mp ha
        exact hnone a b hab
      bounded := fun F S hFS => absurd hFS (hnone F S) }

theorem count_dropped (s : Layout Point Offset) (op : SetPoint Point Offset) :
    (s.dropped op).count = s.count := by
  rw [dropped]
  split
  · rfl
  · exact (count_removeLayoutChild _ _).1

theorem Dag.dropped (h : s.Dag) (op : SetPoint Point Offset) : (s.dropped op).Dag := by
  rw [Layout.dropped]
  split
  · exact h
  · next t _ =>
    refine (h.toLinked.removeLayoutChild t.frame op.self).dag (h.acyclic.mono fun F S => And.left)
      fun F S hFS => ?_
    rw [(count_removeLayoutChild _ _).1]
    exact h.bounded F S hFS.1

/-- **The search**, on the layout that a call leaves it. -/
theorem Dag.search (h : s.Dag) (hself : op.self < s.count) (frame : Nat) {depth : Nat}
    (hdepth : s.count < depth) :
    ∃ loop, (s.addLayoutChild frame op.self).hasLoopReference op.self depth op.self = some loop ∧
      (loop = true ↔ ¬Acyclic (s.addLayoutChild frame op.self).Edge) := by
  have hadded := h.toLinked.addLayoutChild frame op.self
  have hn : ∀ F S, Links.insert s.Edge frame op.self F S → S < s.count :=
    fun F S hFS => hFS.elim (fun hFS => (h.bounded F S hFS).2) fun hS => hS.2 ▸ hself
  -- every cycle goes through the new edge, so ways around the frame end
  have hother : Acyclic fun F S => Links.insert s.Edge frame op.self F S ∧ S ≠ op.self :=
    h.acyclic.mono fun F S hFS => hFS.1.elim id fun hS => absurd hS.2 hFS.2
  obtain ⟨loop, hloop, hiff⟩ := hadded.hasLoopReference_eq hother hn hdepth op.self
  refine ⟨loop, hloop, ?_⟩
  rw [hiff, transGen_insert_self_iff h.acyclic, acyclic_congr hadded.edge_iff,
    acyclic_insert_iff h.acyclic, not_not]

theorem Dag.ends (h : s.Dag) (frame : Nat) {depth : Nat} (hdepth : s.count < depth) :
    (s.broadcastLayoutEvent depth frame).isSome :=
  broadcast_ends (n := s.count) (acyclic_swap.mpr h.acyclic) (fun F S hS => (h.bounded F S hS).2)
    hdepth frame

theorem Dag.handled (h : s.Dag) {σ : Type} {handler : σ → Nat → Option σ}
    (hends : ∀ t F, (handler t F).isSome) (t : σ) (frame : Nat) {depth : Nat}
    (hdepth : s.count < depth) :
    (broadcastTo handler s.layoutChilds depth t frame).isSome :=
  broadcastTo_ends (n := s.count) hends (acyclic_swap.mpr h.acyclic)
    (fun F S hS => (h.bounded F S hS).2) hdepth t frame

theorem Dag.loopFree (h : s.Dag) : s.LoopFree where
  acyclic := h.acyclic
  ends frame _ hdepth := h.ends frame hdepth
  handled handler hends t frame _ hdepth := h.handled hends t frame hdepth
  search op hknown frame _ depth hdepth := by
    have hcount := count_dropped s op
    exact ⟨(h.dropped op).acyclic,
      (h.dropped op).search (by rw [hcount]; exact hknown.1) frame (by rw [hcount]; exact hdepth)⟩

section Step

variable [DecidableEq Point]

/-- **The second half of `SetPoint`** adds an edge that closes no cycle, or none. -/
theorem Dag.anchorTo (h : s.Dag) {a : Anchor Point Offset} (hself : op.self < s.count)
    (hframe : a.frame < s.count) : ∃ s', s.anchorTo op a = some s' ∧ s'.Dag := by
  obtain ⟨s', hs', hcount, hcases⟩ := anchorTo_cases (a := a) h.toLinked h.acyclic
    (fun F S hFS => (h.bounded F S hFS).2) hself
  refine ⟨s', hs', ?_⟩
  obtain ⟨hfree, hlinked, -⟩ | ⟨-, -, hlinked⟩ := hcases
  · refine hlinked.dag ((acyclic_insert_iff h.acyclic).mpr hfree) fun F S hFS => ?_
    rw [hcount]
    obtain hFS | ⟨rfl, rfl⟩ := hFS
    · exact h.bounded F S hFS
    · exact ⟨hframe, hself⟩
  · refine hlinked.dag (h.acyclic.mono fun F S => And.left) fun F S hFS => ?_
    rw [hcount]
    exact h.bounded F S hFS.1

variable [BEq Offset] [Zero Offset]

theorem Dag.setPoint (h : s.Dag) (hknown : s.Known op) :
    ∃ s', s.setPoint op = some s' ∧ s'.Dag := by
  rw [Layout.setPoint]
  cases htarget : op.target with
  | none => exact ⟨s, rfl, h⟩
  | some frame =>
    have hframe := hknown.2 frame htarget
    dsimp only
    split
    · exact ⟨s, rfl, h⟩
    · have hdropped := h.dropped op
      have hcount := count_dropped s op
      rw [Layout.dropped] at hdropped hcount
      cases hanchor : s.anchors op.self op.point with
      | none => exact h.anchorTo hknown.1 hframe
      | some t =>
        rw [hanchor] at hdropped hcount
        dsimp only at hdropped hcount ⊢
        split
        · exact ⟨s, rfl, h⟩
        · exact hdropped.anchorTo (by rw [hcount]; exact hknown.1) (by rw [hcount]; exact hframe)

/-- **Every run** of calls returns, and leaves edges without a cycle. -/
theorem run_dag (count : Nat) (ops : List (SetPoint Point Offset)) :
    ∃ s ∈ run step (some (init count)) ops, s.Dag := by
  refine run_invariant (fun o : Option (Layout Point Offset) => ∃ s ∈ o, s.Dag) ?_
    ops (some (init count)) ⟨init count, rfl, init_dag count⟩
  rintro o op ⟨s, rfl, hs⟩
  rw [step, Option.bind_some]
  split
  · next hknown => exact hs.setPoint hknown
  · exact ⟨s, rfl, hs⟩

/-- **No cycle, ever**: after any calls of `SetPoint`, all of which return if the handlers of the
frames do. -/
theorem never_a_cycle (count : Nat) (ops : List (SetPoint Point Offset)) (k : Nat) :
    ∃ s ∈ run step (some (init count)) (ops.take k), s.LoopFree := by
  obtain ⟨s, hs, hdag⟩ := run_dag count (ops.take k)
  exact ⟨s, hs, hdag.loopFree⟩

end Step

/-! ## More calls -/

/-- `Create`: one more frame, without anchors and edges. -/
def create (s : Layout Point Offset) : Layout Point Offset where
  count := s.count + 1
  anchors := update s.anchors s.count fun _ => none
  layoutChilds := update s.layoutChilds s.count []
  layoutParents := update s.layoutParents s.count []

theorem Dag.edge_create (h : s.Dag) (F S : Nat) : s.create.Edge F S ↔ s.Edge F S := by
  rw [Edge, create]
  dsimp only
  by_cases hF : F = s.count
  · rw [hF, update_self]
    refine iff_of_false List.not_mem_nil fun hFS => ?_
    exact absurd (h.bounded s.count S hFS).1 (lt_irrefl _)
  · rw [update_of_ne hF]
    exact Iff.rfl

theorem Dag.create (h : s.Dag) : s.create.Dag where
  mem_childs F S := Iff.rfl
  mem_parents F S := by
    rw [h.edge_create, Layout.create]
    dsimp only
    by_cases hS : S = s.count
    · rw [hS, update_self]
      refine iff_of_false List.not_mem_nil fun hFS => ?_
      exact absurd (h.bounded F s.count hFS).2 (lt_irrefl _)
    · rw [update_of_ne hS]
      exact h.mem_parents F S
  nodup_childs F := by
    rw [Layout.create]
    dsimp only
    by_cases hF : F = s.count
    · rw [hF, update_self]
      exact List.nodup_nil
    · rw [update_of_ne hF]
      exact h.nodup_childs F
  nodup_parents S := by
    rw [Layout.create]
    dsimp only
    by_cases hS : S = s.count
    · rw [hS, update_self]
      exact List.nodup_nil
    · rw [update_of_ne hS]
      exact h.nodup_parents S
  acyclic := (acyclic_congr h.edge_create).mpr h.acyclic
  bounded F S hFS := by
    obtain ⟨hF, hS⟩ := h.bounded F S ((h.edge_create F S).mp hFS)
    exact ⟨Nat.lt_succ_of_lt hF, Nat.lt_succ_of_lt hS⟩

theorem anchored_create (s : Layout Point Offset) (F S : Nat) :
    s.create.Anchored F S ↔ S ≠ s.count ∧ s.Anchored F S := by
  rw [Anchored, create]
  dsimp only
  by_cases hS : S = s.count
  · subst hS
    rw [update_self]
    refine iff_of_false ?_ fun hFS => hFS.1 rfl
    rintro ⟨_, t, ht, -⟩
    cases ht
  · rw [update_of_ne hS]
    exact (and_iff_right hS).symm

section SetAnchor

variable [DecidableEq Point]

/-- The second half of `SetPoint` up to the event; the flag says whether there is one. -/
def linkTo (s : Layout Point Offset) (op : SetPoint Point Offset) (a : Anchor Point Offset) :
    Option (Layout Point Offset × Bool) :=
  let s := s.addLayoutChild a.frame op.self
  (s.hasLoopReference op.self (s.count + 1) op.self).map fun loop =>
    if loop then (s.removeLayoutChild a.frame op.self, false)
    else
      ({ s with
        anchors := update s.anchors op.self (update (s.anchors op.self) op.point (some a)) }, true)

variable [BEq Offset] [Zero Offset]

/-- `SetPoint` up to the event. -/
def setAnchor (s : Layout Point Offset) (op : SetPoint Point Offset) :
    Option (Layout Point Offset × Bool) :=
  match op.target with
  | none => some (s, false)
  | some frame =>
    if op.self = frame ∨ op.parent frame = some op.self then some (s, false)
    else
      match s.anchors op.self op.point with
      | none => s.linkTo op (op.asked frame)
      | some t =>
        if t.same (op.asked frame) then some (s, false)
        else (s.removeLayoutChild t.frame op.self).linkTo op (op.asked frame)

/-- What `SetPoint` does at its end. -/
def notify (op : SetPoint Point Offset) (s : Layout Point Offset × Bool) :
    Option (Layout Point Offset) :=
  if s.2 then (s.1.broadcastLayoutEvent (s.1.count + 1) op.self).map fun _ => s.1 else some s.1

omit [BEq Offset] [Zero Offset] in
theorem anchorTo_eq (s : Layout Point Offset) (op : SetPoint Point Offset)
    (a : Anchor Point Offset) : s.anchorTo op a = (s.linkTo op a).bind (notify op) := by
  rw [anchorTo, linkTo, Option.bind_map]
  congr 1
  funext loop
  cases loop <;> rfl

/-- **`SetPoint` is what comes before the event, and the event.** -/
theorem setPoint_eq (s : Layout Point Offset) (op : SetPoint Point Offset) :
    s.setPoint op = (s.setAnchor op).bind (notify op) := by
  rw [setPoint, setAnchor]
  cases op.target with
  | none => rfl
  | some frame =>
    dsimp only
    split
    · rfl
    · cases s.anchors op.self op.point with
      | none => exact anchorTo_eq ..
      | some t =>
        dsimp only
        split
        · rfl
        · exact anchorTo_eq ..

structure Moves (s : Layout Point Offset) (op : SetPoint Point Offset) (frame : Nat) : Prop where
  start : ¬(op.self = frame ∨ op.parent frame = some op.self)
  new : ∀ t ∈ s.anchors op.self op.point, t.same (op.asked frame) = false
  free : ¬ReflTransGen s.Edge op.self frame

omit [DecidableEq Point] [BEq Offset] [Zero Offset] in
theorem Dag.edge_dropped (h : s.Dag) (op : SetPoint Point Offset) (F S : Nat) :
    (s.dropped op).Edge F S ↔
      s.Edge F S ∧ ∀ t ∈ s.anchors op.self op.point, ¬(F = t.frame ∧ S = op.self) := by
  rw [Layout.dropped]
  cases s.anchors op.self op.point with
  | none =>
    refine ⟨fun hFS => ⟨hFS, fun t ht => ?_⟩, And.left⟩
    cases ht
  | some t =>
    refine ((h.toLinked.removeLayoutChild t.frame op.self).edge_iff F S).trans ?_
    refine and_congr_right fun _ => ⟨fun hFS u hu => ?_, fun hFS => hFS t rfl⟩
    cases hu
    exact hFS

omit [DecidableEq Point] [BEq Offset] [Zero Offset] in
/-- The way from the frame to a target does not use the edge that is taken out. -/
theorem Dag.way_dropped_iff (h : s.Dag) :
    ReflTransGen (s.dropped op).Edge op.self frame ↔ ReflTransGen s.Edge op.self frame := by
  constructor
  · apply ReflTransGen.mono
    intro F S hFS
    exact ((h.edge_dropped op F S).mp hFS).1
  · intro hway
    refine ReflTransGen.mono (fun F S hFS => ?_) _ _ (reflTransGen_ne h.acyclic hway)
    exact (h.edge_dropped op F S).mpr ⟨hFS.1, fun t _ ht => hFS.2 ht.2⟩

omit [DecidableEq Point] [BEq Offset] [Zero Offset] in
theorem anchors_dropped (s : Layout Point Offset) (op : SetPoint Point Offset) :
    (s.dropped op).anchors = s.anchors := by
  rw [Layout.dropped]
  split
  · rfl
  · exact (count_removeLayoutChild _ _).2

omit [BEq Offset] [Zero Offset] in
theorem Dag.linkTo_cases (h : s.Dag) {a : Anchor Point Offset} (hself : op.self < s.count)
    (hframe : a.frame < s.count) : ∃ s' sent, s.linkTo op a = some (s', sent) ∧ s'.Dag ∧
      s'.count = s.count ∧
      (sent = false ∧ s'.anchors = s.anchors ∧ (∀ F S, s'.Edge F S → s.Edge F S) ∨
      sent = true ∧ ¬ReflTransGen s.Edge op.self a.frame ∧
        s'.anchors = update s.anchors op.self (update (s.anchors op.self) op.point (some a)) ∧
        ∀ F S, s'.Edge F S ↔ Links.insert s.Edge a.frame op.self F S) := by
  obtain ⟨hcount, hanchors⟩ := count_addLayoutChild (s := s) a.frame op.self
  have hadded := h.toLinked.addLayoutChild a.frame op.self
  obtain ⟨loop, hloop, hiff⟩ := h.search hself a.frame
    (Nat.lt_succ_of_le hcount.ge)
  rw [acyclic_congr hadded.edge_iff, acyclic_insert_iff h.acyclic, not_not] at hiff
  rw [linkTo, hloop, Option.map_some]
  cases loop with
  | true =>
    obtain ⟨hcount', hanchors'⟩ :=
      count_removeLayoutChild (s := s.addLayoutChild a.frame op.self) a.frame op.self
    have hlinked := hadded.removeLayoutChild a.frame op.self
    have hedge : ∀ F S, ((s.addLayoutChild a.frame op.self).removeLayoutChild a.frame op.self).Edge
        F S → s.Edge F S := fun F S hFS =>
      ((hlinked.edge_iff F S).mp hFS).1.resolve_right ((hlinked.edge_iff F S).mp hFS).2
    refine ⟨_, _, rfl, ?_, hcount'.trans hcount, .inl ⟨rfl, hanchors'.trans hanchors, hedge⟩⟩
    refine hlinked.dag (h.acyclic.mono fun F S hFS => hFS.1.resolve_right hFS.2) fun F S hFS => ?_
    rw [hcount', hcount]
    exact h.bounded F S (hFS.1.resolve_right hFS.2)
  | false =>
    have hfree : ¬ReflTransGen s.Edge op.self a.frame := fun hback => by cases hiff.mpr hback
    have hlinked : ∀ anchors : Nat → Point → Option (Anchor Point Offset),
        Linked { s.addLayoutChild a.frame op.self with anchors }
          (Links.insert s.Edge a.frame op.self) := fun _ =>
      ⟨hadded.mem_childs, hadded.mem_parents, hadded.nodup_childs, hadded.nodup_parents⟩
    refine ⟨_, _, rfl, ?_, hcount, .inr ⟨rfl, hfree, ?_, (hlinked _).edge_iff⟩⟩
    · refine (hlinked _).dag ((acyclic_insert_iff h.acyclic).mpr hfree) fun F S hFS => ?_
      refine hFS.elim (fun hFS => ?_) fun ⟨hF, hS⟩ => ?_
      · exact hcount.symm ▸ h.bounded F S hFS
      · exact hcount.symm ▸ hF ▸ hS ▸ ⟨hframe, hself⟩
    · rw [← hanchors]

/-- What a call has done before the event: at most taken edges out, or given the point another
anchor, with its edge. -/
structure Done (s : Layout Point Offset) (op : SetPoint Point Offset)
    (got : Layout Point Offset × Bool) : Prop where
  dag : got.1.Dag
  count : got.1.count = s.count
  cases : got.2 = false ∧ got.1.anchors = s.anchors ∧ (∀ F S, got.1.Edge F S → s.Edge F S) ∨
    got.2 = true ∧ ∃ frame ∈ op.target, s.Moves op frame ∧
      got.1.anchors = update s.anchors op.self
        (update (s.anchors op.self) op.point (some (op.asked frame))) ∧
      ∀ F S, got.1.Edge F S ↔ Links.insert (s.dropped op).Edge frame op.self F S

/-- **What `SetPoint` has done before the event.** -/
theorem Dag.setAnchor (h : s.Dag) (hknown : s.Known op) :
    ∃ got, s.setAnchor op = some got ∧ s.Done op got := by
  have hunchanged : ∃ got, some (s, false) = some got ∧ s.Done op got :=
    ⟨_, rfl, h, rfl, .inl ⟨rfl, rfl, fun _ _ => id⟩⟩
  rw [Layout.setAnchor]
  cases htarget : op.target with
  | none => exact hunchanged
  | some frame =>
    dsimp only
    split
    · exact hunchanged
    · next hstart =>
      have hframe := hknown.2 frame htarget
      have hcount := count_dropped s op
      have hdone : (∀ t ∈ s.anchors op.self op.point, t.same (op.asked frame) = false) →
          ∃ got, (s.dropped op).linkTo op (op.asked frame) = some got ∧ s.Done op got := by
        intro hnew
        obtain ⟨s', sent, hs', hdag, hcount', hcases⟩ := (h.dropped op).linkTo_cases
          (a := op.asked frame) (by rw [hcount]; exact hknown.1) (by rw [hcount]; exact hframe)
        rw [anchors_dropped] at hcases
        refine ⟨_, hs', hdag, hcount'.trans hcount, hcases.imp ?_ ?_⟩
        · rintro ⟨hsent, hsame, hedge⟩
          exact ⟨hsent, hsame, fun F S hFS => ((h.edge_dropped op F S).mp (hedge F S hFS)).1⟩
        · rintro ⟨hsent, hfree, hset, hedge⟩
          exact ⟨hsent, frame, htarget,
            ⟨hstart, hnew, fun hway => hfree (h.way_dropped_iff.mpr hway)⟩, hset, hedge⟩
      cases hanchor : s.anchors op.self op.point with
      | none =>
        rw [Layout.dropped, hanchor] at hdone
        refine hdone fun t ht => ?_
        cases ht
      | some t =>
        dsimp only
        split
        · exact hunchanged
        · next hnew =>
          rw [Layout.dropped, hanchor] at hdone
          refine hdone fun u hu => ?_
          cases hu
          exact Bool.eq_false_iff.mpr hnew

omit [BEq Offset] [Zero Offset] in
theorem Dag.linkTo_of_free (h : s.Dag) {a : Anchor Point Offset} (hself : op.self < s.count)
    (hfree : ¬ReflTransGen s.Edge op.self a.frame) : ∃ s', s.linkTo op a = some (s', true) := by
  obtain ⟨hcount, -⟩ := count_addLayoutChild (s := s) a.frame op.self
  have hadded := h.toLinked.addLayoutChild a.frame op.self
  obtain ⟨loop, hloop, hiff⟩ := h.search hself a.frame (Nat.lt_succ_of_le hcount.ge)
  rw [acyclic_congr hadded.edge_iff, acyclic_insert_iff h.acyclic, not_not] at hiff
  have hfalse : loop = false := Bool.eq_false_iff.mpr fun hloop => hfree (hiff.mp hloop)
  rw [linkTo, hloop, hfalse]
  exact ⟨_, rfl⟩

/-- **A call that gives the point another anchor** goes on to the event. -/
theorem Dag.setAnchor_of_moves (h : s.Dag) (hself : op.self < s.count)
    (htarget : op.target = some frame) (hmoves : s.Moves op frame) :
    ∃ s', s.setAnchor op = some (s', true) := by
  have hlink : ∃ s', (s.dropped op).linkTo op (op.asked frame) = some (s', true) := by
    refine (h.dropped op).linkTo_of_free ?_ fun hway => hmoves.free (h.way_dropped_iff.mp hway)
    rw [count_dropped]
    exact hself
  rw [Layout.setAnchor, htarget]
  dsimp only
  rw [if_neg hmoves.start]
  cases hanchor : s.anchors op.self op.point with
  | none => rwa [Layout.dropped, hanchor] at hlink
  | some t =>
    dsimp only
    rw [hmoves.new t hanchor, if_neg Bool.false_ne_true]
    rwa [Layout.dropped, hanchor] at hlink

end SetAnchor

end DWindow.UI.Layout
