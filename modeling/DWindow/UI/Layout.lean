import Mathlib.Algebra.Ring.Int.Defs
import DWindow.UI.Frames

/-!
# Anchors and layout edges

`SetPoint` of `base_frame.lua` anchors a point of a frame to another frame.  An anchored frame
is in the `layout_childs` of the other one, once for all its anchors, and the other one in its
`layout_parents`.  When a point gets another anchor, `SetPoint` takes the edge of the old one
out first: also if another point still needs it, and if the new anchor is rejected.
`mirrors_iff` says which calls that comes right for.
-/

namespace DWindow.UI

open Function Links Relation Runs

variable {Point Offset : Type*}

/-- An entry of `anchors`. -/
structure Anchor (Point Offset : Type*) where
  frame : Nat
  anchor : Point
  dx : Offset
  dy : Offset

/-- The anchors and the layout edges of all frames. -/
structure Layout (Point Offset : Type*) where
  count : Nat
  anchors : Nat → Point → Option (Anchor Point Offset)
  layoutChilds : Nat → List Nat
  layoutParents : Nat → List Nat

/-- A call of `SetPoint`, and the frame tree it finds. -/
structure SetPoint (Point Offset : Type*) where
  self : Nat
  point : Point
  frame : Option Nat
  anchor : Option Point
  dx : Option Offset
  dy : Option Offset
  parent : Nat → Option Nat

namespace SetPoint

/-- `frame or self.parent`. -/
def target (op : SetPoint Point Offset) : Option Nat := op.frame.or (op.parent op.self)

def asked [Zero Offset] (op : SetPoint Point Offset) (frame : Nat) : Anchor Point Offset :=
  ⟨frame, op.anchor.getD op.point, op.dx.getD 0, op.dy.getD 0⟩

end SetPoint

/-- The comparison with the anchor that is there; numbers may be different from themselves. -/
def Anchor.same [DecidableEq Point] [BEq Offset] (t a : Anchor Point Offset) : Bool :=
  t.frame = a.frame ∧ t.anchor = a.anchor ∧ t.dx == a.dx ∧ t.dy == a.dy

namespace Layout

def init (count : Nat) : Layout Point Offset := ⟨count, fun _ _ => none, fun _ => [], fun _ => []⟩

def addLayoutChild (s : Layout Point Offset) (self frame : Nat) : Layout Point Offset :=
  if self ∈ s.layoutParents frame then s
  else
    { s with
      layoutParents := update s.layoutParents frame (s.layoutParents frame ++ [self])
      layoutChilds := update s.layoutChilds self (s.layoutChilds self ++ [frame]) }

def removeLayoutChild (s : Layout Point Offset) (self frame : Nat) : Layout Point Offset :=
  if self ∈ s.layoutParents frame then
    { s with
      layoutChilds := update s.layoutChilds self ((s.layoutChilds self).erase frame)
      layoutParents := update s.layoutParents frame ((s.layoutParents frame).erase self) }
  else s

/-- `frame_has_loop_reference`, with calls of it `depth` levels deep. -/
def hasLoopReference (s : Layout Point Offset) (checker : Nat) : Nat → Nat → Option Bool
  | 0, _ => none
  | depth + 1, t =>
    (s.layoutChilds t).foldr
      (fun v rest =>
        if v = checker then some true
        else (hasLoopReference s checker depth v).bind fun loop => if loop then some true else rest)
      (some false)

/-- `BroadcastLayoutEvent`: the frames that get the event, in order.  Their handlers return, and
leave anchors and edges alone. -/
def broadcastLayoutEvent (s : Layout Point Offset) : Nat → Nat → Option (List Nat) :=
  broadcast s.layoutChilds

variable [DecidableEq Point]

/-- The second half of `SetPoint`, from `AddLayoutChild` on. -/
def anchorTo (s : Layout Point Offset) (op : SetPoint Point Offset) (a : Anchor Point Offset) :
    Option (Layout Point Offset) :=
  let s := s.addLayoutChild a.frame op.self
  (s.hasLoopReference op.self (s.count + 1) op.self).bind fun loop =>
    if loop then some (s.removeLayoutChild a.frame op.self)
    else
      let s : Layout Point Offset :=
        { s with
          anchors := update s.anchors op.self (update (s.anchors op.self) op.point (some a)) }
      (s.broadcastLayoutEvent (s.count + 1) op.self).map fun _ => s

variable [BEq Offset] [Zero Offset]

/-- `SetPoint`; `none` stands for a call that does not return. -/
def setPoint (s : Layout Point Offset) (op : SetPoint Point Offset) :
    Option (Layout Point Offset) :=
  match op.target with
  | none => some s
  | some frame =>
    if op.self = frame ∨ op.parent frame = some op.self then some s
    else
      match s.anchors op.self op.point with
      | none => s.anchorTo op (op.asked frame)
      | some t =>
        if t.same (op.asked frame) then some s
        else (s.removeLayoutChild t.frame op.self).anchorTo op (op.asked frame)

omit [DecidableEq Point] [BEq Offset] [Zero Offset] in
def Known (s : Layout Point Offset) (op : SetPoint Point Offset) : Prop :=
  op.self < s.count ∧ ∀ f ∈ op.target, f < s.count

instance (s : Layout Point Offset) (op : SetPoint Point Offset) : Decidable (s.Known op) :=
  inferInstanceAs (Decidable (_ ∧ ∀ f ∈ op.target, f < s.count))

def step (o : Option (Layout Point Offset)) (op : SetPoint Point Offset) :
    Option (Layout Point Offset) :=
  o.bind fun s => if s.Known op then s.setPoint op else some s

/-! ## What the edges are for -/

/-- Some anchor of the frame `S` has target `F`. -/
def Anchored (s : Layout Point Offset) (F S : Nat) : Prop :=
  ∃ point, ∃ t ∈ s.anchors S point, t.frame = F

/-- The two lists hold the edges `E`, each once. -/
structure Linked (s : Layout Point Offset) (E : Nat → Nat → Prop) : Prop where
  mem_childs : ∀ F S, S ∈ s.layoutChilds F ↔ E F S
  mem_parents : ∀ F S, F ∈ s.layoutParents S ↔ E F S
  nodup_childs : ∀ F, (s.layoutChilds F).Nodup
  nodup_parents : ∀ S, (s.layoutParents S).Nodup

/-- **Layout edges mirror anchors**, and a size change reaches every frame anchored. -/
structure Mirrors (s : Layout Point Offset) : Prop extends s.Linked s.Anchored where
  reaches : ∀ F S, s.Anchored F S → ∀ depth, s.count < depth →
    ∃ got ∈ s.broadcastLayoutEvent depth F, S ∈ got

/-- If the point has another anchor, the new target is not anchored to the frame, through any
number of frames, and it is the old target or no other point has that. -/
def Keeps (s : Layout Point Offset) (op : SetPoint Point Offset) (frame : Nat) : Prop :=
  ∀ t ∈ s.anchors op.self op.point, t.same (op.asked frame) = false →
    ¬ReflTransGen s.Anchored op.self frame ∧
      (t.frame = frame ∨ ∀ point ≠ op.point, ∀ u ∈ s.anchors op.self point, u.frame ≠ t.frame)

/-- The condition for a call that does not return at the start. -/
def KeepsMirror (o : Option (Layout Point Offset)) (op : SetPoint Point Offset) : Prop :=
  ∀ s ∈ o, s.Known op → ∀ frame ∈ op.target,
    ¬(op.self = frame ∨ op.parent frame = some op.self) → s.Keeps op frame

/-! ## The edges after a call -/

section Edges

omit [DecidableEq Point] [BEq Offset] [Zero Offset]

variable {s : Layout Point Offset} {E E' : Nat → Nat → Prop}

theorem Linked.congr (h : s.Linked E) (hE : ∀ F S, E F S ↔ E' F S) : s.Linked E' :=
  ⟨fun F S => (h.mem_childs F S).trans (hE F S), fun F S => (h.mem_parents F S).trans (hE F S),
    h.nodup_childs, h.nodup_parents⟩

theorem Linked.unique (h : s.Linked E) (h' : s.Linked E') (F S : Nat) : E F S ↔ E' F S :=
  (h.mem_childs F S).symm.trans (h'.mem_childs F S)

theorem Linked.addLayoutChild (h : s.Linked E) (self frame : Nat) :
    (s.addLayoutChild self frame).Linked (Links.insert E self frame) := by
  rw [Layout.addLayoutChild]
  split
  · rename_i hin
    rw [h.mem_parents] at hin
    exact h.congr fun F S => ⟨.inl, fun hFS => hFS.elim id fun ⟨hF, hS⟩ => hF ▸ hS ▸ hin⟩
  · rename_i hout
    have hout' : frame ∉ s.layoutChilds self := by rwa [h.mem_childs, ← h.mem_parents]
    refine ⟨fun F S => ?_, fun F S => ?_, fun F => ?_, fun S => ?_⟩
    · by_cases hF : F = self
      · subst hF
        simp [Links.insert, h.mem_childs]
      · simp [Links.insert, h.mem_childs, hF]
    · by_cases hS : S = frame
      · subst hS
        simp [Links.insert, h.mem_parents]
      · simp [Links.insert, h.mem_parents, hS]
    · by_cases hF : F = self
      · subst hF
        simpa using (List.nodup_concat _ _).mpr ⟨hout', h.nodup_childs F⟩
      · simpa [hF] using h.nodup_childs F
    · by_cases hS : S = frame
      · subst hS
        simpa using (List.nodup_concat _ _).mpr ⟨hout, h.nodup_parents S⟩
      · simpa [hS] using h.nodup_parents S

theorem Linked.removeLayoutChild (h : s.Linked E) (self frame : Nat) :
    (s.removeLayoutChild self frame).Linked fun F S => E F S ∧ ¬(F = self ∧ S = frame) := by
  rw [Layout.removeLayoutChild]
  split
  · refine ⟨fun F S => ?_, fun F S => ?_, fun F => ?_, fun S => ?_⟩
    · by_cases hF : F = self
      · subst hF
        simp [(h.nodup_childs F).mem_erase_iff, h.mem_childs, and_comm]
      · simp [h.mem_childs, hF]
    · by_cases hS : S = frame
      · subst hS
        simp [(h.nodup_parents S).mem_erase_iff, h.mem_parents, and_comm]
      · simp [h.mem_parents, hS]
    · by_cases hF : F = self
      · subst hF
        simpa using (h.nodup_childs F).erase frame
      · simpa [hF] using h.nodup_childs F
    · by_cases hS : S = frame
      · subst hS
        simpa using (h.nodup_parents S).erase self
      · simpa [hS] using h.nodup_parents S
  · rename_i hout
    rw [h.mem_parents] at hout
    exact h.congr fun F S => ⟨fun hFS => ⟨hFS, fun ⟨hF, hS⟩ => hout (hF ▸ hS ▸ hFS)⟩, And.left⟩

/-- **The search for a loop finds one exactly when there is one**, if every other chain of
edges ends. -/
theorem Linked.hasLoopReference_eq (h : s.Linked E) {checker : Nat}
    (hacyclic : Acyclic fun F S => E F S ∧ S ≠ checker) {n : Nat} (hn : ∀ F S, E F S → S < n)
    {depth : Nat} (hdepth : n < depth) (t : Nat) :
    ∃ loop, s.hasLoopReference checker depth t = some loop ∧
      (loop = true ↔ TransGen E t checker) := by
  refine ends_of_bounded (q := fun S F => E F S ∧ S ≠ checker) (acyclic_swap.mpr hacyclic)
    (fun F => (s.layoutChilds F).filter (· ≠ checker)) (fun F S hS => ?_)
    (P := fun depth t => ∃ loop, s.hasLoopReference checker depth t = some loop ∧
      (loop = true ↔ TransGen E t checker)) (fun depth F ih => ?_) hdepth t
  · rw [List.mem_filter, h.mem_childs, decide_eq_true_eq] at hS
    exact ⟨hS, hn F S hS.1⟩
  · have hlist : ∀ l : List Nat, (∀ v ∈ l, v ≠ checker → ∃ loop,
        s.hasLoopReference checker depth v = some loop ∧ (loop = true ↔ TransGen E v checker)) →
        ∃ loop, l.foldr (fun v rest => if v = checker then some true
            else (s.hasLoopReference checker depth v).bind fun loop =>
              if loop then some true else rest) (some false) = some loop ∧
          (loop = true ↔ ∃ v ∈ l, ReflTransGen E v checker) := by
      intro l
      induction l with
      | nil => intro _; exact ⟨false, rfl, by simp⟩
      | cons v l ihl =>
        intro hl
        rw [List.forall_mem_cons] at hl
        obtain ⟨rest, hrest, hrest'⟩ := ihl hl.2
        rw [List.foldr_cons, hrest, List.exists_mem_cons_iff]
        by_cases hv : v = checker
        · exact ⟨true, if_pos hv, iff_of_true rfl (.inl (hv ▸ .refl))⟩
        · obtain ⟨loop, hloop, hloop'⟩ := hl.1 hv
          rw [if_neg hv, hloop, reflTransGen_iff_eq_or_transGen, ← hloop', ← hrest']
          cases loop with
          | true => exact ⟨true, rfl, by simp⟩
          | false => exact ⟨rest, rfl, by simp [Ne.symm hv]⟩
    obtain ⟨loop, hloop, hiff⟩ := hlist (s.layoutChilds F) fun v hv hne =>
      ih v (List.mem_filter.mpr ⟨hv, decide_eq_true hne⟩)
    refine ⟨loop, hloop, hiff.trans ?_⟩
    rw [TransGen.head'_iff]
    exact exists_congr fun v => and_congr_left' (h.mem_childs F v)

/-- **An event reaches every frame that an edge leads to.** -/
theorem Linked.reaches (h : s.Linked E) (hacyclic : Acyclic E) {n : Nat}
    (hn : ∀ F S, E F S → S < n) {F S : Nat} (hFS : E F S) {depth : Nat} (hdepth : n < depth) :
    ∃ got ∈ s.broadcastLayoutEvent depth F, S ∈ got := by
  have hends : ∀ {depth : Nat}, n < depth → ∀ t, (broadcast s.layoutChilds depth t).isSome :=
    fun hdepth => broadcast_ends (acyclic_swap.mpr (hacyclic.mono fun F S hS =>
      (h.mem_childs F S).mp hS)) (fun F S hS => hn F S ((h.mem_childs F S).mp hS)) hdepth
  obtain ⟨got, hgot⟩ := Option.isSome_iff_exists.mp (hends hdepth F)
  refine ⟨got, hgot, ?_⟩
  obtain ⟨depth, rfl⟩ : ∃ d, depth = d + 1 := ⟨depth - 1, by omega⟩
  rw [broadcast, Option.map_eq_some_iff] at hgot
  obtain ⟨below, hbelow, rfl⟩ := hgot
  obtain ⟨l, hl, hdeliver⟩ := Fallible.exists_of_mapM hbelow S ((h.mem_childs F S).mpr hFS)
  have hSl : S ∈ l := by
    cases depth with
    | zero => cases hdeliver
    | succ depth =>
      rw [broadcast, Option.map_eq_some_iff] at hdeliver
      obtain ⟨_, -, rfl⟩ := hdeliver
      exact List.mem_cons_self ..
  exact List.mem_cons_of_mem _ (List.mem_flatten_of_mem hl hSl)

end Edges

/-! ## One call -/

/-- The edges mirror the anchors of frames that are there, without a loop. -/
structure Inv (s : Layout Point Offset) : Prop extends s.Linked s.Anchored where
  acyclic : Acyclic s.Anchored
  bounded : ∀ F S, s.Anchored F S → F < s.count ∧ S < s.count

section Call

omit [BEq Offset] [Zero Offset]

variable {s : Layout Point Offset} {E : Nat → Nat → Prop} {op : SetPoint Point Offset}
  {a : Anchor Point Offset}

omit [DecidableEq Point] in
theorem count_addLayoutChild (self frame : Nat) :
    (s.addLayoutChild self frame).count = s.count ∧
      (s.addLayoutChild self frame).anchors = s.anchors := by
  rw [addLayoutChild]
  split <;> exact ⟨rfl, rfl⟩

omit [DecidableEq Point] in
theorem count_removeLayoutChild (self frame : Nat) :
    (s.removeLayoutChild self frame).count = s.count ∧
      (s.removeLayoutChild self frame).anchors = s.anchors := by
  rw [removeLayoutChild]
  split <;> exact ⟨rfl, rfl⟩

/-- **What the second half of `SetPoint` comes to**: the anchor and its edge when there is no
way back to the target, and no edge otherwise. -/
theorem anchorTo_cases (h : s.Linked E) (hacyclic : Acyclic E)
    (hn : ∀ F S, E F S → S < s.count) (hself : op.self < s.count) :
    ∃ s', s.anchorTo op a = some s' ∧ s'.count = s.count ∧
      (¬ReflTransGen E op.self a.frame ∧ s'.Linked (Links.insert E a.frame op.self) ∧
        s'.anchors = update s.anchors op.self (update (s.anchors op.self) op.point (some a)) ∨
      ReflTransGen E op.self a.frame ∧ s'.anchors = s.anchors ∧
        s'.Linked fun F S => E F S ∧ ¬(F = a.frame ∧ S = op.self)) := by
  obtain ⟨hcount, hanchors⟩ := count_addLayoutChild (s := s) a.frame op.self
  have hadded := h.addLayoutChild a.frame op.self
  have hn' : ∀ F S, Links.insert E a.frame op.self F S → S < s.count :=
    fun F S hFS => hFS.elim (hn F S) fun hS => hS.2 ▸ hself
  -- an edge to the frame itself is not followed, so the search ends
  have hother : Acyclic fun F S => Links.insert E a.frame op.self F S ∧ S ≠ op.self :=
    hacyclic.mono fun F S hFS => hFS.1.elim id fun hS => absurd hS.2 hFS.2
  obtain ⟨loop, hloop, hiff⟩ := hadded.hasLoopReference_eq hother hn' (Nat.lt_succ_self _) op.self
  rw [transGen_insert_self_iff hacyclic] at hiff
  rw [anchorTo, hcount, hloop, Option.bind_some]
  cases loop with
  | true =>
    obtain ⟨hcount', hanchors'⟩ :=
      count_removeLayoutChild (s := s.addLayoutChild a.frame op.self) a.frame op.self
    refine ⟨_, rfl, hcount'.trans hcount, .inr ⟨hiff.mp rfl, hanchors'.trans hanchors, ?_⟩⟩
    refine (hadded.removeLayoutChild a.frame op.self).congr fun F S => ?_
    exact ⟨fun hFS => ⟨hFS.1.resolve_right hFS.2, hFS.2⟩, fun hFS => ⟨.inl hFS.1, hFS.2⟩⟩
  | false =>
    have hfree : ¬ReflTransGen E op.self a.frame := fun hback => by cases hiff.mpr hback
    have hends : (broadcast (s.addLayoutChild a.frame op.self).layoutChilds (s.count + 1)
        op.self).isSome := by
      refine broadcast_ends (n := s.count) (acyclic_swap.mpr ?_) (fun F S hS => hn' F S ?_)
        (Nat.lt_succ_self _) op.self
      · exact ((acyclic_insert_iff hacyclic).mpr hfree).mono fun F S => (hadded.mem_childs F S).mp
      · exact (hadded.mem_childs F S).mp hS
    obtain ⟨got, hgot⟩ := Option.isSome_iff_exists.mp hends
    refine ⟨_, congrArg (Option.map _) hgot, rfl, .inl ⟨hfree, ?_, ?_⟩⟩
    · exact ⟨hadded.mem_childs, hadded.mem_parents, hadded.nodup_childs, hadded.nodup_parents⟩
    · rw [← hanchors]

theorem anchored_update {s' : Layout Point Offset}
    (h : s'.anchors = update s.anchors op.self (update (s.anchors op.self) op.point (some a)))
    (F S : Nat) : s'.Anchored F S ↔
      S = op.self ∧ (F = a.frame ∨ ∃ p ≠ op.point, ∃ u ∈ s.anchors op.self p, u.frame = F) ∨
      S ≠ op.self ∧ s.Anchored F S := by
  rw [Anchored, h]
  by_cases hS : S = op.self
  · subst hS
    simp only [update_self, true_and, ne_eq, not_true_eq_false, false_and, or_false]
    constructor
    · rintro ⟨p, u, hu, rfl⟩
      by_cases hp : p = op.point
      · rw [hp, update_self] at hu
        cases hu
        exact .inl rfl
      · rw [update_of_ne hp] at hu
        exact .inr ⟨p, hp, u, hu, rfl⟩
    · rintro (rfl | ⟨p, hp, u, hu, rfl⟩)
      · exact ⟨op.point, a, update_self .., rfl⟩
      · exact ⟨p, u, by rwa [update_of_ne hp], rfl⟩
  · simp only [update_of_ne hS, hS, false_and, ne_eq, not_false_eq_true, true_and, false_or]
    exact Iff.rfl

end Call

section Step

variable {s : Layout Point Offset} {op : SetPoint Point Offset} {frame : Nat}

omit [DecidableEq Point] [BEq Offset] [Zero Offset] in
/-- What stays of the edges when the point loses its anchor. -/
def Left (s : Layout Point Offset) (op : SetPoint Point Offset) (F S : Nat) : Prop :=
  s.Anchored F S ∧ ∀ t ∈ s.anchors op.self op.point, ¬(F = t.frame ∧ S = op.self)

/-- **What `SetPoint` comes to** when it does not return at the start. -/
theorem Inv.setPoint_cases (h : s.Inv) (hknown : s.Known op) (htarget : op.target = some frame)
    (hstart : ¬(op.self = frame ∨ op.parent frame = some op.self))
    (hsame : ∀ t ∈ s.anchors op.self op.point, t.same (op.asked frame) = false) :
    ∃ s', s.setPoint op = some s' ∧ s'.count = s.count ∧
      (¬ReflTransGen s.Anchored op.self frame ∧
        s'.Linked (Links.insert (s.Left op) frame op.self) ∧
        s'.anchors = update s.anchors op.self
          (update (s.anchors op.self) op.point (some (op.asked frame))) ∨
      ReflTransGen s.Anchored op.self frame ∧ s'.anchors = s.anchors ∧
        s'.Linked fun F S => s.Left op F S ∧ ¬(F = frame ∧ S = op.self)) := by
  obtain ⟨s₁, hstep, hcount, hanchors, hlinked⟩ : ∃ s₁ : Layout Point Offset,
      s.setPoint op = s₁.anchorTo op (op.asked frame) ∧ s₁.count = s.count ∧
        s₁.anchors = s.anchors ∧ s₁.Linked (s.Left op) := by
    rw [setPoint, htarget]
    simp only [if_neg hstart]
    cases ht : s.anchors op.self op.point with
    | none =>
      refine ⟨s, rfl, rfl, rfl, h.toLinked.congr fun F S => ⟨fun hFS => ⟨hFS, ?_⟩, And.left⟩⟩
      intro t hts
      rw [ht] at hts
      cases hts
    | some t =>
      obtain ⟨hcount, hanchors⟩ := count_removeLayoutChild (s := s) t.frame op.self
      refine ⟨s.removeLayoutChild t.frame op.self, ?_, hcount, hanchors, ?_⟩
      · simp [hsame t ht]
      · refine (h.toLinked.removeLayoutChild t.frame op.self).congr fun F S => ?_
        rw [Left, ht]
        exact and_congr_right fun _ => ⟨fun hFS u hu => Option.some.inj hu ▸ hFS, fun hFS =>
          hFS t rfl⟩
  have hleft : ∀ F S, s.Left op F S → s.Anchored F S := fun _ _ => And.left
  -- the way from the frame to the target does not use an edge to the frame
  have hback : ReflTransGen (s.Left op) op.self frame ↔ ReflTransGen s.Anchored op.self frame := by
    constructor
    · exact ReflTransGen.mono hleft _ _
    · intro hway
      refine ReflTransGen.mono (fun F S hFS => ⟨hFS.1, fun t _ hS => hFS.2 hS.2⟩) _ _
        (reflTransGen_ne h.acyclic hway)
  obtain ⟨s', hs', hcount', hcases⟩ := anchorTo_cases (a := op.asked frame) hlinked
    (h.acyclic.mono hleft) (fun F S hFS => hcount ▸ (h.bounded F S (hleft F S hFS)).2)
    (hcount ▸ hknown.1)
  refine ⟨s', hstep.trans hs', hcount'.trans hcount, ?_⟩
  rw [← hback, ← hanchors]
  exact hcases

omit [DecidableEq Point] [BEq Offset] [Zero Offset] in
theorem anchored_of_mem {t : Anchor Point Offset} {S : Nat} {p : Point}
    (ht : t ∈ s.anchors S p) : s.Anchored t.frame S := ⟨p, t, ht, rfl⟩

omit [DecidableEq Point] [BEq Offset] [Zero Offset] in
theorem Inv.not_anchored_of_way (h : s.Inv) (hway : ReflTransGen s.Anchored op.self frame) :
    ¬s.Anchored frame op.self := fun hanchored => h.acyclic frame (.head' hanchored hway)

/-- **Under the condition the edges mirror the anchors again.** -/
theorem Inv.setPoint (h : s.Inv) (hknown : s.Known op) (htarget : op.target = some frame)
    (hstart : ¬(op.self = frame ∨ op.parent frame = some op.self))
    (hsame : ∀ t ∈ s.anchors op.self op.point, t.same (op.asked frame) = false)
    (hok : s.Keeps op frame) : ∃ s', s.setPoint op = some s' ∧ s'.Inv := by
  obtain ⟨s', hs', hcount, hcases⟩ := h.setPoint_cases hknown htarget hstart hsame
  refine ⟨s', hs', ?_⟩
  have hleft : ∀ F S, s.Left op F S → s.Anchored F S := fun _ _ => And.left
  obtain ⟨hfree, hlinked, hanchors⟩ | ⟨hway, hanchors, hlinked⟩ := hcases
  · have hsame' : ∀ F S, Links.insert (s.Left op) frame op.self F S ↔ s'.Anchored F S := by
      intro F S
      rw [anchored_update hanchors]
      constructor
      · rintro (⟨⟨p, u, hu, rfl⟩, hother⟩ | ⟨rfl, rfl⟩)
        · by_cases hS : S = op.self
          · subst hS
            exact .inl ⟨rfl, .inr ⟨p, fun hp => hother u (hp ▸ hu) ⟨rfl, rfl⟩, u, hu, rfl⟩⟩
          · exact .inr ⟨hS, p, u, hu, rfl⟩
        · exact .inl ⟨rfl, .inl rfl⟩
      · rintro (⟨rfl, rfl | ⟨p, hp, u, hu, rfl⟩⟩ | ⟨hS, hFS⟩)
        · exact .inr ⟨rfl, rfl⟩
        · -- the old anchor may have the target of another point only if it is the new one
          by_cases hold : ∃ t ∈ s.anchors op.self op.point, t.frame = u.frame
          · obtain ⟨t, ht, htu⟩ := hold
            obtain heq | hnone := (hok t ht (hsame t ht)).2
            · exact .inr ⟨htu.symm.trans heq, rfl⟩
            · exact absurd htu.symm (hnone p hp u hu)
          · exact .inl ⟨anchored_of_mem hu, fun t ht hut => hold ⟨t, ht, hut.1.symm⟩⟩
        · exact .inl ⟨hFS, fun _ _ hut => hS hut.2⟩
    have hacyclic : Acyclic (Links.insert (s.Left op) frame op.self) :=
      (acyclic_insert_iff (h.acyclic.mono hleft)).mpr fun hway =>
        hfree (ReflTransGen.mono hleft _ _ hway)
    refine ⟨hlinked.congr hsame', (acyclic_congr hsame').mp hacyclic, fun F S hFS => ?_⟩
    rw [hcount]
    obtain hFS | ⟨rfl, rfl⟩ := (hsame' F S).mpr hFS
    · exact h.bounded F S (hleft F S hFS)
    · exact ⟨hknown.2 F htarget, hknown.1⟩
  · -- rejected, so the point has no anchor
    have hsame' : ∀ F S, s.Left op F S ∧ ¬(F = frame ∧ S = op.self) ↔ s'.Anchored F S := by
      intro F S
      rw [Anchored, hanchors]
      refine ⟨fun hFS => hleft F S hFS.1, fun hFS => ⟨⟨hFS, fun t ht _ => ?_⟩, ?_⟩⟩
      · exact (hok t ht (hsame t ht)).1 hway
      · rintro ⟨rfl, rfl⟩
        exact h.not_anchored_of_way hway hFS
    refine ⟨hlinked.congr hsame', ?_, ?_⟩
    · exact (acyclic_congr hsame').mp (h.acyclic.mono fun F S hFS => hleft F S hFS.1)
    · intro F S hFS
      rw [hcount]
      exact h.bounded F S (hleft F S ((hsame' F S).mpr hFS).1)

/-- **The condition is met when the edges mirror the anchors after the call.** -/
theorem Inv.keeps (h : s.Inv) (hknown : s.Known op) (htarget : op.target = some frame)
    (hstart : ¬(op.self = frame ∨ op.parent frame = some op.self)) {s' : Layout Point Offset}
    (hs' : s.setPoint op = some s') (hmirrors : s'.Linked s'.Anchored) : s.Keeps op frame := by
  intro t ht hnew
  have hsame : ∀ u ∈ s.anchors op.self op.point, u.same (op.asked frame) = false := by
    intro u hu
    rw [Option.mem_unique hu ht]
    exact hnew
  obtain ⟨s'', hs'', -, hcases⟩ := h.setPoint_cases hknown htarget hstart hsame
  obtain rfl := Option.some.inj (hs''.symm.trans hs')
  obtain ⟨hfree, hlinked, hanchors⟩ | ⟨hway, hanchors, hlinked⟩ := hcases
  · refine ⟨hfree, or_iff_not_imp_left.mpr fun hne p hp u hu hut => ?_⟩
    -- the target of the other point has lost its edge
    have hanchored : s''.Anchored t.frame op.self := by
      rw [anchored_update hanchors]
      exact .inl ⟨rfl, .inr ⟨p, hp, u, hu, hut⟩⟩
    obtain hleft | ⟨heq, -⟩ := (hmirrors.unique hlinked _ _).mp hanchored
    · exact hleft.2 t ht ⟨rfl, rfl⟩
    · exact hne heq
  · have hanchored : s''.Anchored t.frame op.self := by
      rw [Anchored, hanchors]
      exact anchored_of_mem ht
    exact absurd ⟨rfl, rfl⟩ (((hmirrors.unique hlinked _ _).mp hanchored).1.2 t ht)

end Step

/-! ## Runs -/

omit [DecidableEq Point] [BEq Offset] [Zero Offset] in
theorem init_inv (count : Nat) : (init count : Layout Point Offset).Inv := by
  have hnone : ∀ F S, ¬(init count : Layout Point Offset).Anchored F S := by
    rintro F S ⟨_, _, ht, -⟩
    cases ht
  exact
    { mem_childs := fun F S => iff_of_false List.not_mem_nil (hnone F S)
      mem_parents := fun F S => iff_of_false List.not_mem_nil (hnone F S)
      nodup_childs := fun _ => List.nodup_nil
      nodup_parents := fun _ => List.nodup_nil
      acyclic := fun a ha => by
        obtain ⟨b, hab, -⟩ := TransGen.head'_iff.mp ha
        exact hnone a b hab
      bounded := fun F S hFS => absurd hFS (hnone F S) }

omit [DecidableEq Point] [BEq Offset] [Zero Offset] in
theorem Inv.mirrors {s : Layout Point Offset} (h : s.Inv) : s.Mirrors :=
  ⟨h.toLinked, fun _ _ hFS _ hdepth => h.toLinked.reaches h.acyclic
    (fun F S hFS' => (h.bounded F S hFS').2) hFS hdepth⟩

theorem Inv.step {s : Layout Point Offset} (h : s.Inv) {op : SetPoint Point Offset}
    (hok : KeepsMirror (some s) op) : ∃ s' ∈ step (some s) op, s'.Inv := by
  rw [Layout.step, Option.bind_some]
  split
  · rename_i hknown
    cases htarget : op.target with
    | none =>
      refine ⟨s, ?_, h⟩
      rw [Layout.setPoint, htarget]
      rfl
    | some frame =>
      by_cases hstart : op.self = frame ∨ op.parent frame = some op.self
      · refine ⟨s, ?_, h⟩
        rw [Layout.setPoint, htarget]
        exact if_pos hstart
      · by_cases hsame : ∃ t ∈ s.anchors op.self op.point, t.same (op.asked frame) = true
        · obtain ⟨t, ht, hsame⟩ := hsame
          refine ⟨s, ?_, h⟩
          rw [Option.mem_def] at ht
          simp [Layout.setPoint, htarget, hstart, ht, hsame]
        · obtain ⟨s', hs', hinv⟩ := h.setPoint hknown htarget hstart
            (fun t ht => Bool.eq_false_iff.mpr fun hts => hsame ⟨t, ht, hts⟩)
            (hok s rfl hknown frame htarget hstart)
          exact ⟨s', hs', hinv⟩
  · exact ⟨s, rfl, h⟩

/-- **Layout edges mirror the anchors in every state of a run exactly when every call meets the
condition.** -/
theorem mirrors_iff (count : Nat) (ops : List (SetPoint Point Offset)) :
    (∀ k, ∃ s ∈ run step (some (init count)) (ops.take k), s.Mirrors) ↔
      Along step KeepsMirror (some (init count)) ops := by
  refine forall_take_iff_along_of (P := fun o => ∃ s ∈ o, s.Mirrors)
    (fun o : Option (Layout Point Offset) => ∃ s ∈ o, s.Inv) ?_ ?_ ?_ ops (some (init count))
    ⟨init count, rfl, init_inv count⟩
  · rintro o ⟨s, hs, hinv⟩
    exact ⟨s, hs, hinv.mirrors⟩
  · rintro o op ⟨s, rfl, hinv⟩ hok
    exact hinv.step hok
  · rintro o op ⟨s, rfl, hinv⟩ ⟨s', hs', hmirrors⟩ t ⟨⟩ hknown frame htarget hstart
    rw [Layout.step, Option.bind_some, if_pos hknown] at hs'
    exact hinv.keeps hknown htarget hstart hs' hmirrors.toLinked

/-- Two points of frame 1 are anchored to frame 0, then one of them to frame 2: the edge from
frame 0 is gone. -/
theorem edge_of_other_point_lost :
    ¬∃ s ∈ run step (some (init 3 : Layout Nat Int))
      [⟨1, 5, some 0, none, none, none, fun _ => none⟩,
        ⟨1, 10, some 0, none, none, none, fun _ => none⟩,
        ⟨1, 10, some 2, none, none, none, fun _ => none⟩], s.Mirrors := by
  rintro ⟨s, hs, hmirrors⟩
  have hedge : 1 ∉ s.layoutChilds 0 := by
    cases hs
    decide
  have hanchor : s.Anchored 0 1 := by
    refine ⟨5, ⟨0, 5, 0, 0⟩, ?_, rfl⟩
    cases hs
    rfl
  exact hedge ((hmirrors.mem_childs 0 1).mpr hanchor)

end Layout
end DWindow.UI
