import DWindow.UI.Stale

/-!
# Rectangles that are never calculated

A frame with anchors keeps a rectangle, so a calculation only goes on to frames without anchors,
and from these to their parents.  `SetPoint` refuses a target that is a child of the frame, but not
one further below: if neither that target nor the frames up to the frame itself keep a rectangle,
the frame is calculated from the target, this from its parent, and so on up to the frame again.

`rects_end` says that nothing else goes on for ever, and `Rects.Standing.endless` that this
does.
-/

namespace DWindow.UI

open Function Links Relation Runs

namespace Scene

variable {Num : Type*} [Zero Num] {A : Arith Num} {s : Scene Num} {ρ ρ' ρ₁ : Kept Num}

/-- More frames are kept. -/
def More (ρ ρ' : Kept Num) : Prop := ∀ F, (ρ F).isSome → (ρ' F).isSome

/-- A calculation of `F` comes to one of `d`. -/
def Calls (s : Scene Num) (ρ : Kept Num) (d F : Nat) : Prop := s.PlacedBy d F ∧ ρ d = none

omit [Zero Num] in
theorem More.trans (h : More ρ ρ₁) (g : More ρ₁ ρ') : More ρ ρ' := fun F hF => g F (h F hF)

omit [Zero Num] in
theorem more_getRectBy {calculate : Nat → Kept Num → Option (Kept Num)} {d : Nat} {r : Rect Num}
    (h : ∀ ρ', calculate d ρ = some ρ' → More ρ ρ')
    (hget : getRectBy calculate d ρ = some (ρ', r)) : More ρ ρ' := by
  rw [getRectBy] at hget
  split at hget
  · cases hget
    exact fun _ => id
  · obtain ⟨ρ₁, hρ₁, hget⟩ := Option.bind_eq_some_iff.mp hget
    obtain ⟨r', -, heq⟩ := Option.map_eq_some_iff.mp hget
    cases heq
    exact h _ hρ₁

omit [Zero Num] in
theorem exists_getRectBy (calculate : Nat → Kept Num → Option (Kept Num)) (d : Nat) (ρ : Kept Num)
    (h : ρ d = none → ∃ ρ', calculate d ρ = some ρ' ∧ More ρ ρ' ∧ (ρ' d).isSome) :
    ∃ got, getRectBy calculate d ρ = some got ∧ More ρ got.1 := by
  rw [getRectBy]
  split
  · exact ⟨_, rfl, fun _ => id⟩
  · next hnone =>
    obtain ⟨ρ', hρ', hmore, hd⟩ := h hnone
    obtain ⟨r, hr⟩ := Option.isSome_iff_exists.mp hd
    rw [hρ', Option.bind_some, hr]
    exact ⟨_, rfl, hmore⟩

/-- **A calculation** keeps the rectangle of its frame, and takes none away. -/
theorem more_calculateAbsRect : ∀ (depth F : Nat) (ρ ρ' : Kept Num),
    s.calculateAbsRect A depth F ρ = some ρ' → More ρ ρ' ∧ (ρ' F).isSome := by
  intro depth
  induction depth with
  | zero => intro F ρ ρ' h; cases h
  | succ depth ih =>
    intro F ρ ρ' h
    rw [calculateAbsRect, Option.map_eq_some_iff] at h
    obtain ⟨acc, hacc, rfl⟩ := h
    have hmore : More ρ acc.1 := by
      refine Fallible.foldlM_invariant (fun acc => More ρ acc.1) (fun acc i acc' hmore hplace => ?_)
        _ _ acc (fun _ => id) hacc
      rw [place] at hplace
      split at hplace
      · cases hplace
        exact hmore
      · next d hframe =>
        obtain ⟨got, hget, rfl⟩ := Option.map_eq_some_iff.mp hplace
        exact hmore.trans (more_getRectBy (fun ρ₁ hρ₁ => (ih d _ ρ₁ hρ₁).1) hget)
    refine ⟨fun H hH => ?_, by rw [update_self]; rfl⟩
    by_cases heq : H = F
    · rw [heq, update_self]
      rfl
    · rw [update_of_ne heq]
      exact hmore H hH

/-- **A calculation ends** when no frame without a rectangle comes to itself. -/
theorem isSome_calculateAbsRect_of_calls (hacyclic : Acyclic (s.Calls ρ)) (hbounded : s.Bounded)
    (F : Nat) (hmore : More ρ ρ') : (s.calculateAbsRect A (s.layout.count + 1) F ρ').isSome := by
  refine ends_of_bounded hacyclic
    (fun F => ((s.inputs F).filterMap Input.frame).filter fun d => (ρ d).isNone)
    (fun F d hd => ?_) (P := fun depth F => ∀ ρ', More ρ ρ' →
      (s.calculateAbsRect A depth F ρ').isSome) (fun depth F ih ρ' hmore => ?_)
    (Nat.lt_succ_self _) F ρ' hmore
  · obtain ⟨hmem, hnone⟩ := List.mem_filter.mp hd
    obtain ⟨i, hi, hframe⟩ := List.mem_filterMap.mp hmem
    exact ⟨⟨⟨i, hi, hframe⟩, Option.isNone_iff_eq_none.mp hnone⟩, hbounded d F ⟨i, hi, hframe⟩⟩
  · have hplaced : ∃ acc : Kept Num × Edges Num, (s.inputs F).foldlM
        (place A (s.calculateAbsRect A depth)) (ρ', .none) = some acc ∧ More ρ acc.1 := by
      refine Fallible.exists_foldlM (fun acc : Kept Num × Edges Num => More ρ acc.1) hmore
        fun i hi acc hacc => ?_
      rw [place]
      split
      · exact ⟨_, rfl, hacc⟩
      · next d hframe =>
        obtain ⟨got, hget, hgot⟩ :=
          exists_getRectBy (s.calculateAbsRect A depth) d acc.1 fun hd => by
            -- a frame that had a rectangle still has one
            have hnone : (ρ d).isNone := by
              rw [Option.isNone_iff_eq_none, ← Option.not_isSome_iff_eq_none]
              intro hkept
              have hsome := hacc d hkept
              rw [hd] at hsome
              cases hsome
            obtain ⟨ρ₁, hρ₁⟩ := Option.isSome_iff_exists.mp (ih d (List.mem_filter.mpr
              ⟨List.mem_filterMap.mpr ⟨i, hi, hframe⟩, hnone⟩) acc.1 hacc)
            exact ⟨ρ₁, hρ₁, more_calculateAbsRect _ d _ ρ₁ hρ₁⟩
        rw [hget]
        exact ⟨_, rfl, hacc.trans hgot⟩
    obtain ⟨acc, hacc, -⟩ := hplaced
    rw [calculateAbsRect, hacc]
    rfl

/-- **The event ends**, and takes no rectangle away. -/
theorem exists_broadcastLayoutEvent (hacyclic : Acyclic (s.Calls ρ)) (hbounded : s.Bounded)
    (hdag : s.layout.Dag) (F : Nat) : ∃ ρ', s.broadcastLayoutEvent A (s.layout.count + 1) ρ F =
      some ρ' ∧ More ρ ρ' ∧ (ρ' F).isSome := by
  refine ends_of_bounded (acyclic_swap.mpr hdag.acyclic) s.layout.layoutChilds
    (fun F v hv => ⟨hv, (hdag.bounded F v hv).2⟩) (P := fun depth F => ∀ ρ₁, More ρ ρ₁ →
      ∃ ρ', s.broadcastLayoutEvent A depth ρ₁ F = some ρ' ∧ More ρ₁ ρ' ∧ (ρ' F).isSome)
    (fun depth F ih ρ₁ hmore => ?_) (Nat.lt_succ_self _) F ρ (fun _ => id)
  obtain ⟨ρ₂, hρ₂⟩ := Option.isSome_iff_exists.mp
    (isSome_calculateAbsRect_of_calls (A := A) hacyclic hbounded F hmore)
  obtain ⟨hmore₂, hF⟩ := more_calculateAbsRect _ F ρ₁ ρ₂ hρ₂
  obtain ⟨ρ', hρ', hmore'⟩ := Fallible.exists_foldlM (fun ρ' => More ρ₂ ρ') (fun _ => id)
    fun v (hv : v ∈ s.layout.layoutChilds F) ρ₃ hmore₃ => by
      obtain ⟨ρ₄, hρ₄, hmore₄, -⟩ := ih v hv ρ₃ (hmore.trans (hmore₂.trans hmore₃))
      exact ⟨ρ₄, hρ₄, hmore₃.trans hmore₄⟩
  refine ⟨ρ', ?_, hmore₂.trans hmore', hmore' F hF⟩
  rw [broadcastLayoutEvent, hρ₂, Option.bind_some, hρ']

/-- **Frames that wait for each other** are never calculated, however many levels there are. -/
theorem calculateAbsRect_eq_none {C : Nat → Prop} (hC : ∀ F, C F → ρ F = none ∧
    ∃ i d, s.inputs F = [i] ∧ i.frame = some d ∧ C d) : ∀ depth F, C F →
      s.calculateAbsRect A depth F ρ = none := by
  intro depth
  induction depth with
  | zero => exact fun _ _ => rfl
  | succ depth ih =>
    intro F hF
    obtain ⟨-, i, d, hinputs, hframe, hd⟩ := hC F hF
    have hplace : place A (s.calculateAbsRect A depth) (ρ, .none) i = none := by
      rw [place, hframe]
      dsimp only
      rw [getRectBy, (hC d hd).1]
      dsimp only
      rw [ih d hd]
      rfl
    rw [calculateAbsRect, hinputs, List.foldlM_cons, hplace]
    rfl

omit [Zero Num] in
/-- The calculations cannot come back to a frame if those between frames without rectangles
cannot. -/
theorem acyclic_calls [Zero Num] {r : Nat → Nat → Prop} (hr : Acyclic r)
    (h : ∀ d F, s.PlacedBy d F → ρ d = none → ρ F = none → r d F) : Acyclic (s.Calls ρ) := by
  have hway : ∀ a b, TransGen (s.Calls ρ) a b → ρ b = none → TransGen r a b := by
    intro a b hab
    induction hab with
    | single hlink => exact fun hb => .single (h _ _ hlink.1 hlink.2 hb)
    | tail _ hlink ih => exact fun hb => (ih hlink.2).tail (h _ _ hlink.1 hlink.2 hb)
  intro a ha
  obtain ⟨b, hlink, -⟩ := TransGen.head'_iff.mp ha
  exact hr a (hway a a ha hlink.2)

theorem Keyed.bounded (h : s.Keyed)
    (htargets : ∀ d F, s.layout.Anchored d F → d < s.layout.count)
    (hparents : ∀ F d, s.tree.parent F = some d → d < s.layout.count) : s.Bounded := by
  intro d F hd
  obtain hd | ⟨-, hd⟩ := (h.placedBy_iff d F).mp hd
  · exact htargets d F hd
  · exact hparents F d hd

end Scene

namespace Rects

variable {Num : Type*} [Zero Num] (A : Arith Num)

/-- `GetRect` of a frame returns, with enough levels of calls. -/
def Returns (s : Rects Num) (F : Nat) : Prop :=
  ∃ depth, (Scene.getRectBy (s.scene.calculateAbsRect A depth) F s.kept).isSome

omit [Zero Num] in
/-- `F` is in `d`, and neither of them keeps a rectangle. -/
def Waits (s : Rects Num) (d F : Nat) : Prop :=
  s.scene.tree.parent F = some d ∧ s.kept d = none ∧ s.kept F = none

/-- No frame is added to itself or to a frame below it, and no frame is anchored to one further
below it while neither of them nor the frames between keep a rectangle. -/
def Ending [BEq Num] (s : Rects Num) : RectOp Num → Prop
  | .addChild self (some frame) _ =>
    s.scene.tree.parent frame = none → ¬ReflTransGen s.scene.tree.Below self frame
  | .setPoint op _ => ∀ frame ∈ (s.within op).target, s.scene.layout.Moves (s.within op) frame →
      s.kept op.self = none → ¬ReflTransGen s.Waits op.self frame
  | _ => True

/-- The condition on a call of frames that are there. -/
def KeepsEnding [BEq Num] (o : Option (Rects Num)) (op : RectOp Num) : Prop :=
  ∀ s ∈ o, s.Known op → s.Ending op

/-- **What the calls keep**: every frame with anchors keeps a rectangle, and neither the parents nor
the edges form a cycle. -/
structure Standing (s : Rects Num) : Prop where
  dag : s.scene.layout.Dag
  keyed : s.scene.Keyed
  targets : ∀ d F, s.scene.layout.Anchored d F → d < s.scene.layout.count
  parents : ∀ F d, s.scene.tree.parent F = some d → d < s.scene.layout.count
  acyclic : Acyclic s.scene.tree.Below
  count : s.scene.tree.count = s.scene.layout.count
  anchored : ∀ F, s.scene.pairs F ≠ [] → (s.kept F).isSome

variable {A} {s : Rects Num}

theorem Standing.bounded (h : s.Standing) : s.scene.Bounded :=
  h.keyed.bounded h.targets h.parents

omit [Zero Num] in
theorem Standing.acyclic_waits (h : s.Standing) : Acyclic s.Waits :=
  (acyclic_swap.mpr h.acyclic).mono fun _ _ hd => hd.1

omit [Zero Num] in
theorem Standing.pairs_eq_nil (h : s.Standing) {F : Nat} (hF : s.kept F = none) :
    s.scene.pairs F = [] := by
  by_contra hne
  have hsome := h.anchored F hne
  rw [hF] at hsome
  cases hsome

omit [Zero Num] in
theorem Standing.not_anchored (h : s.Standing) {d F : Nat} (hF : s.kept F = none) :
    ¬s.scene.layout.Anchored d F := by
  rintro ⟨p, t, ht, -⟩
  have hp := (h.keyed F p).mpr (Option.isSome_of_mem ht)
  rw [h.pairs_eq_nil hF] at hp
  exact List.not_mem_nil hp

theorem Standing.acyclic_calls (h : s.Standing) : Acyclic (s.scene.Calls s.kept) := by
  refine Scene.acyclic_calls h.acyclic_waits fun d F hd hdnone hF => ?_
  obtain hd | ⟨-, hd⟩ := (h.keyed.placedBy_iff d F).mp hd
  · exact absurd hd (h.not_anchored hF)
  · exact ⟨hd, hdnone, hF⟩

theorem Standing.getRect (h : s.Standing) (F : Nat) :
    ∃ got, s.scene.getRect A F s.kept = some got ∧ Scene.More s.kept got.1 := by
  refine Scene.exists_getRectBy _ F s.kept fun _ => ?_
  obtain ⟨kept, hkept⟩ := Option.isSome_iff_exists.mp
    (Scene.isSome_calculateAbsRect_of_calls (A := A) h.acyclic_calls h.bounded F fun _ => id)
  exact ⟨kept, hkept, Scene.more_calculateAbsRect _ F _ kept hkept⟩

theorem Standing.returns (h : s.Standing) (F : Nat) : s.Returns A F := by
  obtain ⟨got, hgot, -⟩ := h.getRect (A := A) F
  exact ⟨s.scene.layout.count + 1, Option.isSome_of_eq_some hgot⟩

/-! ### The calls -/

omit [Zero Num] in
theorem Standing.more (h : s.Standing) {kept : Kept Num} (hmore : Scene.More s.kept kept) :
    Standing { s with kept } :=
  ⟨h.dag, h.keyed, h.targets, h.parents, h.acyclic, h.count, fun F hF => hmore F (h.anchored F hF)⟩

omit [Zero Num] in
theorem init_standing : (init : Rects Num).Standing where
  dag := Layout.init_dag 0
  keyed F p := iff_of_false List.not_mem_nil Bool.false_ne_true
  targets d F hd := by
    obtain ⟨p, t, ht, -⟩ := hd
    cases ht
  parents F d hd := by cases hd
  acyclic := Frames.init_tree.acyclic
  count := rfl
  anchored F hF := absurd rfl hF

omit [Zero Num] in
/-- **One frame gets another parent**, or none. -/
theorem Standing.reparent (h : s.Standing) {tree : Frames} {f : Nat} {p : Option Nat}
    (hcount : tree.count = s.scene.tree.count)
    (hparent : tree.parent = update s.scene.tree.parent f p)
    (hp : ∀ d ∈ p, d < s.scene.layout.count ∧ ¬ReflTransGen s.scene.tree.Below d f) :
    (s.reparent tree).Standing where
  dag := h.dag
  keyed := h.keyed
  targets := h.targets
  parents F d hd := by
    have hd' : tree.parent F = some d := hd
    rw [hparent] at hd'
    by_cases hF : F = f
    · rw [hF, update_self] at hd'
      exact (hp d hd').1
    · rw [update_of_ne hF] at hd'
      exact h.parents F d hd'
  acyclic := by
    have hbelow : ∀ c d, tree.Below c d → s.scene.tree.Below c d ∨ c = f ∧ p = some d := by
      intro c d hcd
      rw [Frames.Below, hparent] at hcd
      by_cases hc : c = f
      · rw [hc, update_self] at hcd
        exact .inr ⟨hc, hcd⟩
      · rw [update_of_ne hc] at hcd
        exact .inl hcd
    cases p with
    | none =>
      exact h.acyclic.mono fun c d hcd =>
        (hbelow c d hcd).resolve_right fun hnone => Option.some_ne_none d hnone.2.symm
    | some d =>
      refine Acyclic.mono ((acyclic_insert_iff h.acyclic).mpr (hp d rfl).2) fun c e hce => ?_
      exact (hbelow c e hce).imp id fun hnew => ⟨hnew.1, (Option.some.inj hnew.2).symm⟩
  count := hcount.trans h.count
  anchored := h.anchored

omit [Zero Num] in
theorem Standing.blank (h : s.Standing) : s.blank.Standing where
  dag := h.dag.create
  keyed := keyed_blank h.keyed
  targets d F hd :=
    Nat.lt_succ_of_lt (h.targets d F ((Layout.anchored_create _ d F).mp hd).2)
  parents F d hd := by
    have hd' : update s.scene.tree.parent s.scene.tree.count none F = some d := hd
    by_cases hF : F = s.scene.tree.count
    · rw [hF, update_self] at hd'
      cases hd'
    · rw [update_of_ne hF] at hd'
      exact Nat.lt_succ_of_lt (h.parents F d hd')
  acyclic := by
    refine h.acyclic.mono fun c d hcd => ?_
    have hcd' : update s.scene.tree.parent s.scene.tree.count none c = some d := hcd
    by_cases hc : c = s.scene.tree.count
    · rw [hc, update_self] at hcd'
      cases hcd'
    · rwa [update_of_ne hc] at hcd'
  count := congrArg (· + 1) h.count
  anchored F hF := by
    have hpairs : update s.scene.pairs s.scene.layout.count [] F ≠ [] := hF
    by_cases heq : F = s.scene.layout.count
    · rw [heq, update_self] at hpairs
      exact absurd rfl hpairs
    · rw [update_of_ne heq] at hpairs
      have hkept : s.blank.kept F = s.kept F := update_of_ne heq ..
      rw [hkept]
      exact h.anchored F hpairs

omit [Zero Num] in
theorem Standing.create (h : s.Standing) {parent : Option Nat}
    (hparent : ∀ f ∈ parent, f < s.scene.layout.count) : (s.create parent).Standing := by
  obtain ⟨hcount, htree⟩ := Frames.parent_create s.scene.tree parent
  refine h.blank.reparent hcount (f := s.scene.tree.count) (p := parent) (htree.trans ?_)
    fun d hd => ⟨Nat.lt_succ_of_lt (hparent d hd), fun hway => ?_⟩
  · exact (update_idem ..).symm
  · -- no frame is in the new one
    obtain heq | ⟨c, -, hc⟩ := ReflTransGen.cases_tail_iff _ _ _ |>.mp hway
    · exact (hparent d hd).ne (heq.symm.trans h.count)
    · have hlt : s.scene.tree.count < s.scene.tree.count := by
        have hc' : update s.scene.tree.parent s.scene.tree.count none c =
          some s.scene.tree.count := hc
        by_cases heq : c = s.scene.tree.count
        · rw [heq, update_self] at hc'
          cases hc'
        · rw [update_of_ne heq] at hc'
          exact (h.parents c _ hc').trans_eq h.count.symm
      exact lt_irrefl _ hlt

section Calls

variable [BEq Num]

theorem Standing.addChild (h : s.Standing) {self : Nat} {frame : Option Nat}
    {pos : Option Int} (hself : self < s.scene.layout.count)
    (hending : s.Ending (.addChild self frame pos)) :
    (s.reparent (s.scene.tree.addChild self frame pos)).Standing := by
  cases frame with
  | none => exact h
  | some frame =>
    cases hnone : s.scene.tree.parent frame with
    | some p =>
      rw [Frames.addChild, hnone]
      exact h
    | none =>
      obtain ⟨hcount, htree⟩ := Frames.parent_addChild hnone self pos
      refine h.reparent hcount htree fun d hd => ?_
      cases hd
      exact ⟨hself, hending hnone⟩

omit [Zero Num] [BEq Num] in
theorem Standing.removeChild (h : s.Standing) (self : Nat) (frame : Option Nat) :
    (s.reparent (s.scene.tree.removeChild self frame)).Standing := by
  cases frame with
  | none => exact h
  | some frame =>
    rw [Frames.removeChild]
    split
    · exact h.reparent rfl rfl fun d hd => absurd hd (Option.not_mem_none d)
    · exact h

omit [BEq Num] in
/-- **The event ends** when the calculations do, and keeps a rectangle of the frame that it starts
at. -/
theorem exists_layoutChange (hacyclic : Acyclic (s.scene.Calls s.kept)) (hbounded : s.scene.Bounded)
    (hdag : s.scene.layout.Dag) (self : Nat) : ∃ kept, s.layoutChange A self =
      some { s with kept } ∧ Scene.More s.kept kept ∧ (kept self).isSome := by
  obtain ⟨kept, hkept, hmore, hself⟩ :=
    Scene.exists_broadcastLayoutEvent (A := A) hacyclic hbounded hdag self
  exact ⟨kept, by rw [layoutChange, hkept, Option.map_some], hmore, hself⟩

omit [BEq Num] in
/-- **The frame gets a size.** -/
theorem Standing.sized (h : s.Standing) (self : Nat) (width height : Option Num) :
    ∃ s', (s.sized self width height).layoutChange A self = some s' ∧ s'.Standing := by
  have hsized : (s.sized self width height).Standing :=
    ⟨h.dag, h.keyed, h.targets, h.parents, h.acyclic, h.count, h.anchored⟩
  obtain ⟨kept, hkept, hmore, -⟩ :=
    exists_layoutChange (A := A) hsized.acyclic_calls hsized.bounded hsized.dag self
  exact ⟨_, hkept, hsized.more hmore⟩

/-- The state in which `SetPoint` sends its event. -/
def moved (s : Rects Num) (self : Nat) (layout : Layout Nat Num) (order : List Nat) : Rects Num :=
  { s with scene := { s.scene with layout, pairs := update s.scene.pairs self order } }

section Moved

variable {op : SetPoint Nat Num} {frame : Nat} {layout : Layout Nat Num} {order : List Nat}

omit [BEq Num] in
/-- The frames without rectangles are placed as before, but the frame of the call by its target. -/
theorem Standing.placedBy_moved (h : s.Standing)
    (hkeyed : (s.moved op.self layout order).scene.Keyed)
    (hanchors : layout.anchors = update s.scene.layout.anchors op.self
      (update (s.scene.layout.anchors op.self) op.point (some (op.asked frame))))
    {d F : Nat} (hd : (s.moved op.self layout order).scene.PlacedBy d F) (hF : s.kept F = none) :
    s.scene.tree.parent F = some d ∨ d = frame ∧ F = op.self := by
  obtain hd | ⟨-, hd⟩ := (hkeyed.placedBy_iff d F).mp hd
  · obtain ⟨rfl, rfl | ⟨p, -, t, ht, hframe⟩⟩ | ⟨-, hd⟩ :=
      (Layout.anchored_update (s := s.scene.layout) hanchors d F).mp hd
    · exact .inr ⟨rfl, rfl⟩
    · exact absurd ⟨p, t, ht, hframe⟩ (h.not_anchored hF)
    · exact absurd hd (h.not_anchored hF)
  · exact .inl hd

omit [BEq Num] in
theorem Standing.moved (h : s.Standing) (hdag : layout.Dag)
    (hcount : layout.count = s.scene.layout.count)
    (hkeyed : (s.moved op.self layout order).scene.Keyed)
    (hanchors : layout.anchors = update s.scene.layout.anchors op.self
      (update (s.scene.layout.anchors op.self) op.point (some (op.asked frame))))
    (hframe : frame < s.scene.layout.count) {kept : Kept Num} (hmore : Scene.More s.kept kept)
    (hself : (kept op.self).isSome) :
    Standing { s.moved op.self layout order with kept } where
  dag := hdag
  keyed := hkeyed
  targets d F hd := by
    rw [show ({ s.moved op.self layout order with kept } : Rects Num).scene.layout.count = _ from
      hcount]
    obtain ⟨rfl, rfl | ⟨p, -, t, ht, ht'⟩⟩ | ⟨-, hd⟩ :=
      (Layout.anchored_update (s := s.scene.layout) hanchors d F).mp hd
    · exact hframe
    · exact h.targets d _ ⟨p, t, ht, ht'⟩
    · exact h.targets d F hd
  parents F d hd := (h.parents F d hd).trans_eq hcount.symm
  acyclic := h.acyclic
  count := h.count.trans hcount.symm
  anchored F hF := by
    by_cases heq : F = op.self
    · exact heq ▸ hself
    · have hpairs : update s.scene.pairs op.self order F ≠ [] := hF
      rw [update_of_ne heq] at hpairs
      exact hmore F (h.anchored F hpairs)

end Moved

/-- **`SetPoint`** returns under the condition. -/
theorem Standing.setPoint (h : s.Standing) {op : SetPoint Nat Num} {order : List Nat}
    (hknown : s.Known (.setPoint op order)) (hending : s.Ending (.setPoint op order)) :
    ∃ s', s.setPoint A op order = some s' ∧ s'.Standing := by
  obtain ⟨⟨layout, sent⟩, hgot, hdag, hcount, hcases⟩ := h.dag.setAnchor hknown.1
  dsimp only at hdag hcount hcases
  rw [Rects.setPoint, hgot, Option.bind_some]
  obtain ⟨rfl, hanchors, -⟩ | ⟨rfl, frame, hframe, hmoves, hanchors, -⟩ := hcases
  · refine ⟨_, rfl, hdag, fun F p => ?_, fun d F hd => ?_, fun F d hd => ?_, h.acyclic,
      h.count.trans hcount.symm, h.anchored⟩
    · rw [hanchors]
      exact h.keyed F p
    · rw [Layout.Anchored, hanchors] at hd
      exact hcount.symm ▸ h.targets d F hd
    · exact hcount.symm ▸ h.parents F d hd
  · have hkeyed : (s.moved op.self layout order).scene.Keyed := h.keyed.setAnchor hanchors hknown.2
    have hlt := hknown.1.2 frame hframe
    have hstanding : ∀ kept, Scene.More s.kept kept → (kept op.self).isSome →
        Standing { s.moved op.self layout order with kept } :=
      fun _ hmore hself => h.moved hdag hcount hkeyed hanchors hlt hmore hself
    -- which frames there are does not depend on what is kept
    have hbounded : (s.moved op.self layout order).scene.Bounded :=
      (hstanding (fun F => some ⟨0, 0, 0, 0⟩) (fun _ _ => rfl) rfl).bounded
    have hacyclic : Acyclic ((s.moved op.self layout order).scene.Calls s.kept) := by
      cases hkept : s.kept op.self with
      | some r =>
        refine Scene.acyclic_calls h.acyclic_waits fun d F hd hdnone hF => ?_
        refine ⟨(h.placedBy_moved hkeyed hanchors hd hF).resolve_right fun hnew => ?_, hdnone, hF⟩
        rw [← hnew.2, hF] at hkept
        cases hkept
      | none =>
        refine Scene.acyclic_calls ((acyclic_insert_iff h.acyclic_waits).mpr
          (hending frame hframe hmoves hkept)) fun d F hd hdnone hF => ?_
        exact (h.placedBy_moved hkeyed hanchors hd hF).imp (fun hparent => ⟨hparent, hdnone, hF⟩) id
    obtain ⟨kept, hkept, hmore, hself⟩ := exists_layoutChange (A := A)
      (s := s.moved op.self layout order) hacyclic hbounded hdag op.self
    exact ⟨_, hkept, hstanding kept hmore hself⟩

/-- **Every call under the condition returns**, and keeps what the calls keep. -/
theorem Standing.call (h : s.Standing) {op : RectOp Num} (hknown : s.Known op)
    (hending : s.Ending op) : ∃ s', s.call A op = some s' ∧ s'.Standing := by
  have hsize : ∀ {self : Nat} {changed : Bool} {width height : Option Num}, ∃ s',
      (if changed then (s.sized self width height).layoutChange A self else some s) = some s' ∧
        s'.Standing := by
    intro self changed width height
    cases changed with
    | false => exact ⟨s, rfl, h⟩
    | true => exact h.sized ..
  cases op with
  | create parent => exact ⟨_, rfl, h.create hknown⟩
  | addChild self frame pos => exact ⟨_, rfl, h.addChild hknown.1 hending⟩
  | removeChild self frame => exact ⟨_, rfl, h.removeChild ..⟩
  | setPoint op order => exact h.setPoint hknown hending
  | setSize self width height => exact hsize
  | setWidth self width => exact hsize
  | setHeight self height => exact hsize
  | getRect self =>
    obtain ⟨got, hgot, hmore⟩ := h.getRect (A := A) self
    exact ⟨_, by rw [Rects.call, Rects.getRect, hgot, Option.map_some], h.more hmore⟩

/-- **What the condition excludes does not return**: `SetPoint` has set the anchor, and the
calculation that it starts comes back to its frame at every number of levels. -/
theorem Standing.endless (h : s.Standing) {op : SetPoint Nat Num} {order : List Nat} {frame : Nat}
    (hknown : s.Known (.setPoint op order)) (htarget : frame ∈ (s.within op).target)
    (hmoves : s.scene.layout.Moves (s.within op) frame) (hself : s.kept op.self = none)
    (hway : ReflTransGen s.Waits op.self frame) :
    ∃ layout, s.scene.layout.setAnchor (s.within op) = some (layout, true) ∧
      ∀ F, ReflTransGen s.Waits op.self F → ReflTransGen s.Waits F frame → ∀ depth,
        (s.moved op.self layout order).scene.calculateAbsRect A depth F s.kept = none := by
  obtain ⟨layout, hlayout⟩ := h.dag.setAnchor_of_moves hknown.1.1 htarget hmoves
  obtain ⟨got, hgot, -, -, hcases⟩ := h.dag.setAnchor hknown.1
  rw [hlayout] at hgot
  cases hgot
  refine ⟨layout, hlayout, fun F hdown hup depth => ?_⟩
  obtain ⟨hsent, -⟩ | ⟨-, frame', htarget', -, hanchors, -⟩ := hcases
  · cases hsent
  have hframe : frame' = frame := Option.some.inj (htarget'.symm.trans htarget)
  have horder : order = [op.point] := by
    have hperm := hknown.2
    rw [h.pairs_eq_nil hself] at hperm
    exact List.perm_singleton.mp hperm
  have hpairs : (s.moved op.self layout order).scene.pairs op.self = [op.point] :=
    (update_self ..).trans horder
  have hinputs : (s.moved op.self layout order).scene.inputs op.self =
      [⟨op.point, some frame, (op.asked frame).anchor, (op.asked frame).dx,
        (op.asked frame).dy⟩] := by
    have hanchor : (s.moved op.self layout order).scene.layout.anchors op.self op.point =
        some (op.asked frame) := by
      rw [hframe] at hanchors
      exact (congrFun (congrFun hanchors op.self) op.point).trans
        ((congrFun (update_self ..) _).trans (update_self ..))
    have hlist : (s.moved op.self layout order).scene.anchors op.self =
        [⟨op.point, some frame, (op.asked frame).anchor, (op.asked frame).dx,
          (op.asked frame).dy⟩] := by
      rw [Scene.anchors, hpairs, List.filterMap_cons, hanchor]
      rfl
    rw [Scene.inputs, hlist]
    rfl
  refine Scene.calculateAbsRect_eq_none (C := fun F => ReflTransGen s.Waits op.self F ∧
    ReflTransGen s.Waits F frame) (fun F hF => ?_) depth F ⟨hdown, hup⟩
  obtain heq | ⟨d, hd, hparent, hdnone, hFnone⟩ := ReflTransGen.cases_tail_iff _ _ _ |>.mp hF.1
  · subst heq
    exact ⟨hself, _, frame, hinputs, rfl, hway, .refl⟩
  · refine ⟨hFnone, ?_⟩
    have hne : F ≠ op.self := by
      rintro rfl
      exact h.acyclic_waits op.self (TransGen.tail' hd ⟨hparent, hdnone, hFnone⟩)
    have hnil : (s.moved op.self layout order).scene.pairs F = [] :=
      (update_of_ne hne ..).trans (h.pairs_eq_nil hFnone)
    exact ⟨_, d, Scene.inputs_of_nil hnil, hparent, hd, .head ⟨hparent, hdnone, hFnone⟩ hF.2⟩

/-- **`SetPoint` returns exactly under the condition.** -/
theorem Standing.setPoint_isSome_iff (h : s.Standing) {op : SetPoint Nat Num} {order : List Nat}
    (hknown : s.Known (.setPoint op order)) :
    (s.setPoint A op order).isSome ↔ s.Ending (.setPoint op order) := by
  constructor
  · intro hsome frame htarget hmoves hself hway
    obtain ⟨layout, hlayout, hendless⟩ := h.endless (A := A) hknown htarget hmoves hself hway
    rw [Rects.setPoint, hlayout, Option.bind_some, if_pos rfl] at hsome
    have hnone : (s.moved op.self layout order).layoutChange A op.self = none := by
      rw [layoutChange, Scene.broadcastLayoutEvent]
      exact congrArg (Option.map _) (congrArg (Option.bind · _)
        (hendless op.self .refl hway (layout.count + 1)))
    have hevent : ((s.moved op.self layout order).layoutChange A op.self).isSome := hsome
    rw [hnone] at hevent
    cases hevent
  · intro hending
    obtain ⟨s', hs', -⟩ := h.setPoint (A := A) hknown hending
    exact Option.isSome_of_eq_some hs'

/-! ## Runs -/

/-- **`GetRect` returns** for every frame in every state that calls under the condition lead to. -/
theorem rects_end (A : Arith Num) (calls : List (RectOp Num))
    (h : Along (step A) KeepsEnding (some init) calls) (k : Nat) :
    ∃ s ∈ run (step A) (some init) (calls.take k), ∀ F, s.Returns A F := by
  obtain ⟨s, hs, hstanding⟩ := exists_run_take init_standing (fun _ _ h => h.call) h k
  exact ⟨s, hs, hstanding.returns⟩

end Calls

/-- A frame is anchored to the root. -/
theorem rects_end_anchored :
    ∃ s ∈ run (step ints) (some init) (anchored.take 3), ∀ F, s.Returns ints F := by
  refine rects_end ints anchored ⟨fun _ _ _ => trivial, fun _ _ _ => trivial, ?_, trivial⟩ 3
  rintro s ⟨⟩ - frame ⟨⟩ - - hway
  obtain heq | ⟨d, -, hd, -⟩ := ReflTransGen.cases_tail_iff _ _ _ |>.mp hway
  · cases heq
  · cases hd

def nested : List (RectOp Int) := [.create none, .create (some 0), .create (some 1)]

def nest : Rects Int := ((init.create none).create (some 0)).create (some 1)

/-- The frame is anchored to the child of its child: no rectangle of the three is ever
calculated. -/
theorem grandchild_endless : run (step ints) (some init) nested = some nest ∧ ∃ layout,
    nest.scene.layout.setAnchor
      (nest.within ⟨0, TOPLEFT, some 2, none, none, none, fun _ => none⟩) = some (layout, true) ∧
    ∀ F < 3, ¬(nest.moved 0 layout [TOPLEFT]).Returns ints F := by
  have hstanding : nest.Standing := by
    refine ((init_standing.create ?_).create ?_).create ?_
    · intro f hf
      cases hf
    · decide
    · decide
  have hchild : nest.Waits 0 1 := ⟨rfl, rfl, rfl⟩
  have hgrandchild : nest.Waits 1 2 := ⟨rfl, rfl, rfl⟩
  have hmoves : nest.scene.layout.Moves
      (nest.within ⟨0, TOPLEFT, some 2, none, none, none, fun _ => none⟩) 2 := by
    refine ⟨by decide, nofun, fun hway => ?_⟩
    obtain heq | ⟨F, hF, -⟩ := ReflTransGen.cases_head_iff.mp hway
    · cases heq
    · exact absurd hF List.not_mem_nil
  have hknown : nest.Known
      (.setPoint ⟨0, TOPLEFT, some 2, none, none, none, fun _ => none⟩ [TOPLEFT]) := by decide
  obtain ⟨layout, hlayout, hendless⟩ :=
    hstanding.endless (A := ints) hknown rfl hmoves rfl (.tail (.single hchild) hgrandchild)
  have hnever : ∀ F, nest.kept F = none → ReflTransGen nest.Waits 0 F →
      ReflTransGen nest.Waits F 2 → ¬(nest.moved 0 layout [TOPLEFT]).Returns ints F := by
    rintro F hF hdown hup ⟨depth, hdepth⟩
    have hkept : (nest.moved 0 layout [TOPLEFT]).kept F = none := hF
    rw [Scene.getRectBy, hkept] at hdepth
    have hcalculate := hendless F hdown hup depth
    dsimp only at hdepth
    rw [show (nest.moved 0 layout [TOPLEFT]).scene.calculateAbsRect ints depth F
      (nest.moved 0 layout [TOPLEFT]).kept = none from hcalculate] at hdepth
    cases hdepth
  refine ⟨rfl, layout, hlayout, fun F hF => ?_⟩
  have hframe : F = 0 ∨ F = 1 ∨ F = 2 := by omega
  rcases hframe with rfl | rfl | rfl
  · exact hnever 0 rfl .refl (.tail (.single hchild) hgrandchild)
  · exact hnever 1 rfl (.single hchild) (.single hgrandchild)
  · exact hnever 2 rfl (.tail (.single hchild) hgrandchild) .refl

end Rects

end DWindow.UI
