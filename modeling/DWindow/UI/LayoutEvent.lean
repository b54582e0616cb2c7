import DWindow.UI.Rects

/-!
# The layout event

When a frame moves, `BroadcastLayoutEvent` recalculates it and every frame that layout edges lead
to from it, in the order of the edges.  Each recalculation may unsettle the frames that are placed
by the frame; when the event goes on to all of these, all rectangles are settled in the end
(`settled_of_broadcast`).
-/

namespace DWindow.UI

open Function Links Relation

namespace Scene

variable {Num : Type*} [Zero Num] {A : Arith Num} {s : Scene Num} {ρ ρ' ρ₁ : Kept Num}
  {B : Nat → Prop} {F self : Nat}

/-- No frame is placed by itself, through any number of frames, and a layout edge leads from a
frame that the other one is placed by. -/
structure Wired (s : Scene Num) : Prop where
  acyclic : Acyclic s.PlacedBy
  bounded : s.Bounded
  edges : ∀ F S, s.layout.Edge F S → s.PlacedBy F S
  edges_bounded : ∀ F S, s.layout.Edge F S → S < s.layout.count

/-- All kept rectangles are settled but those of `B`. -/
def SettledBut (s : Scene Num) (A : Arith Num) (B : Nat → Prop) (ρ : Kept Num) : Prop :=
  ∀ F, ¬B F → s.SettledAt A ρ F

/-- A frame is kept with all that it is placed by. -/
def Closed (s : Scene Num) (ρ : Kept Num) : Prop :=
  ∀ d F, s.PlacedBy d F → (ρ F).isSome → (ρ d).isSome

/-- Every frame that a layout edge leads to is kept. -/
def EdgesKept (s : Scene Num) (ρ : Kept Num) : Prop := ∀ F S, s.layout.Edge F S → (ρ S).isSome

/-- The event that starts at the frame goes on to every kept frame that is placed by one that it
comes to. -/
def Notified (s : Scene Num) (ρ : Kept Num) (self : Nat) : Prop :=
  ∀ d, ReflTransGen s.layout.Edge self d → ∀ H, (ρ H).isSome → s.PlacedBy d H → s.layout.Edge d H

/-- The same frames are kept. -/
def Same (ρ ρ' : Kept Num) : Prop := ∀ F, (ρ' F).isSome = (ρ F).isSome

theorem Closed.transGen (h : s.Closed ρ) {H : Nat} (hH : TransGen s.PlacedBy H F)
    (hF : (ρ F).isSome) : (ρ H).isSome := by
  induction hH using TransGen.head_induction_on with
  | single hlink => exact h _ _ hlink hF
  | head hlink _ ih => exact h _ _ hlink ih

/-- **A recalculation** of a frame that is kept with all that it is placed by. -/
theorem Closed.calculate (h : s.Closed ρ) (hwired : s.Wired) (hF : (ρ F).isSome) {depth : Nat}
    (hρ' : s.calculateAbsRect A depth F ρ = some ρ') :
    ∃ r, ρ' = update ρ F (some r) ∧ s.placed A ρ F = some r := by
  obtain ⟨ρ₁, r, rfl, hgrows, hplaced⟩ := calculateAbsRect_cases hwired.acyclic depth F ρ ρ' hρ'
  have hsame : ρ₁ = ρ := by
    funext H
    cases hH : ρ H with
    | some x => exact hgrows.ext H x hH
    | none =>
      cases hH₁ : ρ₁ H with
      | none => rfl
      | some x =>
        have hnew := hgrows.new H hH (Option.isSome_of_eq_some hH₁)
        have hsome := h.transGen hnew hF
        rw [hH] at hsome
        cases hsome
  rw [hsame] at hplaced ⊢
  exact ⟨r, rfl, hplaced⟩

/-- After the recalculation of a frame the frames that are placed by it may be unsettled. -/
theorem SettledBut.update (hwired : s.Wired) (h : s.SettledBut A B ρ) {r : Rect Num}
    (hplaced : s.placed A ρ F = some r) :
    s.SettledBut A (fun H => (B H ∧ H ≠ F) ∨ (ρ H).isSome ∧ s.PlacedBy F H)
      (update ρ F (some r)) := by
  have hself : ¬s.PlacedBy F F := fun hF => hwired.acyclic F (.single hF)
  intro H hH x hx
  rw [not_or, not_and, not_and] at hH
  by_cases heq : H = F
  · subst heq
    rw [Option.mem_def, update_self] at hx
    cases hx
    rw [← hplaced]
    refine placed_congr fun d hd => update_of_ne ?_ ..
    rintro rfl
    exact hself hd
  · rw [Option.mem_def, update_of_ne heq] at hx
    have hB : ¬B H := fun hB => hH.1 hB heq
    rw [← h H hB x hx]
    refine placed_congr fun d hd => update_of_ne ?_ ..
    rintro rfl
    exact hH.2 (Option.isSome_of_eq_some hx) hd

omit [Zero Num] in
theorem same_update {r : Rect Num} (hF : (ρ F).isSome) : Same ρ (update ρ F (some r)) := by
  intro H
  by_cases heq : H = F
  · rw [heq, update_self, hF]
    rfl
  · rw [update_of_ne heq]

/-- **The calls for a list of children**: the frames of the list are settled, if every call
settles its own and keeps the same frames. -/
theorem settledBut_foldlM {depth : Nat} {l : List Nat} {ρ' : Kept Num} {B : Nat → Prop}
    (hone : ∀ v ∈ l, ∀ (ρ₁ ρ₂ : Kept Num) (C : Nat → Prop), Same ρ ρ₁ → s.SettledBut A C ρ₁ →
      s.broadcastLayoutEvent A depth ρ₁ v = some ρ₂ →
        Same ρ₁ ρ₂ ∧ s.SettledBut A (fun H => C H ∧ H ≠ v) ρ₂) :
    ∀ {ρ₁ : Kept Num}, Same ρ ρ₁ → s.SettledBut A (fun H => B H ∨ H ∈ l) ρ₁ →
      l.foldlM (s.broadcastLayoutEvent A depth) ρ₁ = some ρ' →
        Same ρ ρ' ∧ s.SettledBut A B ρ' := by
  induction l with
  | nil =>
    intro ρ₁ hsame hbut h
    cases h
    exact ⟨hsame, fun H hH => hbut H fun hor => hor.elim hH List.not_mem_nil⟩
  | cons v l ih =>
    intro ρ₁ hsame hbut h
    rw [List.forall_mem_cons] at hone
    rw [List.foldlM_cons, Option.bind_eq_bind, Option.bind_eq_some_iff] at h
    obtain ⟨ρ₂, hρ₂, h⟩ := h
    obtain ⟨hsame₂, hbut₂⟩ := hone.1 ρ₁ ρ₂ _ hsame hbut hρ₂
    refine ih hone.2 (fun H => (hsame₂ H).trans (hsame H)) (fun H hH => hbut₂ H ?_) h
    rintro ⟨hor, hne⟩
    rcases hor with hB | hmem
    · exact hH (.inl hB)
    · exact hH (.inr ((List.mem_cons.mp hmem).resolve_left hne))

/-- **The event** settles the frame that it starts at and unsettles none. -/
theorem broadcastLayoutEvent_closed (hwired : s.Wired) : ∀ (depth F : Nat) (ρ ρ' : Kept Num)
    (B : Nat → Prop), s.Closed ρ → s.EdgesKept ρ → (ρ F).isSome → s.SettledBut A B ρ →
    s.Notified ρ F → s.broadcastLayoutEvent A depth ρ F = some ρ' →
    Same ρ ρ' ∧ s.SettledBut A (fun H => B H ∧ H ≠ F) ρ' := by
  intro depth
  induction depth with
  | zero => intro F ρ ρ' B _ _ _ _ _ h; cases h
  | succ depth ih =>
    intro F ρ ρ' B hclosed hkept hF hbut hnotified h
    rw [broadcastLayoutEvent, Option.bind_eq_some_iff] at h
    obtain ⟨ρ₀, hρ₀, h⟩ := h
    obtain ⟨r, rfl, hplaced⟩ := hclosed.calculate hwired hF hρ₀
    -- the children that are still to come are those that may be unsettled
    refine settledBut_foldlM (fun v hv ρ₁ ρ₂ C hsame hbut hρ₂ => ?_) (same_update hF)
      (fun H hH => ?_) h
    · exact ih v ρ₁ ρ₂ C
        (fun d H hd hH => by
          rw [hsame] at hH ⊢
          exact hclosed d H hd hH)
        (fun E S hES => by
          rw [hsame]
          exact hkept E S hES)
        (by rw [hsame]; exact hkept F v hv) hbut
        (fun d hd H hH hdH => hnotified d (.head hv hd) H (by rwa [hsame] at hH) hdH) hρ₂
    · refine hbut.update hwired hplaced H fun hor => hH ?_
      exact hor.imp id fun ⟨hsome, hplacedBy⟩ => hnotified F .refl H hsome hplacedBy

/-- **The event is the walk** with `CalculateAbsRect` for a handler. -/
theorem broadcastLayoutEvent_eq : ∀ depth : Nat, s.broadcastLayoutEvent A depth =
    broadcastTo (fun ρ F => s.calculateAbsRect A (s.layout.count + 1) F ρ)
      s.layout.layoutChilds depth := by
  intro depth
  induction depth with
  | zero => rfl
  | succ depth ih =>
    funext ρ F
    rw [broadcastLayoutEvent, broadcastTo, ih]

theorem isSome_broadcastLayoutEvent (hwired : s.Wired) (F : Nat) (ρ : Kept Num) :
    (s.broadcastLayoutEvent A (s.layout.count + 1) ρ F).isSome := by
  rw [broadcastLayoutEvent_eq]
  refine broadcastTo_ends (fun ρ F => ?_) (acyclic_swap.mpr (hwired.acyclic.mono hwired.edges))
    hwired.edges_bounded (Nat.lt_succ_self _) ρ F
  exact isSome_calculateAbsRect hwired.acyclic hwired.bounded F ρ

/-- **The event after a change of one frame**, which alone may be unsettled or not kept: all
rectangles are settled after it. -/
theorem settled_of_broadcast (hwired : s.Wired) (hothers : ∀ H, H ≠ self → s.SettledAt A ρ H)
    (hkept : ∀ F S, s.layout.Edge F S → S ≠ self → (ρ S).isSome) (hnotified : s.Notified ρ self) :
    ∃ ρ', s.broadcastLayoutEvent A (s.layout.count + 1) ρ self = some ρ' ∧ s.Settled A ρ' ∧
      (ρ' self).isSome ∧ (∀ H, (ρ H).isSome → (ρ' H).isSome) ∧
      ∀ H, (ρ' H).isSome → (ρ H).isSome ∨ H = self ∨ TransGen s.PlacedBy H self := by
  obtain ⟨ρ', hρ'⟩ :=
    Option.isSome_iff_exists.mp (isSome_broadcastLayoutEvent (A := A) hwired self ρ)
  refine ⟨ρ', hρ', ?_⟩
  rw [broadcastLayoutEvent, Option.bind_eq_some_iff] at hρ'
  obtain ⟨ρ₀, hρ₀, hρ'⟩ := hρ'
  obtain ⟨ρ₁, r, rfl, hgrows, hplaced⟩ := calculateAbsRect_cases hwired.acyclic _ self ρ ρ₀ hρ₀
  have hreach : ∀ d, ReflTransGen s.layout.Edge self d → ReflTransGen s.PlacedBy self d :=
    fun d hd => ReflTransGen.mono (fun F S => hwired.edges F S) _ _ hd
  -- what the calculation has added is not placed by a frame that the event comes to
  have hold : ∀ d, ReflTransGen s.layout.Edge self d → ∀ H, H = self ∨ (ρ₁ H).isSome →
      s.PlacedBy d H → (ρ H).isSome ∧ H ≠ self := by
    intro d hd H hH hdH
    have hcycle : TransGen s.PlacedBy self H := TransGen.tail' (hreach d hd) hdH
    have hne : H ≠ self := fun heq => hwired.acyclic self (heq ▸ hcycle)
    refine ⟨?_, hne⟩
    by_contra hnone
    rw [Option.not_isSome_iff_eq_none] at hnone
    exact hwired.acyclic self (hcycle.trans (hgrows.new H hnone (hH.resolve_left hne)))
  have hbut₁ : s.SettledBut A (· = self) ρ₁ := fun H hne => hgrows.settledAt (hothers H hne)
  have hbut := hbut₁.update hwired hplaced
  have hsome : ∀ H, (update ρ₁ self (some r) H).isSome ↔ H = self ∨ (ρ₁ H).isSome := by
    intro H
    by_cases heq : H = self
    · rw [heq, update_self]
      exact iff_of_true rfl (.inl rfl)
    · rw [update_of_ne heq]
      exact (or_iff_right heq).symm
  have hclosed : s.Closed (update ρ₁ self (some r)) := by
    intro d H hd hH
    rw [hsome] at hH ⊢
    by_cases heq : H = self
    · exact .inr (isSome_of_placed hplaced (heq ▸ hd))
    · obtain ⟨x, hx⟩ := Option.isSome_iff_exists.mp (hH.resolve_left heq)
      exact .inr (isSome_of_placed (hbut₁ H heq x hx) hd)
  have hedges : s.EdgesKept (update ρ₁ self (some r)) := by
    intro E S hES
    rw [hsome]
    by_cases heq : S = self
    · exact .inl heq
    · exact .inr (hgrows.ext.isSome (hkept E S hES heq))
  have hchilds : Same (update ρ₁ self (some r)) ρ' ∧ s.SettledBut A (fun _ => False) ρ' := by
    refine settledBut_foldlM (fun v hv ρ₂ ρ₃ C hsame hbut hρ₃ => ?_) (fun _ => rfl)
      (fun H hH => hbut H ?_) hρ'
    · exact broadcastLayoutEvent_closed hwired _ v ρ₂ ρ₃ C
        (fun d H hd hH => by
          rw [hsame] at hH ⊢
          exact hclosed d H hd hH)
        (fun E S hES => by
          rw [hsame]
          exact hedges E S hES)
        (by rw [hsame]; exact hedges self v hv) hbut
        (fun d hd H hH hdH => by
          rw [hsame, hsome] at hH
          exact hnotified d (.head hv hd) H (hold d (.head hv hd) H hH hdH).1 hdH) hρ₃
    · rintro (⟨heq, hne⟩ | ⟨hH₁, hplacedBy⟩)
      · exact hne heq
      · have hkeptH := (hold self .refl H (.inr hH₁) hplacedBy).1
        exact hH (.inr (hnotified self .refl H hkeptH hplacedBy))
  obtain ⟨hsame, hsettled⟩ := hchilds
  refine ⟨fun H => hsettled H id, ?_, fun H hH => ?_, fun H hH => ?_⟩
  · rw [hsame, hsome]
    exact .inl rfl
  · rw [hsame, hsome]
    exact .inr (hgrows.ext.isSome hH)
  · rw [hsame, hsome] at hH
    rcases hH with heq | hH
    · exact .inr (.inl heq)
    · cases hknown : ρ H with
      | none => exact .inr (.inr (hgrows.new H hknown hH))
      | some x => exact .inl rfl

/-! ## Scenes -/

/-- `pairs` walks the anchors that are there. -/
def Keyed (s : Scene Num) : Prop := ∀ F p, p ∈ s.pairs F ↔ (s.layout.anchors F p).isSome

variable {s' : Scene Num}

omit [Zero Num] in
theorem Keyed.anchors_eq_nil_iff (h : s.Keyed) (F : Nat) : s.anchors F = [] ↔ s.pairs F = [] := by
  constructor
  · intro hnil
    refine List.eq_nil_iff_forall_not_mem.mpr fun p hp => ?_
    obtain ⟨a, ha⟩ := Option.isSome_iff_exists.mp ((h F p).mp hp)
    rw [anchors, List.filterMap_eq_nil_iff] at hnil
    have hnone := hnil p hp
    rw [ha] at hnone
    cases hnone
  · intro hnil
    rw [anchors, hnil, List.filterMap_nil]

theorem inputs_congr (hpairs : s'.pairs F = s.pairs F)
    (hanchors : s'.layout.anchors F = s.layout.anchors F)
    (hparent : s'.tree.parent F = s.tree.parent F) : s'.inputs F = s.inputs F := by
  have hlist : s'.anchors F = s.anchors F := by rw [anchors, anchors, hpairs, hanchors]
  rw [inputs, inputs, hlist, hparent]

theorem inputs_of_nil (h : s.pairs F = []) :
    s.inputs F = [⟨TOPLEFT, s.tree.parent F, TOPLEFT, 0, 0⟩] := by
  rw [inputs, anchors, h]
  rfl

theorem Keyed.inputs_of_ne_nil (h : s.Keyed) (hF : s.pairs F ≠ []) :
    s.inputs F = s.anchors F := by
  refine if_neg fun hempty => hF ?_
  rwa [List.isEmpty_iff, h.anchors_eq_nil_iff] at hempty

theorem Keyed.placedBy_iff (h : s.Keyed) (d F : Nat) :
    s.PlacedBy d F ↔ s.layout.Anchored d F ∨ s.pairs F = [] ∧ s.tree.parent F = some d := by
  by_cases hF : s.pairs F = []
  · have hnone : ¬s.layout.Anchored d F := by
      rintro ⟨p, t, ht, -⟩
      have hp := (h F p).mpr (Option.isSome_of_mem ht)
      rw [hF] at hp
      exact List.not_mem_nil hp
    rw [PlacedBy, inputs_of_nil hF, or_iff_right hnone, and_iff_right hF]
    refine ⟨fun ⟨i, hi, hframe⟩ => ?_, fun hframe => ⟨_, List.mem_singleton_self _, hframe⟩⟩
    rw [List.mem_singleton] at hi
    rw [hi] at hframe
    exact hframe
  · rw [PlacedBy, h.inputs_of_ne_nil hF, or_iff_left fun hor => hF hor.1]
    constructor
    · rintro ⟨i, hi, hframe⟩
      obtain ⟨p, -, hp⟩ := List.mem_filterMap.mp hi
      rw [Option.map_eq_some_iff] at hp
      obtain ⟨a, ha, rfl⟩ := hp
      exact ⟨p, a, ha, Option.some.inj hframe⟩
    · rintro ⟨p, a, ha, rfl⟩
      refine ⟨⟨p, some a.frame, a.anchor, a.dx, a.dy⟩, List.mem_filterMap.mpr
        ⟨p, (h F p).mpr (Option.isSome_of_mem ha), ?_⟩, rfl⟩
      rw [Option.mem_def.mp ha, Option.map_some]

omit [Zero Num] in
theorem Keyed.setAnchor (h : s.Keyed) {op : SetPoint Nat Num}
    {layout : Layout Nat Num} {a : Anchor Nat Num} {order : List Nat}
    (hanchors : layout.anchors = update s.layout.anchors op.self
      (update (s.layout.anchors op.self) op.point (some a)))
    (horder : order.Perm (op.point :: (s.pairs op.self).erase op.point)) :
    Keyed { s with layout, pairs := update s.pairs op.self order } := by
  intro F p
  dsimp only
  rw [hanchors]
  by_cases hF : F = op.self
  · subst hF
    rw [update_self, update_self, horder.mem_iff]
    by_cases hp : p = op.point
    · rw [hp, update_self]
      exact iff_of_true (List.mem_cons_self ..) rfl
    · rw [update_of_ne hp, List.mem_cons, or_iff_right hp, List.mem_erase_of_ne hp]
      exact h _ p
  · rw [update_of_ne hF, update_of_ne hF]
    exact h F p

/-- The frame is placed the same way, with the same size. -/
structure SameAt (s s' : Scene Num) (F : Nat) : Prop where
  inputs : s'.inputs F = s.inputs F
  width : s'.width F = s.width F
  height : s'.height F = s.height F

theorem SameAt.placedBy_iff (h : s.SameAt s' F) (d : Nat) : s'.PlacedBy d F ↔ s.PlacedBy d F := by
  rw [PlacedBy, PlacedBy, h.inputs]

theorem SameAt.settledAt (h : s.SameAt s' F) (hF : s.SettledAt A ρ F) : s'.SettledAt A ρ F := by
  intro r hr
  rw [placed, h.inputs, h.width, h.height]
  exact hF r hr

/-- The way that an event goes does not come back to the frame that it starts at, so a change of
this frame alone changes nothing of it. -/
theorem Notified.congr (h : s.Notified ρ self) (hwired : s'.Wired)
    (hsame : ∀ H, H ≠ self → s.SameAt s' H)
    (hedge : ∀ F H, H ≠ self → (s'.layout.Edge F H ↔ s.layout.Edge F H)) :
    s'.Notified ρ self := by
  intro d hd H hH hdH
  have hway : ReflTransGen s.layout.Edge self d :=
    ReflTransGen.mono (fun F S hFS => (hedge F S hFS.2).mp hFS.1) _ _
      (reflTransGen_ne (hwired.acyclic.mono hwired.edges) hd)
  have hne : H ≠ self := by
    rintro rfl
    exact hwired.acyclic H (TransGen.tail' (ReflTransGen.mono hwired.edges _ _ hd) hdH)
  exact (hedge d H hne).mpr (h d hway H hH (((hsame H hne).placedBy_iff d).mp hdH))

end Scene

end DWindow.UI
