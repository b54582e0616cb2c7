import DWindow.UI.LayoutEvent

/-!
# Stale rectangles

Layout edges stand for anchors: a frame without anchors is placed by its parent and has no edge,
so it keeps its old rectangle when the parent moves, and when it changes its parent.  `never_stale`
says that nothing else goes wrong.
-/

namespace DWindow.UI

open Function Links Relation Runs

/-- All frames, and the rectangles that they keep. -/
structure Rects (Num : Type*) where
  scene : Scene Num
  kept : Kept Num

/-- A call; `order` is how `pairs` walks the anchors of the frame when the call has set one. -/
inductive RectOp (Num : Type*) where
  | create (parent : Option Nat)
  | addChild (self : Nat) (frame : Option Nat) (pos : Option Int)
  | removeChild (self : Nat) (frame : Option Nat)
  | setPoint (op : SetPoint Nat Num) (order : List Nat)
  | setSize (self : Nat) (width height : Option Num)
  | setWidth (self : Nat) (width : Option Num)
  | setHeight (self : Nat) (height : Option Num)
  | getRect (self : Nat)

namespace Rects

variable {Num : Type*}

def init : Rects Num :=
  ⟨⟨.init, .init 0, fun _ => [], fun _ => none, fun _ => none⟩, fun _ => none⟩

/-- `Create` before it adds the frame to its parent. -/
def blank (s : Rects Num) : Rects Num where
  scene :=
    { tree := s.scene.tree.create none
      layout := s.scene.layout.create
      pairs := update s.scene.pairs s.scene.layout.count []
      width := update s.scene.width s.scene.layout.count none
      height := update s.scene.height s.scene.layout.count none }
  kept := update s.kept s.scene.layout.count none

def reparent (s : Rects Num) (tree : Frames) : Rects Num :=
  { s with scene := { s.scene with tree } }

def create (s : Rects Num) (parent : Option Nat) : Rects Num :=
  s.blank.reparent (s.scene.tree.create parent)

/-- The call of `SetPoint` in the frame tree. -/
def within (s : Rects Num) (op : SetPoint Nat Num) : SetPoint Nat Num :=
  { op with parent := s.scene.tree.parent }

variable [Zero Num] (A : Arith Num)

/-- The event `OnLayoutChange`, sent to a frame. -/
def layoutChange (s : Rects Num) (self : Nat) : Option (Rects Num) :=
  (s.scene.broadcastLayoutEvent A (s.scene.layout.count + 1) s.kept self).map fun kept =>
    { s with kept }

def sized (s : Rects Num) (self : Nat) (width height : Option Num) : Rects Num :=
  { s with
    scene :=
      { s.scene with
        width := update s.scene.width self width
        height := update s.scene.height self height } }

def getRect (s : Rects Num) (self : Nat) : Option (Rects Num) :=
  (s.scene.getRect A self s.kept).map fun got => { s with kept := got.1 }

variable [BEq Num]

def setSize (s : Rects Num) (self : Nat) (width height : Option Num) : Option (Rects Num) :=
  if s.scene.width self != width || s.scene.height self != height then
    (s.sized self width height).layoutChange A self
  else some s

def setWidth (s : Rects Num) (self : Nat) (width : Option Num) : Option (Rects Num) :=
  if s.scene.width self != width then
    (s.sized self width (s.scene.height self)).layoutChange A self
  else some s

def setHeight (s : Rects Num) (self : Nat) (height : Option Num) : Option (Rects Num) :=
  if s.scene.height self != height then
    (s.sized self (s.scene.width self) height).layoutChange A self
  else some s

def setPoint (s : Rects Num) (op : SetPoint Nat Num) (order : List Nat) : Option (Rects Num) :=
  (s.scene.layout.setAnchor (s.within op)).bind fun got =>
    if got.2 then
      layoutChange A
        { s with
          scene :=
            { s.scene with layout := got.1, pairs := update s.scene.pairs op.self order } } op.self
    else some { s with scene := { s.scene with layout := got.1 } }

/-- A call; `none` stands for one that does not return. -/
def call (s : Rects Num) : RectOp Num → Option (Rects Num)
  | .create parent => some (s.create parent)
  | .addChild self frame pos => some (s.reparent (s.scene.tree.addChild self frame pos))
  | .removeChild self frame => some (s.reparent (s.scene.tree.removeChild self frame))
  | .setPoint op order => s.setPoint A op order
  | .setSize self width height => s.setSize A self width height
  | .setWidth self width => s.setWidth A self width
  | .setHeight self height => s.setHeight A self height
  | .getRect self => s.getRect A self

omit [Zero Num] [BEq Num] in
/-- The frames of the call are there, and the order is one of the anchors. -/
def Known (s : Rects Num) : RectOp Num → Prop
  | .create parent => ∀ f ∈ parent, f < s.scene.layout.count
  | .addChild self frame _ | .removeChild self frame =>
    self < s.scene.layout.count ∧ ∀ f ∈ frame, f < s.scene.layout.count
  | .setPoint op order => s.scene.layout.Known (s.within op) ∧
      order.Perm (op.point :: (s.scene.pairs op.self).erase op.point)
  | .setSize self _ _ | .setWidth self _ | .setHeight self _ | .getRect self =>
    self < s.scene.layout.count

instance (s : Rects Num) (op : RectOp Num) : Decidable (s.Known op) :=
  match op with
  | .create parent => inferInstanceAs (Decidable (∀ f ∈ parent, f < s.scene.layout.count))
  | .addChild self frame _ | .removeChild self frame => inferInstanceAs
    (Decidable (self < s.scene.layout.count ∧ ∀ f ∈ frame, f < s.scene.layout.count))
  | .setPoint op order => inferInstanceAs (Decidable (s.scene.layout.Known (s.within op) ∧
      order.Perm (op.point :: (s.scene.pairs op.self).erase op.point)))
  | .setSize self _ _ | .setWidth self _ | .setHeight self _ | .getRect self =>
    inferInstanceAs (Decidable (self < s.scene.layout.count))

def step (o : Option (Rects Num)) (op : RectOp Num) : Option (Rects Num) :=
  o.bind fun s => if s.Known op then s.call A op else some s

/-- **No rectangle is stale**: for every frame below the root `GetRect` returns what it returns
when nothing is kept. -/
def Exact (s : Rects Num) : Prop := ∀ F, ReflTransGen s.scene.tree.Below F 0 →
  ∃ r, (s.scene.getRect A F s.kept).map Prod.snd = some r ∧
    (s.scene.getRect A F fun _ => none).map Prod.snd = some r

/-- No frame that keeps a rectangle is placed by its parent alone while the parent changes: not by
an event that comes to the parent, and not because the frame gets or loses it.  Nor is a frame
placed by itself in the end. -/
def Careful (s : Rects Num) : RectOp Num → Prop
  | .addChild self (some frame) _ => s.scene.tree.parent frame = none → s.scene.pairs frame = [] →
      s.kept frame = none ∧ ¬ReflTransGen s.scene.PlacedBy frame self
  | .removeChild self (some frame) => s.scene.tree.parent frame = some self →
      s.scene.pairs frame = [] → s.kept frame = none
  | .setPoint op _ => ∀ frame ∈ (s.within op).target, s.scene.layout.Moves (s.within op) frame →
      ¬ReflTransGen s.scene.PlacedBy op.self frame ∧ s.scene.Notified s.kept op.self
  | .setSize self width height => s.scene.width self != width || s.scene.height self != height →
      s.scene.Notified s.kept self
  | .setWidth self width => s.scene.width self != width → s.scene.Notified s.kept self
  | .setHeight self height => s.scene.height self != height → s.scene.Notified s.kept self
  | _ => True

/-- The condition on a call of frames that are there. -/
def KeepsRects (o : Option (Rects Num)) (op : RectOp Num) : Prop :=
  ∀ s ∈ o, s.Known op → s.Careful op

/-! ## What the calls keep -/

/-- The scene has no cycles: `SetPoint` looks for those of layout edges, and the condition
excludes the others. -/
structure Shaped (s : Scene Num) : Prop where
  dag : s.layout.Dag
  keyed : s.Keyed
  edges : ∀ F S, s.layout.Edge F S → s.layout.Anchored F S
  acyclic : Acyclic s.PlacedBy
  bounded : s.Bounded
  count : s.tree.count = s.layout.count

omit [BEq Num] in
theorem Shaped.wired {s : Scene Num} (h : Shaped s) : s.Wired where
  acyclic := h.acyclic
  bounded := h.bounded
  edges F S hFS := (h.keyed.placedBy_iff F S).mpr (.inl (h.edges F S hFS))
  edges_bounded F S hFS := (h.dag.bounded F S hFS).2

/-- All rectangles that are kept are settled, and every frame with anchors keeps one. -/
structure Inv (A : Arith Num) (s : Rects Num) : Prop extends Shaped s.scene where
  anchored : ∀ F, s.scene.pairs F ≠ [] → (s.kept F).isSome
  settled : s.scene.Settled A s.kept

variable {A} {s : Rects Num}

omit [BEq Num] in
theorem Inv.exact (h : Inv A s) : s.Exact A := fun F _ =>
  Scene.getRect_of_settled h.acyclic h.bounded h.settled F

omit [BEq Num] in
theorem init_inv : Inv A (init : Rects Num) := by
  have hkeyed : (init : Rects Num).scene.Keyed := fun F p =>
    iff_of_false List.not_mem_nil Bool.false_ne_true
  have hnone : ∀ d F, ¬(init : Rects Num).scene.PlacedBy d F := by
    intro d F hd
    rw [hkeyed.placedBy_iff] at hd
    obtain ⟨p, t, ht, -⟩ | ⟨-, hparent⟩ := hd
    · cases ht
    · cases hparent
  exact
    { dag := Layout.init_dag 0
      keyed := hkeyed
      edges := fun F S hFS => absurd hFS List.not_mem_nil
      acyclic := fun a ha => by
        obtain ⟨b, hab, -⟩ := TransGen.head'_iff.mp ha
        exact hnone a b hab
      bounded := fun d F hd => absurd hd (hnone d F)
      count := rfl
      anchored := fun F hF => absurd rfl hF
      settled := Scene.settled_nothing }

/-! ### The frame tree -/

omit [BEq Num] in
/-- **One frame gets another parent**, or none: one that keeps no rectangle or does not need its
parent. -/
theorem Inv.reparent (h : Inv A s) {tree : Frames} (hcount : tree.count = s.scene.tree.count)
    {f : Nat} (hothers : ∀ F, F ≠ f → tree.parent F = s.scene.tree.parent F)
    (hf : s.scene.pairs f = [] → s.kept f = none ∧ ∀ d ∈ tree.parent f,
      d < s.scene.layout.count ∧ ¬ReflTransGen s.scene.PlacedBy f d) :
    Inv A (s.reparent tree) := by
  have hkeyed : (s.reparent tree).scene.Keyed := h.keyed
  have hsame : ∀ F, F ≠ f ∨ s.scene.pairs F ≠ [] → s.scene.SameAt (s.reparent tree).scene F := by
    intro F hF
    refine ⟨?_, rfl, rfl⟩
    by_cases hnil : s.scene.pairs F = []
    · rw [Scene.inputs_of_nil hnil, Scene.inputs_of_nil (s := (s.reparent tree).scene) hnil]
      show [_] = [(⟨TOPLEFT, s.scene.tree.parent F, TOPLEFT, 0, 0⟩ : Input Num)]
      rw [← hothers F (hF.resolve_right fun hne => hne hnil)]
      rfl
    · rw [h.keyed.inputs_of_ne_nil hnil, hkeyed.inputs_of_ne_nil hnil]
      rfl
  have hplacedBy : ∀ d F, (s.reparent tree).scene.PlacedBy d F → s.scene.PlacedBy d F ∨
      F = f ∧ s.scene.pairs f = [] ∧ tree.parent f = some d := by
    intro d F hd
    by_cases hF : F ≠ f ∨ s.scene.pairs F ≠ []
    · exact .inl (((hsame F hF).placedBy_iff d).mp hd)
    · rw [not_or, not_not, not_not] at hF
      obtain ⟨rfl, hnil⟩ := hF
      obtain hd | hd := (hkeyed.placedBy_iff d F).mp hd
      · exact .inl ((h.keyed.placedBy_iff d F).mpr (.inl hd))
      · exact .inr ⟨rfl, hd⟩
  refine ⟨⟨h.dag, hkeyed, h.edges, ?_, fun d F hd => ?_, hcount.trans h.count⟩, h.anchored,
    fun F r hr => ?_⟩
  · cases hparent : tree.parent f with
    | none =>
      refine h.acyclic.mono fun d F hd => (hplacedBy d F hd).resolve_right fun hd => ?_
      rw [hparent] at hd
      cases hd.2.2
    | some p =>
      by_cases hnil : s.scene.pairs f = []
      · refine Acyclic.mono ((acyclic_insert_iff h.acyclic).mpr ((hf hnil).2 p hparent).2)
          fun d F hd => (hplacedBy d F hd).imp id fun hd => ?_
        rw [hparent] at hd
        exact ⟨(Option.some.inj hd.2.2).symm, hd.1⟩
      · exact h.acyclic.mono fun d F hd => (hplacedBy d F hd).resolve_right fun hd => hnil hd.2.1
  · obtain hd | ⟨-, hnil, hparent⟩ := hplacedBy d F hd
    · exact h.bounded d F hd
    · exact ((hf hnil).2 d hparent).1
  · refine (hsame F ?_).settledAt (h.settled F) r hr
    by_contra hF
    rw [not_or, not_not, not_not] at hF
    obtain ⟨rfl, hnil⟩ := hF
    have hr' : s.kept F = some r := hr
    rw [(hf hnil).1] at hr'
    cases hr'

omit [Zero Num] [BEq Num] in
theorem keyed_blank (h : s.scene.Keyed) : s.blank.scene.Keyed := by
  intro F p
  rw [blank, Layout.create]
  dsimp only
  by_cases hF : F = s.scene.layout.count
  · rw [hF, update_self, update_self]
    exact iff_of_false List.not_mem_nil Bool.false_ne_true
  · rw [update_of_ne hF, update_of_ne hF]
    exact h F p

omit [BEq Num] in
theorem Shaped.sameAt_blank (h : Shaped s.scene) {F : Nat} (hF : F ≠ s.scene.layout.count) :
    s.scene.SameAt s.blank.scene F where
  inputs := Scene.inputs_congr (update_of_ne hF ..) (update_of_ne hF ..)
    (update_of_ne (by rwa [h.count]) ..)
  width := update_of_ne hF ..
  height := update_of_ne hF ..

omit [BEq Num] in
theorem Shaped.placedBy_blank (h : Shaped s.scene) {d F : Nat}
    (hd : s.blank.scene.PlacedBy d F) : s.scene.PlacedBy d F := by
  refine ((h.sameAt_blank ?_).placedBy_iff d).mp hd
  rintro rfl
  obtain ⟨p, t, ht, -⟩ | ⟨-, hparent⟩ := ((keyed_blank h.keyed).placedBy_iff d _).mp hd
  · rw [blank, Layout.create] at ht
    dsimp only at ht
    rw [update_self] at ht
    cases ht
  · rw [blank, Frames.create] at hparent
    dsimp only at hparent
    rw [h.count, update_self] at hparent
    cases hparent

omit [BEq Num] in
theorem Inv.blank (h : Inv A s) : Inv A s.blank := by
  have hkept : ∀ F, F ≠ s.scene.layout.count → s.blank.kept F = s.kept F := fun F hF =>
    update_of_ne hF ..
  refine ⟨⟨h.dag.create, keyed_blank h.keyed, fun F S hFS => ?_,
    h.acyclic.mono fun d F => h.placedBy_blank, fun d F hd => ?_, ?_⟩,
    fun F hF => ?_, fun F r hr => ?_⟩
  · have hFS' := (h.dag.edge_create F S).mp hFS
    exact (Layout.anchored_create _ F S).mpr ⟨(h.dag.bounded F S hFS').2.ne, h.edges F S hFS'⟩
  · exact Nat.lt_succ_of_lt (h.bounded d F (h.placedBy_blank hd))
  · rw [Rects.blank, Frames.create, Layout.create, h.count]
  · have hne : F ≠ s.scene.layout.count := by
      rintro rfl
      exact hF (update_self ..)
    have hpairs : s.blank.scene.pairs F = s.scene.pairs F := update_of_ne hne ..
    rw [hpairs] at hF
    rw [hkept F hne]
    exact h.anchored F hF
  · have hne : F ≠ s.scene.layout.count := by
      rintro rfl
      have hnone : s.blank.kept s.scene.layout.count = none := update_self ..
      rw [Option.mem_def, hnone] at hr
      cases hr
    rw [Option.mem_def, hkept F hne] at hr
    have hplaced := (h.sameAt_blank hne).settledAt (h.settled F) r hr
    rw [← hplaced]
    exact Scene.placed_congr fun d hd => hkept d (h.bounded d F (h.placedBy_blank hd)).ne

omit [BEq Num] in
theorem Inv.create (h : Inv A s) {parent : Option Nat}
    (hparent : ∀ f ∈ parent, f < s.scene.layout.count) : Inv A (s.create parent) := by
  obtain ⟨hcount, htree⟩ := Frames.parent_create s.scene.tree parent
  refine h.blank.reparent hcount (f := s.scene.layout.count) (fun F hF => ?_) fun _ => ?_
  · rw [← h.count] at hF
    rw [htree, update_of_ne hF]
    exact (update_of_ne hF ..).symm
  · refine ⟨update_self .., fun d hd => ?_⟩
    rw [htree, h.count, update_self] at hd
    have hlt := hparent d hd
    refine ⟨Nat.lt_succ_of_lt hlt, fun hway => ?_⟩
    obtain heq | ⟨F, hF, -⟩ := ReflTransGen.cases_head_iff.mp hway
    · exact hlt.ne heq.symm
    · exact (h.bounded _ F (h.placedBy_blank hF)).ne rfl

theorem Inv.addChild (h : Inv A s) {self : Nat} {frame : Option Nat} {pos : Option Int}
    (hself : self < s.scene.layout.count) (hcareful : s.Careful (.addChild self frame pos)) :
    Inv A (s.reparent (s.scene.tree.addChild self frame pos)) := by
  cases frame with
  | none => exact h
  | some frame =>
    cases hnone : s.scene.tree.parent frame with
    | some p =>
      rw [Frames.addChild, hnone]
      exact h
    | none =>
      obtain ⟨hcount, htree⟩ := Frames.parent_addChild hnone self pos
      refine h.reparent hcount (f := frame) (fun F hF => ?_) fun hnil => ?_
      · rw [htree, update_of_ne hF]
      · obtain ⟨hkept, hfree⟩ := hcareful hnone hnil
        refine ⟨hkept, fun d hd => ?_⟩
        rw [htree, update_self] at hd
        cases hd
        exact ⟨hself, hfree⟩

theorem Inv.removeChild (h : Inv A s) {self : Nat} {frame : Option Nat}
    (hcareful : s.Careful (.removeChild self frame)) :
    Inv A (s.reparent (s.scene.tree.removeChild self frame)) := by
  cases frame with
  | none => exact h
  | some frame =>
    rw [Frames.removeChild]
    split
    · next hparent =>
      refine h.reparent rfl (f := frame) (fun F hF => update_of_ne hF ..) fun hnil => ?_
      refine ⟨hcareful hparent hnil, fun d hd => ?_⟩
      dsimp only at hd
      rw [update_self] at hd
      cases hd
    · exact h

/-! ### Calls that send the event -/

omit [BEq Num] in
/-- **A change of one frame, and the event** that it sends. -/
theorem Inv.layoutChange (h : Inv A s) {scene : Scene Num} {self : Nat} (hshaped : Shaped scene)
    (hsame : ∀ F, F ≠ self → s.scene.SameAt scene F)
    (hpairs : ∀ F, F ≠ self → scene.pairs F = s.scene.pairs F)
    (hedge : ∀ F S, S ≠ self → (scene.layout.Edge F S ↔ s.scene.layout.Edge F S))
    (hnotified : s.scene.Notified s.kept self) :
    ∃ s', ({ scene, kept := s.kept } : Rects Num).layoutChange A self = some s' ∧ Inv A s' := by
  have hwired := hshaped.wired
  have hkept : ∀ F S, scene.layout.Edge F S → S ≠ self → (s.kept S).isSome := by
    intro F S hFS hS
    refine h.anchored S fun hnil => ?_
    obtain ⟨p, t, ht, -⟩ := h.edges F S ((hedge F S hS).mp hFS)
    have hp := (h.keyed S p).mpr (Option.isSome_of_mem ht)
    rw [hnil] at hp
    exact List.not_mem_nil hp
  obtain ⟨kept, hsent, hsettled, hself, hgrows, -⟩ := Scene.settled_of_broadcast (A := A) hwired
    (fun F hF => (hsame F hF).settledAt (h.settled F)) hkept (hnotified.congr hwired hsame hedge)
  refine ⟨⟨scene, kept⟩, by rw [Rects.layoutChange, hsent, Option.map_some], hshaped,
    fun F hF => ?_, hsettled⟩
  by_cases heq : F = self
  · exact heq ▸ hself
  · rw [hpairs F heq] at hF
    exact hgrows F (h.anchored F hF)

omit [BEq Num] in
/-- **The frame gets a size.** -/
theorem Inv.sized (h : Inv A s) {self : Nat} (hnotified : s.scene.Notified s.kept self)
    (width height : Option Num) :
    ∃ s', (s.sized self width height).layoutChange A self = some s' ∧ Inv A s' :=
  h.layoutChange ⟨h.dag, h.keyed, h.edges, h.acyclic, h.bounded, h.count⟩
    (fun _ hF => ⟨rfl, update_of_ne hF .., update_of_ne hF ..⟩) (fun _ _ => rfl)
    (fun _ _ _ => Iff.rfl) hnotified

omit [BEq Num] in
theorem Shaped.setAnchor {s : Scene Num} (h : Shaped s) {op : SetPoint Nat Num} {frame : Nat}
    {layout : Layout Nat Num} {order : List Nat} (hdag : layout.Dag)
    (hcount : layout.count = s.layout.count)
    (hanchors : layout.anchors = update s.layout.anchors op.self
      (update (s.layout.anchors op.self) op.point (some (op.asked frame))))
    (hedge : ∀ F S, layout.Edge F S ↔ Links.insert (s.layout.dropped op).Edge frame op.self F S)
    (hframe : frame < s.layout.count)
    (horder : order.Perm (op.point :: (s.pairs op.self).erase op.point))
    (hfree : ¬ReflTransGen s.PlacedBy op.self frame) :
    Shaped { s with layout, pairs := update s.pairs op.self order } := by
  have hkeyed : Scene.Keyed { s with layout, pairs := update s.pairs op.self order } :=
    h.keyed.setAnchor hanchors horder
  have hanchored := Layout.anchored_update (s := s.layout) hanchors
  have hplacedBy : ∀ d F,
      Scene.PlacedBy { s with layout, pairs := update s.pairs op.self order } d F →
        Links.insert s.PlacedBy frame op.self d F := by
    intro d F hd
    obtain hd | ⟨hnil, hparent⟩ := (hkeyed.placedBy_iff d F).mp hd
    · obtain ⟨rfl, rfl | ⟨p, -, t, ht, hframe⟩⟩ | ⟨-, hd⟩ := (hanchored d F).mp hd
      · exact .inr ⟨rfl, rfl⟩
      · exact .inl ((h.keyed.placedBy_iff d _).mpr (.inl ⟨p, t, ht, hframe⟩))
      · exact .inl ((h.keyed.placedBy_iff d F).mpr (.inl hd))
    · refine .inl ((h.keyed.placedBy_iff d F).mpr (.inr ⟨?_, hparent⟩))
      dsimp only at hnil
      by_cases hF : F = op.self
      · rw [hF, update_self] at hnil
        rw [hnil] at horder
        cases horder.symm.eq_nil
      · rwa [update_of_ne hF] at hnil
  refine ⟨hdag, hkeyed, fun F S hFS => ?_, ?_, fun d F hd => ?_, h.count.trans hcount.symm⟩
  · rw [hanchored]
    obtain hFS | ⟨rfl, rfl⟩ := (hedge F S).mp hFS
    · obtain ⟨hFS, hother⟩ := (h.dag.edge_dropped op F S).mp hFS
      obtain ⟨p, t, ht, rfl⟩ := h.edges F S hFS
      by_cases hS : S = op.self
      · subst hS
        exact .inl ⟨rfl, .inr ⟨p, fun hp => hother t (hp ▸ ht) ⟨rfl, rfl⟩, t, ht, rfl⟩⟩
      · exact .inr ⟨hS, p, t, ht, rfl⟩
    · exact .inl ⟨rfl, .inl rfl⟩
  · exact Acyclic.mono ((acyclic_insert_iff h.acyclic).mpr hfree) hplacedBy
  · obtain hd | ⟨rfl, -⟩ := hplacedBy d F hd
    · exact hcount.symm ▸ h.bounded d F hd
    · exact hcount.symm ▸ hframe

theorem Inv.setPoint (h : Inv A s) {op : SetPoint Nat Num} {order : List Nat}
    (hknown : s.Known (.setPoint op order)) (hcareful : s.Careful (.setPoint op order)) :
    ∃ s', s.setPoint A op order = some s' ∧ Inv A s' := by
  obtain ⟨⟨layout, sent⟩, hgot, hdone⟩ := h.dag.setAnchor hknown.1
  obtain ⟨hdag, hcount, hcases⟩ := hdone
  dsimp only at hdag hcount hcases
  rw [Rects.setPoint, hgot, Option.bind_some]
  obtain ⟨rfl, hanchors, hedge⟩ | ⟨rfl, frame, hframe, hmoves, hanchors, hedge⟩ := hcases
  · -- at most edges are gone
    have hinputs : ∀ F, ({ s.scene with layout } : Scene Num).inputs F = s.scene.inputs F :=
      fun F => Scene.inputs_congr rfl (congrFun hanchors F) rfl
    have hplacedBy : ∀ d F, ({ s.scene with layout } : Scene Num).PlacedBy d F ↔
        s.scene.PlacedBy d F := fun d F => by rw [Scene.PlacedBy, hinputs, Scene.PlacedBy]
    refine ⟨_, rfl, ⟨hdag, fun F p => ?_, fun F S hFS => ?_,
      (acyclic_congr hplacedBy).mpr h.acyclic, fun d F hd => ?_, h.count.trans hcount.symm⟩,
      h.anchored, fun F => ?_⟩
    · rw [hanchors]
      exact h.keyed F p
    · obtain ⟨p, t, ht, hframe⟩ := h.edges F S (hedge F S hFS)
      exact ⟨p, t, by rwa [hanchors], hframe⟩
    · exact hcount.symm ▸ h.bounded d F ((hplacedBy d F).mp hd)
    · exact Scene.SameAt.settledAt ⟨hinputs F, rfl, rfl⟩ (h.settled F)
  · obtain ⟨hfree, hnotified⟩ := hcareful frame hframe hmoves
    have hother : ∀ F, F ≠ op.self → layout.anchors F = s.scene.layout.anchors F := fun F hF => by
      rw [hanchors]
      exact update_of_ne hF ..
    have hedge' : ∀ F S, S ≠ op.self → (layout.Edge F S ↔ s.scene.layout.Edge F S) := by
      intro F S hS
      rw [hedge, Links.insert, h.dag.edge_dropped]
      exact ⟨fun hFS => hFS.elim And.left fun hFS => absurd hFS.2 hS,
        fun hFS => .inl ⟨hFS, fun t _ ht => hS ht.2⟩⟩
    exact h.layoutChange (h.toShaped.setAnchor hdag hcount hanchors hedge
      (hknown.1.2 frame hframe) hknown.2 hfree)
      (fun F hF => ⟨Scene.inputs_congr (update_of_ne hF ..) (hother F hF) rfl, rfl, rfl⟩)
      (fun F hF => update_of_ne hF ..) hedge' hnotified

/-! ## Runs -/

omit [BEq Num] in
theorem Inv.getRect (h : Inv A s) (self : Nat) : ∃ s', s.getRect A self = some s' ∧ Inv A s' := by
  obtain ⟨kept, r, hget, -, hgrows, hsettled⟩ := h.settled.getRect h.acyclic h.bounded self
  refine ⟨{ s with kept }, by rw [Rects.getRect, hget, Option.map_some], h.toShaped,
    fun F hF => hgrows.ext.isSome (h.anchored F hF), hsettled⟩

/-- **Every call under the condition returns and leaves all rectangles settled.** -/
theorem Inv.call (h : Inv A s) {op : RectOp Num} (hknown : s.Known op) (hcareful : s.Careful op) :
    ∃ s', s.call A op = some s' ∧ Inv A s' := by
  have hsize : ∀ {self : Nat} {changed : Bool} {width height : Option Num},
      (changed → s.scene.Notified s.kept self) → ∃ s',
        (if changed then (s.sized self width height).layoutChange A self else some s) = some s' ∧
          Inv A s' := by
    intro self changed width height hnotified
    cases changed with
    | false => exact ⟨s, rfl, h⟩
    | true => exact h.sized (hnotified rfl) width height
  cases op with
  | create parent => exact ⟨_, rfl, h.create hknown⟩
  | addChild self frame pos => exact ⟨_, rfl, h.addChild hknown.1 hcareful⟩
  | removeChild self frame => exact ⟨_, rfl, h.removeChild hcareful⟩
  | setPoint op order => exact h.setPoint hknown hcareful
  | setSize self width height => exact hsize hcareful
  | setWidth self width => exact hsize hcareful
  | setHeight self height => exact hsize hcareful
  | getRect self => exact h.getRect self

/-- **What every call under a condition keeps**, with a result, holds in every state that such calls
lead to. -/
theorem exists_run_take {ok : Rects Num → RectOp Num → Prop} {inv : Rects Num → Prop}
    (hinit : inv init)
    (hcall : ∀ s op, inv s → s.Known op → ok s op → ∃ s', s.call A op = some s' ∧ inv s')
    {calls : List (RectOp Num)}
    (h : Along (step A) (fun o op => ∀ s ∈ o, s.Known op → ok s op) (some init) calls) (k : Nat) :
    ∃ s ∈ run (step A) (some init) (calls.take k), inv s := by
  refine along_run (fun o : Option (Rects Num) => ∃ s ∈ o, inv s) (fun o op ho hok => ?_)
    (calls.take k) (some init) ⟨init, rfl, hinit⟩ (along_take h k)
  obtain ⟨s, rfl, hinv⟩ := ho
  rw [step, Option.bind_some]
  split
  · next hknown => exact hcall s op hinv hknown (hok s rfl hknown)
  · exact ⟨s, rfl, hinv⟩

/-- **No rectangle is ever stale** when every call meets the condition. -/
theorem never_stale (A : Arith Num) (calls : List (RectOp Num))
    (h : Along (step A) KeepsRects (some init) calls) (k : Nat) :
    ∃ s ∈ run (step A) (some init) (calls.take k), s.Exact A := by
  obtain ⟨s, hs, hinv⟩ := exists_run_take init_inv (fun _ _ (h : Inv A _) => h.call) h k
  exact ⟨s, hs, hinv.exact⟩

def ints : Arith Int where
  add x y := x + y
  sub x y := x - y
  half x := x / 2
  double x := x * 2
  floor x := x
  width := 500
  height := 500

def anchored : List (RectOp Int) :=
  [.create none, .create (some 0),
    .setPoint ⟨1, TOPLEFT, some 0, none, none, none, fun _ => none⟩ [TOPLEFT]]

theorem never_stale_anchored :
    ∃ s ∈ run (step ints) (some init) (anchored.take 3), s.Exact ints := by
  refine never_stale ints anchored ⟨fun _ _ _ => trivial, fun _ _ _ => trivial, ?_, trivial⟩ 3
  rintro s ⟨⟩ - frame ⟨⟩ -
  refine ⟨fun hway => ?_, fun d _ H hH => ?_⟩
  · -- no frame is placed by frame 1
    obtain heq | ⟨H, ⟨i, hi, hframe⟩, -⟩ := ReflTransGen.cases_head_iff.mp hway
    · cases heq
    · rw [Scene.inputs_of_nil (by simp [init, create, blank, reparent]), List.mem_singleton] at hi
      rw [hi] at hframe
      simp [init, create, blank, reparent, Frames.create, Frames.addChild, Frames.init,
        Frames.tableInsert, update_apply] at hframe
  · simp [init, create, blank, reparent] at hH

/-- A frame moves, and one inside of it that is not anchored keeps its rectangle. -/
theorem stale_inside : ¬∃ s ∈ run (step ints) (some init) (anchored ++
    [.create (some 1), .getRect 2,
      .setPoint ⟨1, TOPLEFT, some 0, none, some 10, none, fun _ => none⟩ [TOPLEFT]]),
    s.Exact ints := by
  rintro ⟨s, hs, hexact⟩
  have hrun : (run (step ints) (some init) (anchored ++ [.create (some 1), .getRect 2,
      .setPoint ⟨1, TOPLEFT, some 0, none, some 10, none, fun _ => none⟩ [TOPLEFT]])).map
      (fun s => (s.scene.tree.parent 2, s.scene.tree.parent 1,
        (s.scene.getRect ints 2 s.kept).map Prod.snd,
        (s.scene.getRect ints 2 fun _ => none).map Prod.snd)) =
      some (some 1, some 0, some ⟨0, 0, 0, 0⟩, some ⟨10, 0, 0, 0⟩) := by
    decide
  rw [Option.mem_def.mp hs, Option.map_some, Option.some.injEq, Prod.mk.injEq, Prod.mk.injEq,
    Prod.mk.injEq] at hrun
  obtain ⟨htwo, hone, hkept, hscratch⟩ := hrun
  obtain ⟨r, hr, hr'⟩ := hexact 2 (.tail (.single htwo) hone)
  rw [hkept] at hr
  rw [hscratch, ← hr] at hr'
  cases hr'

end Rects

end DWindow.UI
