import DWindow.Lib.Fallible
import DWindow.UI.Cycles

/-!
# Rectangles of frames

`CalculateAbsRect` places a frame by its anchors, or by its parent when it has none, and keeps
the rectangle; `GetRect` calculates a rectangle only when there is none yet.  A frame is placed
by the frames that it looks at (`PlacedBy`).  What is kept is right when every kept rectangle is
what the frame's place gives with the kept rectangles of the frames it is placed by (`Settled`):
then `GetRect` returns what a calculation from scratch returns (`getRect_of_settled`).
-/

namespace DWindow.UI

open Function Links Relation

/-- What Lua computes with coordinates, and the size of the window. -/
structure Arith (Num : Type*) where
  add : Num → Num → Num
  sub : Num → Num → Num
  /-- `/2` -/
  half : Num → Num
  /-- `*2` -/
  double : Num → Num
  /-- `math.floor` -/
  floor : Num → Num
  /-- `ui.width or 500` -/
  width : Num
  /-- `ui.height or 500` -/
  height : Num

structure Rect (Num : Type*) where
  left : Num
  top : Num
  right : Num
  bottom : Num
deriving DecidableEq

/-- The local variables of `CalculateAbsRect`. -/
structure Edges (Num : Type*) where
  left : Option Num
  right : Option Num
  xcenter : Option Num
  top : Option Num
  bottom : Option Num
  ycenter : Option Num

/-- A round of the loop of `CalculateAbsRect`: `frame` is `parameter.frame or self.parent`. -/
structure Input (Num : Type*) where
  point : Nat
  frame : Option Nat
  anchor : Nat
  dx : Num
  dy : Num

/-- All that rectangles depend on: the frame tree, the anchors, the order in which `pairs` walks
the anchors of each frame, and the sizes. -/
structure Scene (Num : Type*) where
  tree : Frames
  layout : Layout Nat Num
  pairs : Nat → List Nat
  width : Nat → Option Num
  height : Nat → Option Num

/-- The rectangles that are kept in the frames. -/
abbrev Kept (Num : Type*) := Nat → Option (Rect Num)

def LEFT : Nat := 1
def RIGHT : Nat := 2
def TOP : Nat := 4
def BOTTOM : Nat := 8
def TOPLEFT : Nat := TOP + LEFT

variable {Num : Type*} (A : Arith Num)

/-- `GetPoint` of a frame with this rectangle. -/
def Rect.getPoint (r : Rect Num) (point : Nat) : Num × Num :=
  let w := A.sub r.right r.left
  let h := A.sub r.bottom r.top
  let px :=
    if point &&& LEFT = LEFT then r.left
    else if point &&& RIGHT = RIGHT then A.add r.left w
    else A.add r.left (A.half w)
  let py :=
    if point &&& TOP = TOP then r.top
    else if point &&& BOTTOM = BOTTOM then A.add r.top h
    else A.add r.top (A.half h)
  (px, py)

/-- The two edges of an axis, from edges, center and size. -/
def span (low high center size : Option Num) : Option Num × Option Num :=
  match low, high, center, size with
  | some low, some high, _, _ => (some low, some high)
  | some low, none, some center, _ => (some low, some (A.add low (A.double (A.sub center low))))
  | none, some high, some center, _ => (some (A.sub high (A.double (A.sub high center))), some high)
  | some low, none, none, some size => (some low, some (A.add low size))
  | none, some high, none, some size => (some (A.sub high size), some high)
  | none, none, some center, some size =>
    (some (A.floor (A.sub center (A.half size))), some (A.floor (A.add center (A.half size))))
  | low, high, _, _ => (low, high)

namespace Edges

def none : Edges Num := ⟨.none, .none, .none, .none, .none, .none⟩

/-- The point is at `x`, `y`. -/
def set (e : Edges Num) (point : Nat) (x y : Num) : Edges Num :=
  let e : Edges Num :=
    if point &&& LEFT = LEFT then { e with left := some x }
    else if point &&& RIGHT = RIGHT then { e with right := some x }
    else { e with xcenter := some x }
  if point &&& TOP = TOP then { e with top := some y }
  else if point &&& BOTTOM = BOTTOM then { e with bottom := some y }
  else { e with ycenter := some y }

/-- The point is at an anchor of a frame with this rectangle. -/
def anchored (e : Edges Num) (i : Input Num) (r : Rect Num) : Edges Num :=
  let p := r.getPoint A i.anchor
  e.set i.point (A.add p.1 i.dx) (A.add p.2 i.dy)

/-- The end of `CalculateAbsRect`. -/
def finish [Zero Num] (e : Edges Num) (width height : Option Num) : Rect Num :=
  let x := span A e.left e.right e.xcenter width
  let y := span A e.top e.bottom e.ycenter height
  ⟨x.1.getD 0, y.1.getD 0, x.2.getD 0, y.2.getD 0⟩

end Edges

variable [Zero Num]

def Edges.screen (e : Edges Num) : Edges Num :=
  { e with left := some 0, top := some 0, right := some A.width, bottom := some A.height }

namespace Scene

variable (s : Scene Num)

/-- The anchors of a frame in the order of `pairs`. -/
def anchors (F : Nat) : List (Input Num) :=
  (s.pairs F).filterMap fun p => (s.layout.anchors F p).map fun a =>
    ⟨p, some a.frame, a.anchor, a.dx, a.dy⟩

/-- What `CalculateAbsRect` loops over; the default anchor is the corner of the parent. -/
def inputs (F : Nat) : List (Input Num) :=
  if (s.anchors F).isEmpty then [⟨TOPLEFT, s.tree.parent F, TOPLEFT, 0, 0⟩] else s.anchors F

/-- `GetRect`, with what it keeps. -/
def getRectBy (calculate : Nat → Kept Num → Option (Kept Num)) (F : Nat) (ρ : Kept Num) :
    Option (Kept Num × Rect Num) :=
  match ρ F with
  | some r => some (ρ, r)
  | none => (calculate F ρ).bind fun ρ => (ρ F).map fun r => (ρ, r)

/-- The loop of `CalculateAbsRect`. -/
def place (calculate : Nat → Kept Num → Option (Kept Num)) (acc : Kept Num × Edges Num)
    (i : Input Num) : Option (Kept Num × Edges Num) :=
  match i.frame with
  | none => some (acc.1, acc.2.screen A)
  | some frame => (getRectBy calculate frame acc.1).map fun got =>
      (got.1, acc.2.anchored A i got.2)

/-- `CalculateAbsRect`, with at most `depth` levels of calls. -/
def calculateAbsRect : Nat → Nat → Kept Num → Option (Kept Num)
  | 0, _, _ => none
  | depth + 1, F, ρ =>
    ((s.inputs F).foldlM (place A (calculateAbsRect depth)) (ρ, .none)).map fun acc =>
      update acc.1 F (some (acc.2.finish A (s.width F) (s.height F)))

/-- `GetRect` with as many levels of calls as there are frames. -/
def getRect (F : Nat) (ρ : Kept Num) : Option (Kept Num × Rect Num) :=
  getRectBy (s.calculateAbsRect A (s.layout.count + 1)) F ρ

/-- `BroadcastLayoutEvent("OnLayoutChange")`. -/
def broadcastLayoutEvent : Nat → Kept Num → Nat → Option (Kept Num)
  | 0, _, _ => none
  | depth + 1, ρ, F =>
    (s.calculateAbsRect A (s.layout.count + 1) F ρ).bind fun ρ =>
      (s.layout.layoutChilds F).foldlM (broadcastLayoutEvent depth) ρ

/-- The frame `d` is looked at when `F` is placed. -/
def PlacedBy (d F : Nat) : Prop := ∃ i ∈ s.inputs F, i.frame = some d

/-- One anchor, where the frame it is on has a rectangle. -/
def placeOne (ρ : Kept Num) (e : Edges Num) (i : Input Num) : Option (Edges Num) :=
  match i.frame with
  | none => some (e.screen A)
  | some frame => (ρ frame).map fun r => e.anchored A i r

/-- The rectangle of a frame when those that it is placed by are kept. -/
def placed (ρ : Kept Num) (F : Nat) : Option (Rect Num) :=
  ((s.inputs F).foldlM (placeOne A ρ) .none).map fun e => e.finish A (s.width F) (s.height F)

/-- The kept rectangle of the frame, if there is one, is that of its place. -/
def SettledAt (ρ : Kept Num) (F : Nat) : Prop := ∀ r ∈ ρ F, s.placed A ρ F = some r

/-- **All kept rectangles are settled.** -/
def Settled (ρ : Kept Num) : Prop := ∀ F, s.SettledAt A ρ F

variable {s : Scene Num} {A} {ρ ρ' ρ₁ ρ₂ : Kept Num} {F : Nat} {R : Nat → Prop}

/-! ## Places -/

theorem placed_congr (h : ∀ d, s.PlacedBy d F → ρ d = ρ' d) : s.placed A ρ F = s.placed A ρ' F := by
  rw [placed, placed]
  refine congrArg _ (Fallible.foldlM_congr _ fun i hi e => ?_)
  rw [placeOne, placeOne]
  split
  · rfl
  · next frame hframe => rw [h frame ⟨i, hi, hframe⟩]

/-- A frame with a place is placed by frames that are kept. -/
theorem isSome_of_placed {r : Rect Num} (h : s.placed A ρ F = some r) {d : Nat}
    (hd : s.PlacedBy d F) : (ρ d).isSome := by
  rw [placed, Option.map_eq_some_iff] at h
  obtain ⟨e, he, -⟩ := h
  obtain ⟨i, hi, hframe⟩ := hd
  obtain ⟨t, t', ht⟩ := Fallible.exists_of_foldlM he i hi
  rw [placeOne, hframe] at ht
  dsimp only at ht
  rw [Option.map_eq_some_iff] at ht
  obtain ⟨r', hr', -⟩ := ht
  exact Option.isSome_of_eq_some hr'

/-- More is kept, and nothing else. -/
def Extends (ρ ρ' : Kept Num) : Prop := ∀ F r, ρ F = some r → ρ' F = some r

omit [Zero Num] in
theorem Extends.isSome (h : Extends ρ ρ') (hF : (ρ F).isSome) : (ρ' F).isSome := by
  obtain ⟨r, hr⟩ := Option.isSome_iff_exists.mp hF
  exact Option.isSome_of_eq_some (h F r hr)

omit [Zero Num] in
theorem Extends.eq (h : Extends ρ ρ') (hF : (ρ F).isSome) : ρ' F = ρ F := by
  obtain ⟨r, hr⟩ := Option.isSome_iff_exists.mp hF
  rw [hr, h F r hr]

theorem SettledAt.mono (h : s.SettledAt A ρ F) (hF : (ρ F).isSome) (hext : Extends ρ ρ') :
    s.SettledAt A ρ' F := by
  intro r hr
  rw [Option.mem_def, hext.eq hF] at hr
  have hplaced := h r hr
  rw [← hplaced]
  exact placed_congr fun d hd => hext.eq (isSome_of_placed hplaced hd)

/-- What a calculation does to the rectangles that are kept: it adds some, of frames in `R`, that
are settled. -/
structure Grows (s : Scene Num) (A : Arith Num) (R : Nat → Prop) (ρ ρ' : Kept Num) : Prop where
  ext : Extends ρ ρ'
  settled : ∀ F, ρ F = none → s.SettledAt A ρ' F
  new : ∀ F, ρ F = none → (ρ' F).isSome → R F

theorem Grows.refl (s : Scene Num) (A : Arith Num) (R : Nat → Prop) (ρ : Kept Num) :
    s.Grows A R ρ ρ where
  ext _ _ h := h
  settled F h r hr := by
    rw [Option.mem_def, h] at hr
    cases hr
  new F h hF := by
    rw [h] at hF
    cases hF

theorem Grows.trans (h : s.Grows A R ρ ρ₁) (g : s.Grows A R ρ₁ ρ₂) : s.Grows A R ρ ρ₂ where
  ext F r hr := g.ext F r (h.ext F r hr)
  settled F hF := by
    cases hmid : ρ₁ F with
    | none => exact g.settled F hmid
    | some r => exact SettledAt.mono (h.settled F hF) (Option.isSome_of_eq_some hmid) g.ext
  new F hF hnew := by
    cases hmid : ρ₁ F with
    | none => exact g.new F hmid hnew
    | some r => exact h.new F hF (Option.isSome_of_eq_some hmid)

theorem Grows.mono {R' : Nat → Prop} (h : s.Grows A R ρ ρ') (hR : ∀ F, R F → R' F) :
    s.Grows A R' ρ ρ' := ⟨h.ext, h.settled, fun F hF hnew => hR F (h.new F hF hnew)⟩

theorem Grows.settledAt (h : s.Grows A R ρ ρ') (hF : s.SettledAt A ρ F) : s.SettledAt A ρ' F := by
  cases hknown : ρ F with
  | none => exact h.settled F hknown
  | some r => exact SettledAt.mono hF (Option.isSome_of_eq_some hknown) h.ext

/-! ## A calculation -/

/-- A calculation of a frame without a rectangle keeps one, and some of frames that it is placed
by. -/
def Calculates (s : Scene Num) (A : Arith Num) (calculate : Nat → Kept Num → Option (Kept Num))
    (d : Nat) : Prop :=
  ∀ ρ ρ', ρ d = none → calculate d ρ = some ρ' →
    s.Grows A (ReflTransGen s.PlacedBy · d) ρ ρ'

variable {calculate : Nat → Kept Num → Option (Kept Num)}

theorem getRectBy_grows {d : Nat} (h : s.Calculates A calculate d) {r : Rect Num}
    (hget : getRectBy calculate d ρ = some (ρ', r)) :
    s.Grows A (ReflTransGen s.PlacedBy · d) ρ ρ' ∧ ρ' d = some r := by
  rw [getRectBy] at hget
  split at hget
  · next r' hr' =>
    cases hget
    exact ⟨Grows.refl .., hr'⟩
  · next hnone =>
    rw [Option.bind_eq_some_iff] at hget
    obtain ⟨ρ₁, hρ₁, hget⟩ := hget
    rw [Option.map_eq_some_iff] at hget
    obtain ⟨r', hr', heq⟩ := hget
    cases heq
    exact ⟨h _ _ hnone hρ₁, hr'⟩

/-- **The loop of `CalculateAbsRect`** comes to what the rectangles kept in the end give. -/
theorem foldlM_place : ∀ (l : List (Input Num)) (acc acc' : Kept Num × Edges Num),
    (∀ i ∈ l, ∀ d, i.frame = some d → s.Calculates A calculate d ∧
      ∀ F, ReflTransGen s.PlacedBy F d → R F) →
    l.foldlM (place A calculate) acc = some acc' →
    s.Grows A R acc.1 acc'.1 ∧ l.foldlM (placeOne A acc'.1) acc.2 = some acc'.2 := by
  intro l
  induction l with
  | nil =>
    intro acc acc' _ h
    cases h
    exact ⟨Grows.refl .., rfl⟩
  | cons i l ih =>
    intro acc acc' hl h
    rw [List.forall_mem_cons] at hl
    rw [List.foldlM_cons, Option.bind_eq_bind, Option.bind_eq_some_iff] at h
    obtain ⟨mid, hmid, h⟩ := h
    obtain ⟨hgrows, hrest⟩ := ih mid acc' hl.2 h
    rw [List.foldlM_cons]
    rw [place] at hmid
    rw [placeOne]
    split at hmid
    · next hframe =>
      cases hmid
      exact ⟨hgrows, hrest⟩
    · next d hframe =>
      rw [Option.map_eq_some_iff] at hmid
      obtain ⟨⟨ρ, r⟩, hget, heq⟩ := hmid
      cases heq
      obtain ⟨hcalculates, hR⟩ := hl.1 d hframe
      obtain ⟨hfirst, hr⟩ := getRectBy_grows hcalculates hget
      refine ⟨(hfirst.mono hR).trans hgrows, ?_⟩
      rw [hgrows.ext d r hr]
      exact hrest

/-- A calculation that replaces the rectangle of a frame without one only adds it. -/
theorem calculates_of_cases (hacyclic : Acyclic s.PlacedBy) {d : Nat}
    (h : ∀ ρ ρ', calculate d ρ = some ρ' → ∃ ρ₁ r, ρ' = update ρ₁ d (some r) ∧
      s.Grows A (TransGen s.PlacedBy · d) ρ ρ₁ ∧ s.placed A ρ₁ d = some r) :
    s.Calculates A calculate d := by
  intro ρ ρ' hd hcalculate
  obtain ⟨ρ₁, r, rfl, hgrows, hplaced⟩ := h ρ ρ' hcalculate
  -- what was added for `d` is not placed by `d`
  have hnew : ∀ H, ρ H = none → (ρ₁ H).isSome → ¬s.PlacedBy d H := fun H hH hsome hplacedBy =>
    hacyclic d (TransGen.head hplacedBy (hgrows.new H hH hsome))
  have hself : ¬s.PlacedBy d d := fun hd => hacyclic d (.single hd)
  refine ⟨fun H r' hr' => ?_, fun H hH => ?_, fun H hH hsome => ?_⟩
  · have hne : H ≠ d := fun heq => by
      rw [heq, hd] at hr'
      cases hr'
    rw [update_of_ne hne]
    exact hgrows.ext H r' hr'
  · by_cases heq : H = d
    · subst heq
      intro r' hr'
      rw [Option.mem_def, update_self] at hr'
      cases hr'
      rw [← hplaced]
      refine placed_congr fun e he => update_of_ne ?_ ..
      rintro rfl
      exact hself he
    · intro r' hr'
      rw [Option.mem_def, update_of_ne heq] at hr'
      rw [← hgrows.settled H hH r' hr']
      refine placed_congr fun e he => update_of_ne ?_ ..
      rintro rfl
      exact hnew H hH (Option.isSome_of_eq_some hr') he
  · by_cases heq : H = d
    · rw [heq]
    · rw [update_of_ne heq] at hsome
      exact (hgrows.new H hH hsome).to_reflTransGen

/-- **What `CalculateAbsRect` comes to**, on a frame that may have a rectangle already: it adds
some of the frames that it is placed by, and replaces its own by what these give. -/
theorem calculateAbsRect_cases (hacyclic : Acyclic s.PlacedBy) : ∀ (depth F : Nat)
    (ρ ρ' : Kept Num), s.calculateAbsRect A depth F ρ = some ρ' →
    ∃ ρ₁ r, ρ' = update ρ₁ F (some r) ∧ s.Grows A (TransGen s.PlacedBy · F) ρ ρ₁ ∧
      s.placed A ρ₁ F = some r := by
  intro depth
  induction depth with
  | zero => intro F ρ ρ' h; cases h
  | succ depth ih =>
    intro F ρ ρ' h
    rw [calculateAbsRect, Option.map_eq_some_iff] at h
    obtain ⟨acc, hacc, rfl⟩ := h
    have hcalculates : ∀ d, s.Calculates A (s.calculateAbsRect A depth) d :=
      fun d => calculates_of_cases hacyclic (ih d)
    obtain ⟨hgrows, hplaced⟩ := foldlM_place (R := (TransGen s.PlacedBy · F)) _ _ _
      (fun i hi d hd => ⟨hcalculates d, fun H hH => TransGen.tail' hH ⟨i, hi, hd⟩⟩) hacc
    exact ⟨acc.1, _, rfl, hgrows, by rw [placed, hplaced, Option.map_some]⟩

/-- A frame is placed by frames that are there. -/
def Bounded (s : Scene Num) : Prop := ∀ d F, s.PlacedBy d F → d < s.layout.count

/-- **`CalculateAbsRect` ends** when no frame is placed by itself. -/
theorem isSome_calculateAbsRect (hacyclic : Acyclic s.PlacedBy) (hbounded : s.Bounded) (F : Nat)
    (ρ : Kept Num) : (s.calculateAbsRect A (s.layout.count + 1) F ρ).isSome := by
  refine ends_of_bounded hacyclic (fun F => (s.inputs F).filterMap Input.frame) (fun F d hd => ?_)
    (P := fun depth F => ∀ ρ, (s.calculateAbsRect A depth F ρ).isSome) (fun depth F ih ρ => ?_)
    (Nat.lt_succ_self _) F ρ
  · obtain ⟨i, hi, hframe⟩ := List.mem_filterMap.mp hd
    exact ⟨⟨i, hi, hframe⟩, hbounded d F ⟨i, hi, hframe⟩⟩
  · rw [calculateAbsRect, Option.isSome_map]
    refine Fallible.isSome_foldlM _ fun i hi acc => ?_
    rw [place]
    split
    · rfl
    · next d hframe =>
      rw [Option.isSome_map, getRectBy]
      split
      · rfl
      · obtain ⟨ρ₁, hρ₁⟩ := Option.isSome_iff_exists.mp
          (ih d (List.mem_filterMap.mpr ⟨i, hi, hframe⟩) acc.1)
        obtain ⟨ρ₂, r, rfl, -, -⟩ := calculateAbsRect_cases hacyclic depth d _ _ hρ₁
        rw [hρ₁, Option.bind_some, update_self]
        rfl

/-- **There is one way to settle a frame.** -/
theorem Settled.unique (hacyclic : Acyclic s.PlacedBy) (hbounded : s.Bounded)
    (h : s.Settled A ρ) (h' : s.Settled A ρ') {r r' : Rect Num} (hr : ρ F = some r)
    (hr' : ρ' F = some r') : r = r' := by
  refine ends_of_bounded hacyclic (fun F => (s.inputs F).filterMap Input.frame) (fun F d hd => ?_)
    (P := fun _ F => ∀ r r', ρ F = some r → ρ' F = some r' → r = r') (fun _ F ih r r' hr hr' => ?_)
    (Nat.lt_succ_self s.layout.count) F r r' hr hr'
  · obtain ⟨i, hi, hframe⟩ := List.mem_filterMap.mp hd
    exact ⟨⟨i, hi, hframe⟩, hbounded d F ⟨i, hi, hframe⟩⟩
  · have hplaced := h F r hr
    have hplaced' := h' F r' hr'
    have hsame : s.placed A ρ F = s.placed A ρ' F := by
      refine placed_congr fun d hd => ?_
      obtain ⟨x, hx⟩ := Option.isSome_iff_exists.mp (isSome_of_placed hplaced hd)
      obtain ⟨y, hy⟩ := Option.isSome_iff_exists.mp (isSome_of_placed hplaced' hd)
      obtain ⟨i, hi, hframe⟩ := hd
      rw [hx, hy, ih d (List.mem_filterMap.mpr ⟨i, hi, hframe⟩) x y hx hy]
    rw [hsame, hplaced'] at hplaced
    exact (Option.some.inj hplaced).symm

/-- **`GetRect`** returns what it keeps, and leaves all rectangles settled. -/
theorem Settled.getRect (hacyclic : Acyclic s.PlacedBy) (hbounded : s.Bounded)
    (h : s.Settled A ρ) (F : Nat) : ∃ ρ' r, s.getRect A F ρ = some (ρ', r) ∧ ρ' F = some r ∧
      s.Grows A (ReflTransGen s.PlacedBy · F) ρ ρ' ∧ s.Settled A ρ' := by
  have hcalculates : s.Calculates A (s.calculateAbsRect A (s.layout.count + 1)) F :=
    calculates_of_cases hacyclic (calculateAbsRect_cases hacyclic _ F)
  have hsome : (s.getRect A F ρ).isSome := by
    rw [Scene.getRect, getRectBy]
    split
    · rfl
    · obtain ⟨ρ₁, hρ₁⟩ := Option.isSome_iff_exists.mp
        (isSome_calculateAbsRect hacyclic hbounded F ρ)
      obtain ⟨ρ₂, r, rfl, -, -⟩ := calculateAbsRect_cases hacyclic _ F _ _ hρ₁
      rw [hρ₁, Option.bind_some, update_self]
      rfl
  obtain ⟨⟨ρ', r⟩, hget⟩ := Option.isSome_iff_exists.mp hsome
  obtain ⟨hgrows, hr⟩ := getRectBy_grows hcalculates hget
  exact ⟨ρ', r, hget, hr, hgrows, fun H => hgrows.settledAt (h H)⟩

theorem settled_nothing : s.Settled A fun _ => none := fun _ _ h => nomatch h

/-- **`GetRect` returns what a calculation from scratch returns**, when all that is kept is
settled. -/
theorem getRect_of_settled (hacyclic : Acyclic s.PlacedBy) (hbounded : s.Bounded)
    (h : s.Settled A ρ) (F : Nat) : ∃ r, (s.getRect A F ρ).map Prod.snd = some r ∧
      (s.getRect A F fun _ => none).map Prod.snd = some r := by
  obtain ⟨ρ₁, r, hget, hr, -, hsettled⟩ := h.getRect hacyclic hbounded F
  obtain ⟨ρ₂, r', hget', hr', -, hsettled'⟩ :=
    (settled_nothing (s := s) (A := A)).getRect hacyclic hbounded F
  have heq := hsettled.unique hacyclic hbounded hsettled' hr hr'
  exact ⟨r, by rw [hget, Option.map_some], by rw [hget', heq, Option.map_some]⟩

end Scene

end DWindow.UI
