import Mathlib.Data.List.Basic

/-!
# What a repeated hash skips

`RenderUI` walks the frame tree, and every frame adds operations to `render_ops`: the start and
the end of a child set the clip rectangle, and a paint that shows paints.  Only a paint adds to
`render_hash` as well, so the hash says nothing of clip rectangles and nesting, and it prints the
alpha with six digits and a missing coordinate of a bitmap as 0.  When the hash repeats, the
operations are not replayed.

`ops_eq_iff` says what two trees with one hash must agree in besides: their `Outline`, which is
what the operations hold and the hash leaves out.

Floating point numbers and handles come with `Lua`.
-/

namespace DWindow.UI.Render

/-- What Lua computes with alphas and prints of alphas and handles. -/
structure Lua (Handle Alpha : Type*) where
  one : Alpha
  mul : Alpha → Alpha → Alpha
  positive : Alpha → Bool
  /-- `%f` -/
  format : Alpha → List Char
  tostring : Handle → List Char
  format_sep : ∀ a, ',' ∉ format a ∧ '|' ∉ format a
  tostring_sep : ∀ h, ',' ∉ tostring h ∧ '|' ∉ tostring h

structure Bitmap (Handle : Type*) where
  handle : Option Handle
  left : Option Int
  top : Option Int
  right : Option Int
  bottom : Option Int
deriving DecidableEq

/-- A call of `paint`. -/
structure Paint (Handle Alpha : Type*) where
  left : Int
  top : Int
  right : Int
  bottom : Int
  bitmap : Option (Bitmap Handle)
  alpha : Option Alpha
  resamplingMethod : Option Int
deriving DecidableEq

/-- A frame: what `GetRect` returns, its alpha, the paints of `RenderThis`, its children. -/
inductive Frame (Handle Alpha : Type*)
  | mk (left top right bottom : Int) (alpha : Option Alpha) (paints : List (Paint Handle Alpha))
      (childs : List (Frame Handle Alpha))

/-- The table `rect`: the clip rectangle, the corner of the frame and its alpha. -/
structure Clip (Alpha : Type*) where
  left : Int
  top : Int
  right : Int
  bottom : Int
  x : Int
  y : Int
  alpha : Option Alpha
deriving DecidableEq

/-- The arguments of `dx9.paint_core`. -/
structure PaintOp (Handle Alpha : Type*) where
  left : Int
  top : Int
  right : Int
  bottom : Int
  handle : Handle
  roiLeft : Option Int
  roiTop : Option Int
  roiRight : Option Int
  roiBottom : Option Int
  a : Alpha
  resamplingMethod : Int
  target : Handle
deriving DecidableEq

/-- An entry of `render_ops`; `EndChild` passes the tables `rects[1]` to `rects[4]`. -/
inductive Op (Handle Alpha : Type*)
  | setClipRect (left top right bottom : Int)
  | setClipRects (rects : List (Clip Alpha))
  | paint (p : PaintOp Handle Alpha)
deriving DecidableEq

/-- `render_ops`, `render_hash`, `rect`, `rects` and the handle of `g_rt`. -/
structure State (Handle Alpha : Type*) where
  ops : List (Op Handle Alpha)
  hash : List (List Char)
  rect : Clip Alpha
  rects : List (Clip Alpha)
  target : Handle

def bilinearNoMipmap : Int := 2

/-- `%d`. -/
def printInt (n : Int) : List Char :=
  if n < 0 then '-' :: Nat.toDigits 10 n.natAbs else Nat.toDigits 10 n.natAbs

namespace Clip

variable {Alpha : Type*}

/-- `IsCurrentDrawingVisible`. -/
def visible (rect : Clip Alpha) : Bool := rect.left < rect.right && rect.top < rect.bottom

end Clip

section

variable {Handle Alpha : Type*} (L : Lua Handle Alpha)

def hashFields (p : PaintOp Handle Alpha) : List (List Char) :=
  [printInt p.left, printInt p.top, printInt p.right, printInt p.bottom, L.tostring p.handle,
    printInt (p.roiLeft.getD 0), printInt (p.roiTop.getD 0), printInt (p.roiRight.getD 0),
    printInt (p.roiBottom.getD 0), L.format p.a, printInt p.resamplingMethod]

def paintHash (p : PaintOp Handle Alpha) : List Char := [','].intercalate (hashFields L p)

/-- The rectangle that `BeginChild` makes of the one around. -/
def childClip (rect : Clip Alpha) (left top right bottom : Int) (alpha : Option Alpha) :
    Clip Alpha where
  left := max rect.left left
  top := max rect.top top
  right := min rect.right right
  bottom := min rect.bottom bottom
  x := left
  y := top
  alpha := some (L.mul (alpha.getD L.one) (rect.alpha.getD L.one))

/-- What `paint` passes on in a rectangle, when it shows. -/
def shown (rect : Clip Alpha) (target : Handle) (p : Paint Handle Alpha) (bitmap : Bitmap Handle)
    (handle : Handle) (parentAlpha : Alpha) : Option (PaintOp Handle Alpha) :=
  let a := L.mul (p.alpha.getD L.one) parentAlpha
  let clippedLeft := max rect.left (p.left + rect.x)
  let clippedTop := max rect.top (p.top + rect.y)
  let clippedRight := min rect.right (p.right + rect.x)
  let clippedBottom := min rect.bottom (p.bottom + rect.y)
  if L.positive a = true ∧ clippedLeft < clippedRight ∧ clippedTop < clippedBottom then
    some ⟨p.left + rect.x, p.top + rect.y, p.right + rect.x, p.bottom + rect.y, handle,
      bitmap.left, bitmap.top, bitmap.right, bitmap.bottom, a,
      p.resamplingMethod.getD bilinearNoMipmap, target⟩
  else none

namespace State

variable (s : State Handle Alpha)

def beginChild (left top right bottom : Int) (alpha : Option Alpha) : State Handle Alpha :=
  let newRect := childClip L s.rect left top right bottom alpha
  { s with
    rects := s.rects ++ [s.rect]
    rect := newRect
    ops := s.ops ++ [.setClipRect newRect.left newRect.top newRect.right newRect.bottom] }

def endChild : State Handle Alpha :=
  { s with
    rects := s.rects.dropLast
    rect := s.rects.getLast?.getD s.rect
    ops := s.ops ++ [.setClipRects (s.rects.dropLast.take 4)] }

/-- `BaseFrame:paint`, with no result for the error of a multiplication with `nil`. -/
def paint (p : Paint Handle Alpha) : Option (State Handle Alpha) :=
  match p.bitmap with
  | none => some s
  | some bitmap =>
    match bitmap.handle with
    | none => some s
    | some handle => s.rect.alpha.map fun parentAlpha =>
      match shown L s.rect s.target p bitmap handle parentAlpha with
      | none => s
      | some op => { s with hash := s.hash ++ [paintHash L op], ops := s.ops ++ [.paint op] }

/-- `RenderThis`. -/
def paintAll : List (Paint Handle Alpha) → State Handle Alpha → Option (State Handle Alpha)
  | [], s => some s
  | p :: paints, s => (s.paint L p).bind (paintAll paints)

/-- The hash that `RenderUI` compares. -/
def hashString : List Char := ['|'].intercalate s.hash

end State

open State

mutual

def render : Frame Handle Alpha → State Handle Alpha → Option (State Handle Alpha)
  | .mk _ _ _ _ alpha paints childs, s =>
    (paintAll L paints s).bind (renderChilds alpha childs)

/-- The loop of `BaseFrame:render` over the children. -/
def renderChilds (alpha : Option Alpha) :
    List (Frame Handle Alpha) → State Handle Alpha → Option (State Handle Alpha)
  | [], s => some s
  | .mk left top right bottom alpha' paints childs :: rest, s =>
    let s₁ := s.beginChild L left top right bottom alpha
    let s₂ :=
      if s₁.rect.visible then render (.mk left top right bottom alpha' paints childs) s₁
      else some s₁
    s₂.bind fun s₂ => renderChilds alpha rest s₂.endChild

end

/-- The whole window, as `rect` of the root. -/
def window (width height : Int) : Clip Alpha := ⟨0, 0, width, height, 0, 0, none⟩

/-- The walk of `RenderUI`. -/
def renderUI (width height : Int) (target : Handle) (root : Frame Handle Alpha) :
    Option (State Handle Alpha) := render L root ⟨[], [], window width height, [], target⟩

/-! ## What the hash leaves out -/

/-- What the hash of a paint leaves out: the handle behind its name, which coordinates of the
bitmap are there, the alpha behind the sixth digit, and the render target. -/
structure Unhashed (Handle Alpha : Type*) where
  handle : Handle
  roiLeft : Bool
  roiTop : Bool
  roiRight : Bool
  roiBottom : Bool
  a : Alpha
  target : Handle
deriving DecidableEq

/-- What a walk goes through: paints that show, and children, each with its clip rectangle, what
is inside and the tables that `EndChild` passes. -/
inductive Outline (Handle Alpha : Type*)
  | done
  | paint (u : Unhashed Handle Alpha) (rest : Outline Handle Alpha)
  | child (left top right bottom : Int) (inside : Outline Handle Alpha) (around : List (Clip Alpha))
      (rest : Outline Handle Alpha)
deriving DecidableEq

def unhashed (p : PaintOp Handle Alpha) : Unhashed Handle Alpha :=
  ⟨p.handle, p.roiLeft.isSome, p.roiTop.isSome, p.roiRight.isSome, p.roiBottom.isSome, p.a,
    p.target⟩

/-- The paint in front of the rest of an outline, if it shows. -/
def outlinePaint (rect : Clip Alpha) (target : Handle) (p : Paint Handle Alpha)
    (rest : Outline Handle Alpha) : Outline Handle Alpha :=
  let op := p.bitmap.bind fun bitmap => bitmap.handle.bind fun handle =>
    rect.alpha.bind fun parentAlpha => shown L rect target p bitmap handle parentAlpha
  (op.map fun op => .paint (unhashed op) rest).getD rest

mutual

def outline (rect : Clip Alpha) (rects : List (Clip Alpha)) (target : Handle) :
    Frame Handle Alpha → Outline Handle Alpha
  | .mk _ _ _ _ alpha paints childs =>
    paints.foldr (outlinePaint L rect target) (outlineChilds rect rects target alpha childs)

def outlineChilds (rect : Clip Alpha) (rects : List (Clip Alpha)) (target : Handle)
    (alpha : Option Alpha) : List (Frame Handle Alpha) → Outline Handle Alpha
  | [] => .done
  | .mk left top right bottom alpha' paints childs :: rest =>
    let clip := childClip L rect left top right bottom alpha
    let inside :=
      if clip.visible then
        outline clip (rects ++ [rect]) target (.mk left top right bottom alpha' paints childs)
      else .done
    .child clip.left clip.top clip.right clip.bottom inside (rects.take 4)
      (outlineChilds rect rects target alpha rest)

end

def outlineUI (width height : Int) (target : Handle) (root : Frame Handle Alpha) :
    Outline Handle Alpha := outline L (window width height) [] target root

/-! ## Operations and outline -/

/-- An operation without what the hash of a paint says. -/
inductive Mark (Handle Alpha : Type*)
  | setClipRect (left top right bottom : Int)
  | setClipRects (rects : List (Clip Alpha))
  | paint (u : Unhashed Handle Alpha)

def mark : Op Handle Alpha → Mark Handle Alpha
  | .setClipRect left top right bottom => .setClipRect left top right bottom
  | .setClipRects rects => .setClipRects rects
  | .paint p => .paint (unhashed p)

/-- What an operation adds to `render_hash`. -/
def opHash : Op Handle Alpha → Option (List Char)
  | .paint p => some (paintHash L p)
  | _ => none

namespace Outline

def marks : Outline Handle Alpha → List (Mark Handle Alpha)
  | done => []
  | paint u rest => .paint u :: marks rest
  | child left top right bottom inside around rest =>
    .setClipRect left top right bottom :: (marks inside ++ .setClipRects around :: marks rest)

/-- Behind the operations of an outline comes nothing more, or the end of the child around. -/
def Ends (l : List (Mark Handle Alpha)) : Prop :=
  ∀ m ∈ l.head?, ∃ rects, m = .setClipRects rects

/-- **The operations tell the outline**: the end of a child is known by its tables. -/
theorem eq_of_marks (o : Outline Handle Alpha) : ∀ (o' : Outline Handle Alpha)
    (x y : List (Mark Handle Alpha)), Ends x → Ends y → o.marks ++ x = o'.marks ++ y →
    o = o' ∧ x = y := by
  induction o with
  | done =>
    intro o' x y hx _ h
    cases o' with
    | done => exact ⟨rfl, h⟩
    | paint u rest =>
      rw [marks, List.nil_append] at h
      obtain ⟨rects, hm⟩ := hx (.paint u) (by rw [h]; rfl)
      cases hm
    | child left top right bottom inside around rest =>
      rw [marks, List.nil_append] at h
      obtain ⟨rects, hm⟩ := hx (.setClipRect left top right bottom) (by rw [h]; rfl)
      cases hm
  | paint u rest ih =>
    intro o' x y hx hy h
    cases o' with
    | done =>
      obtain ⟨rects, hm⟩ := hy (.paint u) (by rw [← List.nil_append y, ← marks, ← h]; rfl)
      cases hm
    | paint u' rest' =>
      obtain ⟨hm, hrest⟩ := List.cons.inj h
      cases hm
      obtain ⟨rfl, hxy⟩ := ih rest' x y hx hy hrest
      exact ⟨rfl, hxy⟩
    | child left top right bottom inside around rest => cases (List.cons.inj h).1
  | child left top right bottom inside around rest ihInside ihRest =>
    intro o' x y hx hy h
    cases o' with
    | done =>
      obtain ⟨rects, hm⟩ := hy (.setClipRect left top right bottom)
        (by rw [← List.nil_append y, ← marks, ← h]; rfl)
      cases hm
    | paint u rest' => cases (List.cons.inj h).1
    | child left' top' right' bottom' inside' around' rest' =>
      obtain ⟨hm, htail⟩ := List.cons.inj h
      cases hm
      have hend : ∀ (rects : List (Clip Alpha)) (l : List (Mark Handle Alpha)),
          Ends (.setClipRects rects :: l) := by
        rintro rects l _ ⟨⟩
        exact ⟨rects, rfl⟩
      have htail : inside.marks ++ .setClipRects around :: (rest.marks ++ x) =
          inside'.marks ++ .setClipRects around' :: (rest'.marks ++ y) := by
        simpa only [List.append_eq, List.append_assoc, List.cons_append] using htail
      obtain ⟨rfl, hrest⟩ := ihInside inside' _ _ (hend _ _) (hend _ _) htail
      obtain ⟨hm, hafter⟩ := List.cons.inj hrest
      cases hm
      obtain ⟨rfl, hxy⟩ := ihRest rest' x y hx hy hafter
      exact ⟨rfl, hxy⟩

end Outline

/-- A walk from one state to another, whose operations are those of an outline. -/
structure Walked (s s' : State Handle Alpha) (o : Outline Handle Alpha) : Prop where
  rect : s'.rect = s.rect
  rects : s'.rects = s.rects
  target : s'.target = s.target
  ops : s'.ops.map mark = s.ops.map mark ++ o.marks
  hash : s.hash = s.ops.filterMap (opHash L) → s'.hash = s'.ops.filterMap (opHash L)

/-- **A paint** adds its operation in front of what the frame adds later. -/
theorem Walked.paint {s s₁ s' : State Handle Alpha} {p : Paint Handle Alpha}
    {rest : Outline Handle Alpha} (h : s.paint L p = some s₁) (hrest : Walked L s₁ s' rest) :
    Walked L s s' (outlinePaint L s.rect s.target p rest) := by
  rw [State.paint] at h
  rw [outlinePaint]
  cases hbitmap : p.bitmap with
  | none =>
    rw [hbitmap] at h
    cases h
    exact hrest
  | some bitmap =>
    cases hhandle : bitmap.handle with
    | none =>
      simp only [hbitmap, hhandle, Option.some.injEq] at h
      subst h
      simpa only [hhandle, Option.bind_some, Option.bind_none, Option.map_none, Option.getD_none]
        using hrest
    | some handle =>
      simp only [hbitmap, hhandle, Option.map_eq_some_iff] at h
      obtain ⟨parentAlpha, hparent, hs₁⟩ := h
      simp only [hhandle, hparent, Option.bind_some]
      cases hshown : shown L s.rect s.target p bitmap handle parentAlpha with
      | none =>
        rw [hshown] at hs₁
        subst hs₁
        exact hrest
      | some op =>
        rw [hshown] at hs₁
        subst hs₁
        refine ⟨hrest.rect, hrest.rects, hrest.target, ?_, fun hhash => hrest.hash ?_⟩
        · rw [hrest.ops]
          change (s.ops ++ [Op.paint op]).map mark ++ rest.marks = _
          rw [List.map_append, List.append_assoc]
          rfl
        · change s.hash ++ [paintHash L op] = (s.ops ++ [Op.paint op]).filterMap (opHash L)
          rw [hhash, List.filterMap_append]
          rfl

theorem paint_frame {s s₁ : State Handle Alpha} {p : Paint Handle Alpha}
    (h : s.paint L p = some s₁) :
    s₁.rect = s.rect ∧ s₁.rects = s.rects ∧ s₁.target = s.target := by
  have hwalked : Walked L s s₁ (outlinePaint L s.rect s.target p .done) :=
    Walked.paint L h ⟨rfl, rfl, rfl, (List.append_nil _).symm, id⟩
  exact ⟨hwalked.rect, hwalked.rects, hwalked.target⟩

theorem Walked.paintAll {s' : State Handle Alpha} {rest : Outline Handle Alpha} :
    ∀ (paints : List (Paint Handle Alpha)) (s s₁ : State Handle Alpha),
    paintAll L paints s = some s₁ →
    (s₁.rect = s.rect → s₁.rects = s.rects → s₁.target = s.target → Walked L s₁ s' rest) →
    Walked L s s' (paints.foldr (outlinePaint L s.rect s.target) rest) := by
  intro paints
  induction paints with
  | nil =>
    intro s s₁ h hrest
    cases h
    exact hrest rfl rfl rfl
  | cons p paints ih =>
    intro s s₁ h hrest
    obtain ⟨s₂, hs₂, h⟩ := Option.bind_eq_some_iff.mp h
    obtain ⟨hrect, hrects, htarget⟩ := paint_frame L hs₂
    have htail := ih s₂ s₁ h fun h₁ h₂ h₃ =>
      hrest (h₁.trans hrect) (h₂.trans hrects) (h₃.trans htarget)
    rw [hrect, htarget] at htail
    exact Walked.paint L hs₂ htail

mutual

/-- **A walk of `render`** goes through the outline of the frame. -/
theorem walked_render : ∀ (f : Frame Handle Alpha) (s s' : State Handle Alpha),
    render L f s = some s' → Walked L s s' (outline L s.rect s.rects s.target f)
  | .mk left top right bottom alpha paints childs, s, s', h => by
    obtain ⟨s₁, hs₁, h⟩ := Option.bind_eq_some_iff.mp (by rwa [render] at h)
    rw [outline]
    refine Walked.paintAll L paints s s₁ hs₁ fun hrect hrects htarget => ?_
    have hchilds := walked_childs alpha childs s₁ s' h
    rwa [hrect, hrects, htarget] at hchilds

theorem walked_childs (alpha : Option Alpha) : ∀ (childs : List (Frame Handle Alpha))
    (s s' : State Handle Alpha), renderChilds L alpha childs s = some s' →
    Walked L s s' (outlineChilds L s.rect s.rects s.target alpha childs)
  | [], s, s', h => by
    rw [renderChilds] at h
    cases h
    exact ⟨rfl, rfl, rfl, (List.append_nil _).symm, id⟩
  | .mk left top right bottom alpha' paints childs :: rest, s, s', h => by
    rw [renderChilds] at h
    obtain ⟨s₂, hs₂, h⟩ := Option.bind_eq_some_iff.mp h
    let s₁ := s.beginChild L left top right bottom alpha
    have hinside : Walked L s₁ s₂ (if s₁.rect.visible then
        outline L s₁.rect s₁.rects s₁.target (.mk left top right bottom alpha' paints childs)
        else .done) := by
      by_cases hvisible : s₁.rect.visible
      · rw [if_pos hvisible] at hs₂ ⊢
        exact walked_render _ s₁ s₂ hs₂
      · rw [if_neg hvisible] at hs₂ ⊢
        cases hs₂
        exact ⟨rfl, rfl, rfl, (List.append_nil _).symm, id⟩
    have hrects : s₂.rects.dropLast = s.rects := by
      rw [hinside.rects]
      exact List.dropLast_concat
    have hrect : s₂.endChild.rect = s.rect := by
      change s₂.rects.getLast?.getD s₂.rect = s.rect
      rw [hinside.rects]
      change (s.rects ++ [s.rect]).getLast?.getD s₂.rect = s.rect
      rw [List.getLast?_concat]
      rfl
    have htail := walked_childs alpha rest s₂.endChild s' h
    have htarget : s₂.endChild.target = s.target := hinside.target
    rw [hrect, htarget, show s₂.endChild.rects = s.rects from hrects] at htail
    refine ⟨htail.rect.trans hrect, htail.rects.trans hrects, htail.target.trans htarget, ?_,
      fun hhash => htail.hash ?_⟩
    · rw [htail.ops]
      change (s₂.ops ++ [Op.setClipRects (s₂.rects.dropLast.take 4)]).map mark ++ _ = _
      rw [hrects, List.map_append, hinside.ops]
      change ((s.ops ++ [Op.setClipRect s₁.rect.left s₁.rect.top s₁.rect.right
        s₁.rect.bottom]).map mark ++ _) ++ _ ++ _ = _
      rw [List.map_append]
      simp only [List.append_assoc]
      rw [outlineChilds]
      rfl
    · have hbegin := hinside.hash (by
        change s.hash = (s.ops ++ [_]).filterMap (opHash L)
        rw [List.filterMap_append, hhash]
        exact (List.append_nil _).symm)
      change s₂.hash = (s₂.ops ++ [_]).filterMap (opHash L)
      rw [List.filterMap_append, hbegin]
      exact (List.append_nil _).symm

end

/-! ## What the hash tells -/

theorem not_mem_printInt {c : Char} (hc : ¬c.isDigit) (hminus : c ≠ '-') (n : Int) :
    c ∉ printInt n := by
  have hdigits : c ∉ Nat.toDigits 10 n.natAbs := fun hmem =>
    hc (Nat.isDigit_of_mem_toDigits (by decide) (by decide) hmem)
  unfold printInt
  split
  · exact fun hmem => (List.mem_cons.mp hmem).elim hminus hdigits
  · exact hdigits

theorem toDigits_injective {m n : Nat} (h : Nat.toDigits 10 m = Nat.toDigits 10 n) : m = n := by
  rw [← Nat.ofDigitChars_ten_toDigits (n := m), h, Nat.ofDigitChars_ten_toDigits]

theorem printInt_injective {m n : Int} (h : printInt m = printInt n) : m = n := by
  have hminus : ∀ k, '-' ∉ Nat.toDigits 10 k := fun k hmem =>
    absurd (Nat.isDigit_of_mem_toDigits (by decide) (by decide) hmem) (by decide)
  unfold printInt at h
  split at h <;> split at h
  · have heq := toDigits_injective (List.cons.inj h).2
    omega
  · exact absurd (h ▸ List.mem_cons_self ..) (hminus n.natAbs)
  · exact absurd (h.symm ▸ List.mem_cons_self ..) (hminus m.natAbs)
  · have heq := toDigits_injective h
    omega

theorem mem_intercalate {c d : Char} (hne : d ≠ c) : ∀ {ls : List (List Char)},
    d ∈ [c].intercalate ls → ∃ l ∈ ls, d ∈ l
  | [], h => absurd h List.not_mem_nil
  | [l], h => ⟨l, List.mem_cons_self .., by rwa [List.intercalate_singleton] at h⟩
  | l :: l' :: ls, h => by
    rw [List.intercalate_cons_cons, List.append_assoc] at h
    rcases List.mem_append.mp h with h | h
    · exact ⟨l, List.mem_cons_self .., h⟩
    · rcases List.mem_cons.mp h with h | h
      · exact absurd h hne
      · obtain ⟨l'', hl'', hd⟩ := mem_intercalate hne h
        exact ⟨l'', List.mem_cons_of_mem _ hl'', hd⟩

/-- Texts without the separator are told from their joining. -/
theorem intercalate_injective {c : Char} {ls ls' : List (List Char)}
    (hls : ∀ l ∈ ls, c ∉ l ∧ l ≠ []) (hls' : ∀ l ∈ ls', c ∉ l ∧ l ≠ [])
    (h : [c].intercalate ls = [c].intercalate ls') : ls = ls' := by
  have hsplit : ∀ ks : List (List Char), (∀ l ∈ ks, c ∉ l ∧ l ≠ []) →
      ([c].intercalate ks).splitOn c = if ks = [] then [[]] else ks := by
    intro ks hks
    split
    · next heq =>
      rw [heq]
      rfl
    · next hne => exact List.splitOn_intercalate c (fun l hl => (hks l hl).1) hne
  have heq := hsplit ls hls
  rw [h, hsplit ls' hls'] at heq
  split at heq <;> split at heq
  · next h₁ h₂ => rw [h₁, h₂]
  · exact absurd rfl (hls [] (heq ▸ List.mem_singleton_self _)).2
  · exact absurd rfl (hls' [] (heq ▸ List.mem_singleton_self _)).2
  · exact heq.symm

theorem hashFields_sep (p : PaintOp Handle Alpha) {c : Char} (hc : c = ',' ∨ c = '|') :
    ∀ l ∈ hashFields L p, c ∉ l := by
  have hint : ∀ n, c ∉ printInt n := fun n =>
    not_mem_printInt (by rcases hc with rfl | rfl <;> decide)
      (by rcases hc with rfl | rfl <;> decide) n
  have htostring : c ∉ L.tostring p.handle := by
    rcases hc with rfl | rfl
    · exact (L.tostring_sep _).1
    · exact (L.tostring_sep _).2
  have hformat : c ∉ L.format p.a := by
    rcases hc with rfl | rfl
    · exact (L.format_sep _).1
    · exact (L.format_sep _).2
  intro l hl
  simp only [hashFields, List.mem_cons, List.not_mem_nil, or_false] at hl
  rcases hl with rfl | rfl | rfl | rfl | rfl | rfl | rfl | rfl | rfl | rfl | rfl
  all_goals first | exact hint _ | exact htostring | exact hformat

/-- **The hash of a paint tells its fields.** -/
theorem hashFields_eq {p q : PaintOp Handle Alpha} (h : paintHash L p = paintHash L q) :
    hashFields L p = hashFields L q := by
  have hsplit : ∀ p : PaintOp Handle Alpha, (paintHash L p).splitOn ',' = hashFields L p :=
    fun p => List.splitOn_intercalate ',' (hashFields_sep L p (.inl rfl)) (List.cons_ne_nil _ _)
  rw [← hsplit p, h, hsplit]

theorem paintHash_sep (p : PaintOp Handle Alpha) :
    '|' ∉ paintHash L p ∧ paintHash L p ≠ [] := by
  refine ⟨fun hmem => ?_, ?_⟩
  · obtain ⟨l, hl, hmem⟩ := mem_intercalate (by decide) hmem
    exact hashFields_sep L p (.inr rfl) l hl hmem
  · rw [paintHash, hashFields, List.intercalate_cons_cons, List.append_assoc]
    exact List.append_ne_nil_of_right_ne_nil _ (List.cons_ne_nil _ _)

theorem getD_eq {a b : Option Int} (hsome : a.isSome = b.isSome) (h : a.getD 0 = b.getD 0) :
    a = b := by
  cases a <;> cases b
  · rfl
  · cases hsome
  · cases hsome
  · exact congrArg some h

/-- A paint is what its hash says and what the hash leaves out. -/
theorem paintOp_eq {p q : PaintOp Handle Alpha} (hmark : unhashed p = unhashed q)
    (hhash : paintHash L p = paintHash L q) : p = q := by
  have hfields := hashFields_eq L hhash
  simp only [hashFields, List.cons.injEq, and_true] at hfields
  obtain ⟨hl, ht, hr, hb, -, hrl, hrt, hrr, hrb, -, hm⟩ := hfields
  simp only [unhashed, Unhashed.mk.injEq] at hmark
  obtain ⟨hhandle, hl', ht', hr', hb', ha, htarget⟩ := hmark
  cases p
  cases q
  simp only [PaintOp.mk.injEq]
  exact ⟨printInt_injective hl, printInt_injective ht, printInt_injective hr,
    printInt_injective hb, hhandle, getD_eq hl' (printInt_injective hrl),
    getD_eq ht' (printInt_injective hrt), getD_eq hr' (printInt_injective hrr),
    getD_eq hb' (printInt_injective hrb), ha, printInt_injective hm, htarget⟩

/-- **Operations are told from their marks and hashes.** -/
theorem ops_eq {ops ops' : List (Op Handle Alpha)} (hmarks : ops.map mark = ops'.map mark)
    (hhash : ops.filterMap (opHash L) = ops'.filterMap (opHash L)) : ops = ops' := by
  induction ops generalizing ops' with
  | nil => exact (List.map_eq_nil_iff.mp hmarks.symm).symm
  | cons op ops ih =>
    cases ops' with
    | nil => cases hmarks
    | cons op' ops' =>
      obtain ⟨hmark, hrest⟩ := List.cons.inj hmarks
      cases op with
      | setClipRect left top right bottom =>
        cases op' <;> cases hmark
        exact congrArg _ (ih hrest hhash)
      | setClipRects rects =>
        cases op' <;> cases hmark
        exact congrArg _ (ih hrest hhash)
      | paint p =>
        cases op' with
        | setClipRect left top right bottom => cases hmark
        | setClipRects rects => cases hmark
        | paint q =>
          obtain ⟨hpaint, hhash⟩ := List.cons.inj hhash
          rw [paintOp_eq L (Mark.paint.inj hmark) hpaint, ih hrest hhash]

theorem hash_sep (ops : List (Op Handle Alpha)) :
    ∀ l ∈ ops.filterMap (opHash L), '|' ∉ l ∧ l ≠ [] := by
  intro l hl
  obtain ⟨op, -, hop⟩ := List.mem_filterMap.mp hl
  cases op with
  | paint p =>
    cases hop
    exact paintHash_sep L p
  | setClipRect | setClipRects => cases hop

/-- **Two trees with one hash have the same operations exactly when they have the same outline.** -/
theorem ops_eq_iff {width height : Int} {target target' : Handle} {root root' : Frame Handle Alpha}
    {s s' : State Handle Alpha} (hs : renderUI L width height target root = some s)
    (hs' : renderUI L width height target' root' = some s')
    (hhash : s.hashString = s'.hashString) :
    s.ops = s'.ops ↔
      outlineUI L width height target root = outlineUI L width height target' root' := by
  have hwalked := walked_render L root _ s hs
  have hwalked' := walked_render L root' _ s' hs'
  constructor
  · intro hops
    have hmarks := congrArg (List.map mark) hops
    rw [hwalked.ops, hwalked'.ops] at hmarks
    refine (Outline.eq_of_marks _ _ [] [] nofun nofun ?_).1
    rw [List.append_nil, List.append_nil]
    exact hmarks
  · intro houtline
    refine ops_eq L ?_ ?_
    · rw [hwalked.ops, hwalked'.ops]
      exact congrArg (fun o => [] ++ Outline.marks o) houtline
    · rw [State.hashString, State.hashString, hwalked.hash rfl, hwalked'.hash rfl] at hhash
      exact intercalate_injective (hash_sep L s.ops) (hash_sep L s'.ops) hhash

end

/-- Whole numbers as alphas, and numbers for handles. -/
def lua : Lua Nat Int where
  one := 1
  mul := (· * ·)
  positive a := decide (0 < a)
  format a := printInt a ++ ".000000".toList
  tostring n := "userdata: ".toList ++ Nat.toDigits 10 n
  format_sep a := by
    constructor <;> refine fun hmem => (List.mem_append.mp hmem).elim ?_ (by decide)
    · exact not_mem_printInt (by decide) (by decide) a
    · exact not_mem_printInt (by decide) (by decide) a
  tostring_sep n := by
    constructor <;> refine fun hmem => (List.mem_append.mp hmem).elim (by decide) fun hdigit => ?_
    · exact absurd (Nat.isDigit_of_mem_toDigits (by decide) (by decide) hdigit) (by decide)
    · exact absurd (Nat.isDigit_of_mem_toDigits (by decide) (by decide) hdigit) (by decide)

/-- A root with one child of a width, which paints a bitmap over its width of 20. -/
def cropped (width : Int) : Frame Nat Int :=
  .mk 0 0 100 100 none [] [.mk 0 0 width 20 none
    [⟨0, 0, 20, 20, some ⟨some 7, some 0, some 0, some 0, some 0⟩, none, none⟩] []]

/-- What the walk over a tree leaves. -/
def walked (width : Int) : State Nat Int :=
  ((renderUI lua 100 100 1 (cropped width)).getD ⟨[], [], window 100 100, [], 1⟩)

/-- Two widths behind the paint: the child is cut to its width in the one and not in the other. -/
theorem ops_eq_iff_cropped : (walked 10).ops = (walked 20).ops ↔
    outlineUI lua 100 100 1 (cropped 10) = outlineUI lua 100 100 1 (cropped 20) :=
  ops_eq_iff lua (by rfl) (by rfl) (by decide)

/-- One hash, other operations. -/
theorem one_hash_two_pictures : (walked 10).hashString = (walked 20).hashString ∧
    (walked 10).ops ≠ (walked 20).ops := by
  decide

end DWindow.UI.Render
