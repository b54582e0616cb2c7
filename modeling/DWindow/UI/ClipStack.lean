import DWindow.UI.Render

/-!
# The clip rectangle in the stack of frames

`BeginChild` puts `rect` on the stack `rects` and goes on with the rectangle of the child in it;
`EndChild` takes it back.  Both queue a `set_clip_rect`.  `clipCalls` lists the two calls in the
order of a walk, with the rectangles of the frames that are open after each of them.

`rect` is right at each of them and the stack is restored (`clipCalls_rect`, `render_restored`),
but `EndChild` passes entries of `rects`, which are tables or `nil`, where it has the coordinates
of `rect`: `follows_iff` says that no walk with a child queues what it should.
-/

namespace DWindow.UI.Render

open State

/-- What `GetRect` returns: left, top, right and bottom. -/
structure Box where
  left : Int
  top : Int
  right : Int
  bottom : Int
deriving DecidableEq

def Box.Contains (b : Box) (x y : Int) : Prop :=
  b.left ≤ x ∧ x < b.right ∧ b.top ≤ y ∧ y < b.bottom

section

variable {Handle Alpha : Type*} (L : Lua Handle Alpha)

def Clip.box (rect : Clip Alpha) : Box := ⟨rect.left, rect.top, rect.right, rect.bottom⟩

/-- A call of `BeginChild` or `EndChild`: the rectangles of the frames that are open behind it, and
the state that it leaves. -/
structure ClipCall (Handle Alpha : Type*) where
  opened : List Box
  state : State Handle Alpha

mutual

/-- The calls in a walk of `render`. -/
def clipCalls (opened : List Box) : Frame Handle Alpha → State Handle Alpha →
    List (ClipCall Handle Alpha)
  | .mk _ _ _ _ alpha paints childs, s =>
    match paintAll L paints s with
    | none => []
    | some s => clipCallsChilds opened alpha childs s

def clipCallsChilds (opened : List Box) (alpha : Option Alpha) :
    List (Frame Handle Alpha) → State Handle Alpha → List (ClipCall Handle Alpha)
  | [], _ => []
  | .mk left top right bottom alpha' paints childs :: rest, s =>
    let s₁ := s.beginChild L left top right bottom alpha
    let inside := opened ++ [⟨left, top, right, bottom⟩]
    let f := .mk left top right bottom alpha' paints childs
    ⟨inside, s₁⟩ :: ((if s₁.rect.visible then clipCalls inside f s₁ else []) ++
      match if s₁.rect.visible then render L f s₁ else some s₁ with
      | none => []
      | some s₂ => ⟨opened, s₂.endChild⟩ :: clipCallsChilds opened alpha rest s₂.endChild)

end

/-- The state in which `RenderUI` starts the walk. -/
def start (width height : Int) (target : Handle) : State Handle Alpha :=
  ⟨[], [], window width height, [], target⟩

/-- The operation queued last sets the clip rectangle that is current. -/
def ClipCall.Queued (c : ClipCall Handle Alpha) : Prop :=
  c.state.ops.getLast? = some
    (.setClipRect c.state.rect.left c.state.rect.top c.state.rect.right c.state.rect.bottom)

/-- The clip rectangle is the intersection of the window and the open frames. -/
def ClipCall.Intersects (w : Box) (c : ClipCall Handle Alpha) : Prop :=
  ∀ x y, c.state.rect.box.Contains x y ↔ w.Contains x y ∧ ∀ b ∈ c.opened, b.Contains x y

def Op.isClip : Op Handle Alpha → Bool
  | .paint _ => false
  | _ => true

/-- **The clip rectangle follows the frames**: each operation that sets it was queued by one of the
calls, which queues the rectangle that is current behind it and is that of the open frames, and
the pass restores the stack. -/
structure Follows (width height : Int) (target : Handle) (root : Frame Handle Alpha) : Prop where
  clips : ∀ s, renderUI L width height target root = some s → s.ops.filter Op.isClip =
    (clipCalls L [] root (start width height target)).filterMap fun c => c.state.ops.getLast?
  queued : ∀ c ∈ clipCalls L [] root (start width height target), c.Queued
  intersects : ∀ c ∈ clipCalls L [] root (start width height target),
    c.Intersects ⟨0, 0, width, height⟩
  restored : ∀ s, renderUI L width height target root = some s →
    s.rects = [] ∧ s.rect = window width height

/-! ## The stack and the rectangle -/

theorem contains_childClip (rect : Clip Alpha) (left top right bottom : Int) (alpha : Option Alpha)
    (x y : Int) : (childClip L rect left top right bottom alpha).box.Contains x y ↔
      rect.box.Contains x y ∧ (⟨left, top, right, bottom⟩ : Box).Contains x y := by
  simp only [childClip, Clip.box, Box.Contains]
  omega

/-- The walk through a child, with its end, leaves the rectangle and the stack as they were. -/
theorem endChild_frame {s s₂ : State Handle Alpha} {left top right bottom : Int}
    {alpha : Option Alpha}
    (hrects : s₂.rects = (s.beginChild L left top right bottom alpha).rects) :
    s₂.endChild.rect = s.rect ∧ s₂.endChild.rects = s.rects := by
  constructor
  · change s₂.rects.getLast?.getD s₂.rect = s.rect
    rw [hrects]
    change (s.rects ++ [s.rect]).getLast?.getD s₂.rect = s.rect
    rw [List.getLast?_concat]
    rfl
  · change s₂.rects.dropLast = s.rects
    rw [hrects]
    exact List.dropLast_concat

/-- **The stack is restored**: a pass that ends leaves it as deep as it was. -/
theorem render_restored {f : Frame Handle Alpha} {s s' : State Handle Alpha}
    (h : render L f s = some s') : s'.rect = s.rect ∧ s'.rects = s.rects := by
  have hwalked := walked_render L f s s' h
  exact ⟨hwalked.rect, hwalked.rects⟩

theorem visit_restored {f : Frame Handle Alpha} {s₁ s₂ : State Handle Alpha} {visible : Prop}
    [Decidable visible] (h : (if visible then render L f s₁ else some s₁) = some s₂) :
    s₂.rects = s₁.rects := by
  split at h
  · exact (render_restored L h).2
  · cases h
    rfl

theorem paintAll_frame : ∀ (paints : List (Paint Handle Alpha)) {s s₁ : State Handle Alpha},
    paintAll L paints s = some s₁ → s₁.rect = s.rect ∧ s₁.rects = s.rects
  | [], s, s₁, h => by
    cases h
    exact ⟨rfl, rfl⟩
  | p :: paints, s, s₁, h => by
    obtain ⟨s₂, hs₂, h⟩ := Option.bind_eq_some_iff.mp h
    obtain ⟨hrect, hrects, -⟩ := paint_frame L hs₂
    obtain ⟨hrect', hrects'⟩ := paintAll_frame paints h
    exact ⟨hrect'.trans hrect, hrects'.trans hrects⟩

mutual

/-- **The rectangle at each call** is that of the open frames. -/
theorem clipCalls_intersects {w : Box} : ∀ (opened : List Box) (f : Frame Handle Alpha)
    (s : State Handle Alpha), ClipCall.Intersects w ⟨opened, s⟩ →
    ∀ c ∈ clipCalls L opened f s, c.Intersects w
  | opened, .mk _ _ _ _ alpha paints childs, s, h => by
    rw [clipCalls]
    cases hpaints : paintAll L paints s with
    | none => exact List.forall_mem_nil _
    | some s₁ =>
      have hrect := (paintAll_frame L paints hpaints).1
      refine clipCallsChilds_intersects opened alpha childs s₁ fun x y => ?_
      rw [hrect]
      exact h x y

theorem clipCallsChilds_intersects {w : Box} : ∀ (opened : List Box) (alpha : Option Alpha)
    (childs : List (Frame Handle Alpha)) (s : State Handle Alpha),
    ClipCall.Intersects w ⟨opened, s⟩ →
    ∀ c ∈ clipCallsChilds L opened alpha childs s, c.Intersects w
  | opened, alpha, [], s, _ => by
    rw [clipCallsChilds]
    exact List.forall_mem_nil _
  | opened, alpha, .mk left top right bottom alpha' paints childs :: rest, s, h => by
    let s₁ := s.beginChild L left top right bottom alpha
    let f : Frame Handle Alpha := .mk left top right bottom alpha' paints childs
    have hinside : ClipCall.Intersects w ⟨opened ++ [⟨left, top, right, bottom⟩], s₁⟩ := by
      intro x y
      change (childClip L s.rect left top right bottom alpha).box.Contains x y ↔ _
      rw [contains_childClip, h x y, List.forall_mem_append, List.forall_mem_singleton, and_assoc]
    rw [clipCallsChilds]
    rintro c (_ | ⟨_, hc⟩)
    · exact hinside
    · obtain hc | hc := List.mem_append.mp hc
      · split at hc
        · exact clipCalls_intersects _ f s₁ hinside c hc
        · exact absurd hc List.not_mem_nil
      · split at hc
        · exact absurd hc List.not_mem_nil
        · next s₂ hs₂ =>
          have hrect := (endChild_frame L (visit_restored L hs₂)).1
          have hend : ClipCall.Intersects w ⟨opened, s₂.endChild⟩ := by
            intro x y
            rw [hrect]
            exact h x y
          obtain rfl | hc := List.mem_cons.mp hc
          · exact hend
          · exact clipCallsChilds_intersects opened alpha rest _ hend c hc

end

/-! ## The operations -/

theorem paintAll_clips : ∀ (paints : List (Paint Handle Alpha)) {s s₁ : State Handle Alpha},
    paintAll L paints s = some s₁ → s₁.ops.filter Op.isClip = s.ops.filter Op.isClip
  | [], s, s₁, h => by
    cases h
    rfl
  | p :: paints, s, s₁, h => by
    obtain ⟨s₂, hs₂, h⟩ := Option.bind_eq_some_iff.mp h
    rw [paintAll_clips paints h]
    rw [State.paint] at hs₂
    split at hs₂
    · cases hs₂
      rfl
    · split at hs₂
      · cases hs₂
        rfl
      · obtain ⟨a, -, rfl⟩ := Option.map_eq_some_iff.mp hs₂
        split
        · rfl
        · exact (List.filter_append ..).trans (List.append_nil _)

mutual

/-- **Each operation that sets a clip rectangle** was queued by one of the calls. -/
theorem render_clips : ∀ (opened : List Box) (f : Frame Handle Alpha) (s s' : State Handle Alpha),
    render L f s = some s' → s'.ops.filter Op.isClip =
      s.ops.filter Op.isClip ++ (clipCalls L opened f s).filterMap fun c => c.state.ops.getLast?
  | opened, .mk left top right bottom alpha paints childs, s, s', h => by
    obtain ⟨s₁, hs₁, h⟩ := Option.bind_eq_some_iff.mp (by rwa [render] at h)
    rw [clipCalls, hs₁, ← paintAll_clips L paints hs₁]
    exact renderChilds_clips opened alpha childs s₁ s' h

theorem renderChilds_clips : ∀ (opened : List Box) (alpha : Option Alpha)
    (childs : List (Frame Handle Alpha)) (s s' : State Handle Alpha),
    renderChilds L alpha childs s = some s' → s'.ops.filter Op.isClip =
      s.ops.filter Op.isClip ++
        (clipCallsChilds L opened alpha childs s).filterMap fun c => c.state.ops.getLast?
  | opened, alpha, [], s, s', h => by
    rw [renderChilds] at h
    cases h
    rw [clipCallsChilds]
    exact (List.append_nil _).symm
  | opened, alpha, .mk left top right bottom alpha' paints childs :: rest, s, s', h => by
    rw [renderChilds] at h
    obtain ⟨s₂, hs₂, h⟩ := Option.bind_eq_some_iff.mp h
    let s₁ := s.beginChild L left top right bottom alpha
    let f : Frame Handle Alpha := .mk left top right bottom alpha' paints childs
    let inside := opened ++ [(⟨left, top, right, bottom⟩ : Box)]
    have hvisit : s₂.ops.filter Op.isClip = s₁.ops.filter Op.isClip ++
        (if s₁.rect.visible then clipCalls L inside f s₁ else []).filterMap
          fun c => c.state.ops.getLast? := by
      by_cases hvisible : s₁.rect.visible
      · rw [if_pos hvisible] at hs₂ ⊢
        exact render_clips inside f s₁ s₂ hs₂
      · rw [if_neg hvisible] at hs₂ ⊢
        cases hs₂
        exact (List.append_nil _).symm
    have hbegin : s₁.ops.filter Op.isClip = s.ops.filter Op.isClip ++ s₁.ops.getLast?.toList := by
      change (s.ops ++ [_]).filter _ = _ ++ (s.ops ++ [_]).getLast?.toList
      rw [List.filter_append, List.getLast?_concat]
      rfl
    have hend : s₂.endChild.ops.filter Op.isClip =
        s₂.ops.filter Op.isClip ++ s₂.endChild.ops.getLast?.toList := by
      change (s₂.ops ++ [_]).filter _ = _ ++ (s₂.ops ++ [_]).getLast?.toList
      rw [List.filter_append, List.getLast?_concat]
      rfl
    rw [renderChilds_clips opened alpha rest s₂.endChild s' h, hend, hvisit, hbegin,
      clipCallsChilds, hs₂, List.filterMap_cons]
    have hlast : ∃ op, s₁.ops.getLast? = some op := ⟨_, List.getLast?_concat⟩
    have hlast' : ∃ op, s₂.endChild.ops.getLast? = some op := ⟨_, List.getLast?_concat⟩
    obtain ⟨op, hop⟩ := hlast
    obtain ⟨op', hop'⟩ := hlast'
    simp only [s₁, f, inside] at hop ⊢
    rw [List.filterMap_append, List.filterMap_cons]
    simp only [hop, hop', Option.toList_some, List.append_assoc, List.cons_append,
      List.nil_append]

end

/-! ## Errors -/

/-- A paint that shows a bitmap: it multiplies by the alpha around. -/
def Paint.shows (p : Paint Handle Alpha) : Bool := (p.bitmap.bind Bitmap.handle).isSome

theorem paint_isSome {s : State Handle Alpha} {p : Paint Handle Alpha} :
    (s.paint L p).isSome ↔ p.shows = false ∨ s.rect.alpha.isSome := by
  rw [State.paint, Paint.shows]
  cases p.bitmap with
  | none => simp
  | some bitmap =>
    dsimp only
    cases hhandle : bitmap.handle with
    | none => simp [hhandle]
    | some handle => simp [hhandle]

/-- **The paints of a frame** end in an error when one shows a bitmap and the frame has no alpha
around it. -/
theorem paintAll_isSome : ∀ (paints : List (Paint Handle Alpha)) (s : State Handle Alpha),
    (paintAll L paints s).isSome ↔ (∀ p ∈ paints, p.shows = false) ∨ s.rect.alpha.isSome
  | [], s => by simp [paintAll]
  | p :: paints, s => by
    have hpaint := paint_isSome L (s := s) (p := p)
    rw [paintAll, List.forall_mem_cons]
    cases hs₁ : s.paint L p with
    | none =>
      rw [hs₁] at hpaint
      simp only [Option.isSome_none, Bool.false_eq_true, false_iff, not_or] at hpaint
      simp [hpaint]
    | some s₁ =>
      rw [hs₁] at hpaint
      rw [Option.bind_some, paintAll_isSome paints s₁, (paint_frame L hs₁).1]
      simp only [Option.isSome_some, true_iff] at hpaint
      tauto

/-- A visit of a child begins with an alpha around the child. -/
theorem visit_isSome {f : Frame Handle Alpha} (s : State Handle Alpha)
    (left top right bottom : Int) (alpha : Option Alpha)
    (h : ∀ s : State Handle Alpha, s.rect.alpha.isSome → (render L f s).isSome) :
    (if (s.beginChild L left top right bottom alpha).rect.visible then
      render L f (s.beginChild L left top right bottom alpha)
      else some (s.beginChild L left top right bottom alpha)).isSome := by
  split
  · exact h _ rfl
  · rfl

mutual

theorem render_isSome : ∀ (f : Frame Handle Alpha) (s : State Handle Alpha),
    s.rect.alpha.isSome → (render L f s).isSome
  | .mk left top right bottom alpha paints childs, s, h => by
    rw [render]
    obtain ⟨s₁, hs₁⟩ := Option.isSome_iff_exists.mp ((paintAll_isSome L paints s).mpr (.inr h))
    rw [hs₁, Option.bind_some]
    exact renderChilds_isSome alpha childs s₁

theorem renderChilds_isSome : ∀ (alpha : Option Alpha) (childs : List (Frame Handle Alpha))
    (s : State Handle Alpha), (renderChilds L alpha childs s).isSome
  | alpha, [], s => by
    rw [renderChilds]
    rfl
  | alpha, .mk left top right bottom alpha' paints childs :: rest, s => by
    rw [renderChilds]
    obtain ⟨s₂, hs₂⟩ := Option.isSome_iff_exists.mp (visit_isSome L s left top right bottom alpha
      (render_isSome (.mk left top right bottom alpha' paints childs)))
    rw [hs₂, Option.bind_some]
    exact renderChilds_isSome alpha rest s₂.endChild

end

/-! ## The root -/

def Frame.childs : Frame Handle Alpha → List (Frame Handle Alpha)
  | .mk _ _ _ _ _ _ childs => childs

def Frame.paints : Frame Handle Alpha → List (Paint Handle Alpha)
  | .mk _ _ _ _ _ paints _ => paints

/-- **The walk queues what it should exactly when it calls `EndChild` for no child**: the root has
none, or it shows a bitmap itself, which is an error. -/
theorem follows_iff (width height : Int) (target : Handle) (root : Frame Handle Alpha) :
    Follows L width height target root ↔ root.childs = [] ∨ ∃ p ∈ root.paints, p.shows := by
  obtain ⟨left, top, right, bottom, alpha, paints, childs⟩ := root
  change _ ↔ childs = [] ∨ ∃ p ∈ paints, p.shows
  have hpaints := paintAll_isSome L paints (start width height target)
  constructor
  · intro h
    by_contra hnot
    rw [not_or] at hnot
    obtain ⟨s₁, hs₁⟩ := Option.isSome_iff_exists.mp
      (hpaints.mpr (.inl fun p hp => by simpa using fun hshows => hnot.2 ⟨p, hp, hshows⟩))
    obtain ⟨⟨left', top', right', bottom', alpha', paints', childs'⟩, rest, rfl⟩ :=
      List.exists_cons_of_ne_nil hnot.1
    obtain ⟨s₂, hs₂⟩ := Option.isSome_iff_exists.mp (visit_isSome L s₁ left' top' right' bottom'
      alpha (render_isSome L (.mk left' top' right' bottom' alpha' paints' childs')))
    -- the end of the first child queues tables
    have hqueued := h.queued ⟨[], s₂.endChild⟩ (by
      rw [clipCalls, hs₁]
      dsimp only
      rw [clipCallsChilds, hs₂]
      exact List.mem_cons_of_mem _ (List.mem_append_right _ (List.mem_cons_self ..)))
    have hlast : s₂.endChild.ops.getLast? = some (.setClipRects (s₂.rects.dropLast.take 4)) :=
      List.getLast?_concat
    rw [ClipCall.Queued, hlast] at hqueued
    cases hqueued
  · intro h
    have hnone : clipCalls L [] (.mk left top right bottom alpha paints childs)
        (start width height target) = [] := by
      rw [clipCalls]
      cases hs₁ : paintAll L paints (start width height target) with
      | none => rfl
      | some s₁ =>
        rw [hs₁] at hpaints
        have hshows := (hpaints.mp rfl).resolve_right nofun
        obtain rfl | ⟨p, hp, hp'⟩ := h
        · dsimp only
          rw [clipCallsChilds]
        · exact absurd (hshows p hp) (by simpa using hp')
    exact ⟨fun s hs => render_clips L [] _ _ s hs, fun c hc => by simp [hnone] at hc,
      clipCalls_intersects L [] _ _ fun x y => by simp [start, window, Clip.box],
      fun s hs => (render_restored L hs).symm⟩

end

/-- A root with one child: the end of the child queues no coordinates. -/
theorem endChild_passes_tables : ¬ Follows lua 100 100 0
    (.mk 0 0 100 100 none [] [.mk 10 10 20 20 none [] []]) := by
  intro h
  have hclips := h.queued ⟨[], ⟨[.setClipRect 10 10 20 20, .setClipRects []], [],
    window 100 100, [], 0⟩⟩ (List.mem_of_getElem? (i := 1) rfl)
  exact absurd hclips (by simp [ClipCall.Queued])

end DWindow.UI.Render
