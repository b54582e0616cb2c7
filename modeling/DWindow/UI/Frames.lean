import DWindow.Lib.Acyclic
import DWindow.Lib.Fallible
import DWindow.Lib.Runs
import Mathlib.Data.List.Count
import Mathlib.Logic.Function.Basic

/-!
# The frame tree

`base_frame.lua` keeps the tree of frames twice: a frame has a `parent` and its parent has it
in `childs`.  `AddChild` asks that the frame has no parent and nothing else, so a frame can
be added to itself or to a frame below it, and it sets `parent` before `table.insert` may
raise an error.  `sound_iff` says which calls of `AddChild` keep a forest.

Frames are numbers, in the order in which they are created.
-/

namespace DWindow.UI

open Function Links Relation Runs

/-- An event is handed to a frame and on to the frames that its list names, with calls `depth`
levels deep: the frames that get it, in order. -/
def broadcast (childs : Nat → List Nat) : Nat → Nat → Option (List Nat)
  | 0, _ => none
  | depth + 1, self =>
    ((childs self).mapM (broadcast childs depth)).map fun below => self :: below.flatten

theorem broadcast_ends {childs : Nat → List Nat} {n : Nat}
    (hacyclic : Acyclic fun c p => c ∈ childs p) (hn : ∀ p, ∀ c ∈ childs p, c < n) {depth : Nat}
    (hdepth : n < depth) (self : Nat) : (broadcast childs depth self).isSome := by
  refine ends_of_bounded hacyclic childs (fun p c hc => ⟨hc, hn p c hc⟩)
    (P := fun depth c => (broadcast childs depth c).isSome) (fun depth c ih => ?_) hdepth self
  rw [broadcast, Option.isSome_map]
  exact Fallible.isSome_mapM ih

section Handlers

variable {σ : Type*}

/-- The same walk, with what the handlers of the frames do; `none` is one that does not
return. -/
def broadcastTo (handler : σ → Nat → Option σ) (childs : Nat → List Nat) :
    Nat → σ → Nat → Option σ
  | 0, _, _ => none
  | depth + 1, s, self =>
    (handler s self).bind fun s => (childs self).foldlM (broadcastTo handler childs depth) s

/-- **The handlers run one after the other**, in the order of the list. -/
theorem broadcastTo_eq (handler : σ → Nat → Option σ) (childs : Nat → List Nat) :
    ∀ (depth : Nat) (s : σ) (self : Nat), broadcastTo handler childs depth s self =
      (broadcast childs depth self).bind fun got => got.foldlM handler s := by
  intro depth
  induction depth with
  | zero => intro s self; rfl
  | succ depth ih =>
    have hchilds : ∀ (l : List Nat) (s : σ), l.foldlM (broadcastTo handler childs depth) s =
        (l.mapM (broadcast childs depth)).bind fun below => below.flatten.foldlM handler s := by
      intro l
      induction l with
      | nil => intro s; rfl
      | cons v l ihl =>
        intro s
        rw [List.foldlM_cons, ih, List.mapM_cons]
        cases broadcast childs depth v with
        | none => rfl
        | some got =>
          simp only [Option.bind_eq_bind, Option.bind_some, ihl]
          cases l.mapM (broadcast childs depth) with
          | none => simp
          | some below => simp [List.foldlM_append]
    intro s self
    rw [broadcastTo, broadcast, Option.bind_map]
    cases hbelow : (childs self).mapM (broadcast childs depth) with
    | none => simp [hchilds, hbelow]
    | some below => simp [hchilds, hbelow]

theorem broadcastTo_ends {handler : σ → Nat → Option σ} {childs : Nat → List Nat} {n : Nat}
    (hends : ∀ s F, (handler s F).isSome) (hacyclic : Acyclic fun c p => c ∈ childs p)
    (hn : ∀ p, ∀ c ∈ childs p, c < n) {depth : Nat} (hdepth : n < depth) (s : σ) (self : Nat) :
    (broadcastTo handler childs depth s self).isSome := by
  obtain ⟨got, hgot⟩ := Option.isSome_iff_exists.mp (broadcast_ends hacyclic hn hdepth self)
  rw [broadcastTo_eq, hgot, Option.bind_some]
  exact Fallible.isSome_foldlM s fun F _ s => hends s F

end Handlers

structure Frames where
  count : Nat
  parent : Nat → Option Nat
  childs : Nat → List Nat

namespace Frames

def init : Frames := ⟨0, fun _ => none, fun _ => []⟩

/-- `table.insert(childs, pos, frame)`; `none` is its error "position out of bounds". -/
def tableInsert (childs : List Nat) (pos : Option Int) (frame : Nat) : Option (List Nat) :=
  match pos with
  | none => some (childs ++ [frame])
  | some pos =>
    if 1 ≤ pos ∧ pos ≤ childs.length + 1 then some (childs.insertIdx (pos.toNat - 1) frame)
    else none

/-- `AddChild`.  What `error` prints does not end the call, `return false` does. -/
def addChild (s : Frames) (self : Nat) (frame : Option Nat) (pos : Option Int) : Frames :=
  match frame with
  | none => s
  | some frame =>
    match s.parent frame with
    | some _ => s
    | none =>
      match tableInsert (s.childs self) pos frame with
      | none => { s with parent := update s.parent frame (some self) }
      | some childs =>
        { s with
          parent := update s.parent frame (some self)
          childs := update s.childs self childs }

def create (s : Frames) (parent : Option Nat) : Frames :=
  let o := s.count
  let s : Frames := ⟨o + 1, update s.parent o none, update s.childs o []⟩
  match parent with
  | none => s
  | some parent => s.addChild parent (some o) none

def removeChild (s : Frames) (self : Nat) (frame : Option Nat) : Frames :=
  match frame with
  | none => s
  | some frame =>
    if s.parent frame = some self then
      { s with
        parent := update s.parent frame none
        childs := update s.childs self ((s.childs self).erase frame) }
    else s

def removeFromParent (s : Frames) (self : Nat) : Frames :=
  match s.parent self with
  | some parent => s.removeChild parent (some self)
  | none => s

def removeAllChilds (s : Frames) (self : Nat) : Frames :=
  (s.childs self).foldl removeFromParent s

/-- `BringToTop`, with calls of it `depth` levels deep; `none` when that is not enough. -/
def bringToTop (includeParent : Bool) : Nat → Frames → Nat → Option Frames
  | 0, _, _ => none
  | depth + 1, s, self =>
    match s.parent self with
    | none => some s
    | some parent =>
      let s := (s.removeFromParent self).addChild parent (some self) none
      if includeParent then bringToTop includeParent depth s parent else some s

/-- `OnEvent`: whether a frame on the way up handles the event. -/
def onEvent (s : Frames) (handles : Nat → Bool) : Nat → Nat → Option Bool
  | 0, _ => none
  | depth + 1, self =>
    if handles self then some true
    else
      match s.parent self with
      | some parent => onEvent s handles depth parent
      | none => some false

/-- `BroadCastEvent`: the frames that get the event, in order. -/
def broadCastEvent (s : Frames) : Nat → Nat → Option (List Nat) := broadcast s.childs

/-- `render`: the frames that are drawn, in order.  Whether a child's rectangle has anything
left of it depends on the frames that it is drawn inside of. -/
def render (s : Frames) (visible : List Nat → Bool) : Nat → List Nat → Nat → Option (List Nat)
  | 0, _, _ => none
  | depth + 1, inside, self =>
    (((s.childs self).filter fun v => visible (v :: self :: inside)).mapM
      (render s visible depth (self :: inside))).map fun below => self :: below.flatten

end Frames

/-! ## Sequences of calls -/

inductive FrameOp where
  | create (parent : Option Nat)
  | addChild (self : Nat) (frame : Option Nat) (pos : Option Int)
  | removeChild (self : Nat) (frame : Option Nat)
  | removeFromParent (self : Nat)
  | removeAllChilds (self : Nat)
  | bringToTop (self : Nat) (includeParent : Bool)

def FrameOp.frames : FrameOp → List Nat
  | .create parent => parent.toList
  | .addChild self frame _ => self :: frame.toList
  | .removeChild self frame => self :: frame.toList
  | .removeFromParent self => [self]
  | .removeAllChilds self => [self]
  | .bringToTop self _ => [self]

namespace Frames

def Known (s : Frames) (op : FrameOp) : Prop := ∀ f ∈ op.frames, f < s.count

instance (s : Frames) (op : FrameOp) : Decidable (s.Known op) :=
  inferInstanceAs (Decidable (∀ f ∈ op.frames, f < s.count))

/-- A call; more levels of `BringToTop` than there are frames never end. -/
def call (s : Frames) : FrameOp → Option Frames
  | .create parent => some (s.create parent)
  | .addChild self frame pos => some (s.addChild self frame pos)
  | .removeChild self frame => some (s.removeChild self frame)
  | .removeFromParent self => some (s.removeFromParent self)
  | .removeAllChilds self => some (s.removeAllChilds self)
  | .bringToTop self includeParent => bringToTop includeParent (s.count + 1) s self

/-- A call on frames that are there; `none` stands for a call that does not return. -/
def step (o : Option Frames) (op : FrameOp) : Option Frames :=
  o.bind fun s => if s.Known op then s.call op else some s

/-- The link to the parent. -/
def Below (s : Frames) (c p : Nat) : Prop := s.parent c = some p

/-- **The frame tree is a forest.** -/
structure Forest (s : Frames) : Prop where
  count_childs : ∀ p c, (s.childs p).count c = if s.parent c = some p then 1 else 0
  acyclic : Acyclic s.Below

/-- What follows the links of a forest ends. -/
structure Sound (s : Frames) : Prop extends s.Forest where
  onEvent_ends : ∀ (handles : Nat → Bool) (depth frame : Nat), s.count < depth →
    (s.onEvent handles depth frame).isSome
  broadCastEvent_ends : ∀ depth frame : Nat, s.count < depth →
    (s.broadCastEvent depth frame).isSome
  render_ends : ∀ (visible : List Nat → Bool) (depth frame : Nat), s.count < depth →
    (s.render visible depth [] frame).isSome

/-- The call does not add a frame without a parent to itself or to a frame below it, nor at a
position that the childs do not have. -/
def KeepsForest (o : Option Frames) : FrameOp → Prop
  | .addChild self (some frame) pos => ∀ s ∈ o, self < s.count → frame < s.count →
      s.parent frame = none → ¬ReflTransGen s.Below self frame ∧
        ∀ p ∈ pos, 1 ≤ p ∧ p ≤ (s.childs self).length + 1
  | _ => True

/-! ## The links after a call -/

structure Tree (s : Frames) : Prop extends s.Forest where
  bounded : ∀ c p, s.parent c = some p → c < s.count ∧ p < s.count

theorem Forest.mem_childs {s : Frames} (h : s.Forest) {c p : Nat} :
    c ∈ s.childs p ↔ s.parent c = some p := by
  rw [← List.count_pos_iff, h.count_childs]
  split <;> simp_all

theorem init_tree : init.Tree :=
  { count_childs := fun _ _ => rfl
    acyclic := fun a ha => by
      obtain ⟨_, h, _⟩ := TransGen.head'_iff.mp ha
      cases h
    bounded := fun _ _ h => by cases h }

theorem below_attach {s : Frames} {frame : Nat} (hnone : s.parent frame = none) (self : Nat)
    (childs : Nat → List Nat) (c p : Nat) :
    Below ⟨s.count, update s.parent frame (some self), childs⟩ c p ↔
      Links.insert s.Below frame self c p := by
  by_cases hc : c = frame
  · subst hc
    simp [Below, Links.insert, hnone, eq_comm]
  · simp [Below, Links.insert, hc]

/-- `AddChild` sets the parent also when the position is out of bounds. -/
theorem parent_addChild {s : Frames} {frame : Nat} (hnone : s.parent frame = none) (self : Nat)
    (pos : Option Int) : (s.addChild self (some frame) pos).count = s.count ∧
      (s.addChild self (some frame) pos).parent = update s.parent frame (some self) := by
  rw [addChild, hnone]
  cases tableInsert (s.childs self) pos frame <;> exact ⟨rfl, rfl⟩

theorem parent_create (s : Frames) (parent : Option Nat) :
    (s.create parent).count = s.count + 1 ∧
      (s.create parent).parent = update s.parent s.count parent := by
  cases parent with
  | none => exact ⟨rfl, rfl⟩
  | some parent =>
    obtain ⟨hcount, hparent⟩ := parent_addChild
      (s := ⟨s.count + 1, update s.parent s.count none, update s.childs s.count []⟩)
      (update_self s.count none s.parent) parent none
    refine ⟨hcount, hparent.trans ?_⟩
    exact update_idem ..

theorem Tree.attach {s : Frames} (h : s.Tree) {self frame : Nat} (hself : self < s.count)
    (hframe : frame < s.count) (hnone : s.parent frame = none) {l : List Nat}
    (hl : l.Perm (frame :: s.childs self)) (hfree : ¬ReflTransGen s.Below self frame) :
    Tree ⟨s.count, update s.parent frame (some self), update s.childs self l⟩ := by
  refine ⟨⟨fun p c => ?_, ?_⟩, fun c p hcp => ?_⟩
  · have hold := h.count_childs p c
    by_cases hc : c = frame
    · subst hc
      rw [hnone, if_neg (by simp)] at hold
      by_cases hp : p = self
      · subst hp
        simp [hl.count_eq, hold]
      · simp [hp, hold, Ne.symm hp]
    · by_cases hp : p = self
      · subst hp
        simpa [hl.count_eq, hc, List.count_cons, Ne.symm hc] using hold
      · simpa [hc, hp] using hold
  · exact (acyclic_congr (below_attach hnone self _)).mpr ((acyclic_insert_iff h.acyclic).mpr hfree)
  · obtain hcp | ⟨rfl, rfl⟩ := (below_attach hnone self _ c p).mp hcp
    · exact h.bounded c p hcp
    · exact ⟨hframe, hself⟩

theorem Tree.removeChild {s : Frames} (h : s.Tree) (self : Nat) (frame : Option Nat) :
    (s.removeChild self frame).Tree := by
  cases frame with
  | none => exact h
  | some frame =>
    rw [Frames.removeChild]
    split
    · rename_i hparent
      have hlink : ∀ c p, update s.parent frame none c = some p → s.parent c = some p := by
        intro c p hcp
        by_cases hc : c = frame
        · subst hc
          simp at hcp
        · simpa [hc] using hcp
      refine ⟨⟨fun p c => ?_, h.acyclic.mono hlink⟩,
        fun c p hcp => h.bounded c p (hlink c p hcp)⟩
      have hold := h.count_childs p c
      by_cases hc : c = frame
      · subst hc
        by_cases hp : p = self
        · subst hp
          simp [List.count_erase_self, hold, hparent]
        · simpa [hp, hparent, Ne.symm hp] using hold
      · by_cases hp : p = self
        · subst hp
          simpa [hc, List.count_erase_of_ne hc] using hold
        · simpa [hc, hp] using hold
    · exact h

theorem Tree.removeFromParent {s : Frames} (h : s.Tree) (self : Nat) :
    (s.removeFromParent self).Tree := by
  rw [Frames.removeFromParent]
  split
  · exact h.removeChild _ _
  · exact h

theorem Tree.removeAllChilds {s : Frames} (h : s.Tree) (self : Nat) :
    (s.removeAllChilds self).Tree :=
  run_invariant Tree (fun _ v hs => hs.removeFromParent v) (s.childs self) s h

theorem tableInsert_perm {childs l : List Nat} {pos : Option Int} {frame : Nat}
    (h : tableInsert childs pos frame = some l) : l.Perm (frame :: childs) := by
  cases pos with
  | none =>
    cases h
    exact List.perm_append_singleton frame childs
  | some pos =>
    rw [tableInsert] at h
    split at h
    · cases h
      exact List.perm_insertIdx frame childs (by omega)
    · cases h

theorem tableInsert_eq_none {childs : List Nat} {pos : Option Int} {frame : Nat} :
    tableInsert childs pos frame = none ↔ ¬∀ p ∈ pos, 1 ≤ p ∧ p ≤ childs.length + 1 := by
  cases pos with
  | none => simp [tableInsert]
  | some pos => simp [tableInsert]

/-- A forest after `AddChild` of a frame without a parent. -/
theorem Tree.of_addChild {s : Frames} (h : s.Tree) {self frame : Nat} {pos : Option Int}
    (hnone : s.parent frame = none) (hforest : (s.addChild self (some frame) pos).Forest) :
    ¬ReflTransGen s.Below self frame ∧ ∀ p ∈ pos, 1 ≤ p ∧ p ≤ (s.childs self).length + 1 := by
  rw [addChild, hnone] at hforest
  cases hins : tableInsert (s.childs self) pos frame with
  | none =>
    -- the frame has got the parent, which does not have it
    rw [hins] at hforest
    have hmem : frame ∈ s.childs self := hforest.mem_childs.mpr (update_self ..)
    rw [h.mem_childs, hnone] at hmem
    cases hmem
  | some l =>
    rw [hins] at hforest
    have hacyclic := (acyclic_congr (below_attach hnone self _)).mp hforest.acyclic
    refine ⟨(acyclic_insert_iff h.acyclic).mp hacyclic, ?_⟩
    by_contra hpos
    rw [tableInsert_eq_none.mpr hpos] at hins
    cases hins

theorem Tree.addChild {s : Frames} (h : s.Tree) {self frame : Nat} (hself : self < s.count)
    (hframe : frame < s.count) {pos : Option Int}
    (hok : s.parent frame = none → ¬ReflTransGen s.Below self frame ∧
      ∀ p ∈ pos, 1 ≤ p ∧ p ≤ (s.childs self).length + 1) :
    (s.addChild self (some frame) pos).Tree := by
  rw [Frames.addChild]
  cases hnone : s.parent frame with
  | some p => exact h
  | none =>
    obtain ⟨hfree, hpos⟩ := hok hnone
    cases hins : tableInsert (s.childs self) pos frame with
    | none => exact absurd hpos (tableInsert_eq_none.mp hins)
    | some l => exact h.attach hself hframe hnone (tableInsert_perm hins) hfree

theorem Tree.create {s : Frames} (h : s.Tree) {parent : Option Nat}
    (hparent : ∀ p ∈ parent, p < s.count) : (s.create parent).Tree := by
  have hnone : s.parent s.count = none := by
    cases hp : s.parent s.count with
    | none => rfl
    | some p => exact absurd (h.bounded _ _ hp).1 (Nat.lt_irrefl _)
  have hchilds : s.childs s.count = [] := by
    refine List.eq_nil_iff_forall_not_mem.mpr fun c hc => ?_
    exact absurd (h.bounded _ _ (h.mem_childs.mp hc)).2 (Nat.lt_irrefl _)
  have hnew : Tree ⟨s.count + 1, s.parent, s.childs⟩ :=
    ⟨⟨h.count_childs, h.acyclic⟩, fun c p hcp => ⟨Nat.lt_succ_of_lt (h.bounded c p hcp).1,
      Nat.lt_succ_of_lt (h.bounded c p hcp).2⟩⟩
  have hfresh : (⟨s.count + 1, update s.parent s.count none, update s.childs s.count []⟩ : Frames) =
      ⟨s.count + 1, s.parent, s.childs⟩ := by
    rw [update_eq_self_iff.mpr hnone.symm, update_eq_self_iff.mpr hchilds.symm]
  cases parent with
  | none =>
    change Tree ⟨s.count + 1, update s.parent s.count none, update s.childs s.count []⟩
    rw [hfresh]
    exact hnew
  | some p =>
    change (Frames.addChild ⟨s.count + 1, update s.parent s.count none, update s.childs s.count []⟩
      p (some s.count) none).Tree
    rw [hfresh]
    have hp : p < s.count := hparent p rfl
    refine hnew.addChild (Nat.lt_succ_of_lt hp) (Nat.lt_succ_self _) fun _ => ⟨fun hup => ?_, ?_⟩
    · obtain heq | ⟨c, _, hlink⟩ := ReflTransGen.cases_tail_iff _ _ _ |>.mp hup
      · exact absurd hp (heq ▸ Nat.lt_irrefl _)
      · exact absurd (h.bounded c _ hlink).2 (Nat.lt_irrefl _)
    · exact fun _ hpos => by cases hpos

theorem Tree.toTop {s : Frames} (h : s.Tree) {self parent : Nat}
    (hparent : s.parent self = some parent) :
    ((s.removeFromParent self).addChild parent (some self) none).Tree ∧
    ((s.removeFromParent self).addChild parent (some self) none).parent = s.parent ∧
    ((s.removeFromParent self).addChild parent (some self) none).count = s.count := by
  have hremoved : s.removeFromParent self =
      ⟨s.count, update s.parent self none,
        update s.childs parent ((s.childs parent).erase self)⟩ := by
    rw [Frames.removeFromParent, hparent]
    exact if_pos hparent
  have htree := h.removeFromParent self
  rw [hremoved] at htree ⊢
  obtain ⟨hself, hbound⟩ := h.bounded self parent hparent
  refine ⟨htree.addChild hbound hself fun _ => ⟨fun hup => ?_, fun _ hpos => by cases hpos⟩, ?_, ?_⟩
  · -- the way up from the parent does not come to the frame
    have hold : ReflTransGen s.Below parent self := by
      refine ReflTransGen.mono (fun c p hcp => ?_) _ _ hup
      have hne : c ≠ self := by
        rintro rfl
        simp [Below] at hcp
      simpa [Below, hne] using hcp
    exact h.acyclic self (TransGen.head' hparent hold)
  · simp [Frames.addChild, tableInsert, ← hparent]
  · simp [Frames.addChild, tableInsert]

theorem Tree.bringToTop {s : Frames} (h : s.Tree) (includeParent : Bool) (self : Nat) :
    ∃ s', bringToTop includeParent (s.count + 1) s self = some s' ∧ s'.Tree := by
  -- the links to the parents stay as they are, and so does the number of levels needed
  refine ends_of_bounded (q := fun p c => s.Below c p) (n := s.count)
    (acyclic_swap.mpr h.acyclic) (fun c => (s.parent c).toList) ?_
    (P := fun depth c => ∀ t : Frames, t.Tree → t.parent = s.parent →
      ∃ s', Frames.bringToTop includeParent depth t c = some s' ∧ s'.Tree) ?_
    (Nat.lt_succ_self _) self s h rfl
  · intro c p hp
    rw [Option.mem_toList] at hp
    exact ⟨hp, (h.bounded c p hp).2⟩
  · intro depth c ih t ht hsame
    rw [Frames.bringToTop]
    cases hparent : t.parent c with
    | none => exact ⟨t, rfl, ht⟩
    | some p =>
      obtain ⟨htree, hlinks, -⟩ := ht.toTop hparent
      cases includeParent with
      | false => exact ⟨_, rfl, htree⟩
      | true =>
        refine ih p ?_ _ htree (hlinks.trans hsame)
        rw [Option.mem_toList, ← hsame]
        exact hparent

/-- **What follows the links of a forest ends.** -/
theorem Tree.sound {s : Frames} (h : s.Tree) : s.Sound := by
  have hchilds : ∀ a, ∀ c ∈ s.childs a, s.Below c a ∧ c < s.count := fun a c hc =>
    ⟨h.mem_childs.mp hc, (h.bounded c a (h.mem_childs.mp hc)).1⟩
  refine ⟨h.toForest, fun handles depth frame hdepth => ?_, fun depth frame hdepth => ?_,
    fun visible depth frame hdepth => ?_⟩
  · refine ends_of_bounded (q := fun p c => s.Below c p) (acyclic_swap.mpr h.acyclic)
      (fun c => (s.parent c).toList) (fun c p hp => ?_)
      (P := fun depth c => (s.onEvent handles depth c).isSome) (fun depth c ih => ?_) hdepth
      frame
    · rw [Option.mem_toList] at hp
      exact ⟨hp, (h.bounded c p hp).2⟩
    · rw [onEvent]
      split
      · rfl
      · cases hparent : s.parent c with
        | none => rfl
        | some p => exact ih p (by rw [Option.mem_toList]; exact hparent)
  · exact broadcast_ends (h.acyclic.mono fun c p hc => h.mem_childs.mp hc)
      (fun p c hc => (hchilds p c hc).2) hdepth frame
  · refine ends_of_bounded h.acyclic s.childs hchilds
      (P := fun depth c => ∀ inside, (s.render visible depth inside c).isSome)
      (fun depth c ih inside => ?_) hdepth frame []
    rw [render, Option.isSome_map]
    exact Fallible.isSome_mapM fun v hv => ih v (List.mem_of_mem_filter hv) _

/-! ## Runs -/

theorem Tree.call {s : Frames} (h : s.Tree) {op : FrameOp} (hknown : s.Known op)
    (hok : KeepsForest (some s) op) : ∃ s', s.call op = some s' ∧ s'.Tree := by
  cases op with
  | create parent =>
    exact ⟨_, rfl, h.create fun p hp => hknown p (Option.mem_toList.mpr hp)⟩
  | addChild self frame pos =>
    cases frame with
    | none => exact ⟨_, rfl, h⟩
    | some frame =>
      have hself : self < s.count := hknown self (List.mem_cons_self ..)
      have hframe : frame < s.count := hknown frame (by simp [FrameOp.frames])
      exact ⟨_, rfl, h.addChild hself hframe fun hnone => hok s rfl hself hframe hnone⟩
  | removeChild self frame => exact ⟨_, rfl, h.removeChild self frame⟩
  | removeFromParent self => exact ⟨_, rfl, h.removeFromParent self⟩
  | removeAllChilds self => exact ⟨_, rfl, h.removeAllChilds self⟩
  | bringToTop self includeParent => exact h.bringToTop includeParent self

/-- **The frame tree is a forest in every state of a run, and what follows its links ends,
exactly when every call of `AddChild` keeps it one.** -/
theorem sound_iff (ops : List FrameOp) :
    (∀ k, ∃ s ∈ run step (some init) (ops.take k), s.Sound) ↔
      Along step KeepsForest (some init) ops := by
  refine forall_take_iff_along_of (P := fun o => ∃ s ∈ o, s.Sound) (fun o => ∃ s ∈ o, s.Tree)
    ?_ ?_ ?_ ops (some init) ⟨init, rfl, init_tree⟩
  · rintro o ⟨s, hs, htree⟩
    exact ⟨s, hs, htree.sound⟩
  · rintro o op ⟨s, rfl, htree⟩ hok
    rw [step, Option.bind_some]
    split
    · rename_i hknown
      obtain ⟨s', hs', htree'⟩ := htree.call hknown hok
      exact ⟨s', hs', htree'⟩
    · exact ⟨s, rfl, htree⟩
  · rintro o op ⟨s, rfl, htree⟩ ⟨s', hs', hsound⟩
    cases op with
    | addChild self frame pos =>
      cases frame with
      | none => trivial
      | some frame =>
        rintro t ⟨⟩ hself hframe hnone
        have hknown : s.Known (.addChild self (some frame) pos) := by
          simp [Known, FrameOp.frames, hself, hframe]
        rw [step, Option.bind_some, if_pos hknown] at hs'
        cases hs'
        exact htree.of_addChild hnone hsound.toForest
    | _ => trivial

/-- The first frame is added to itself. -/
theorem added_to_itself :
    ¬∃ s ∈ run step (some init) [.create none, .addChild 0 (some 0) none], s.Sound := by
  rintro ⟨s, hs, hsound⟩
  have hparent : s.parent 0 = some 0 := by
    cases hs
    rfl
  exact hsound.acyclic 0 (.single hparent)

end Frames
end DWindow.UI
