import DWindow.Lib.Runs
import Mathlib.Data.List.Nodup

/-!
# The playlist

`playlist.lua`: a list of files, each a left and a right name, and the number of the one
that plays, 0 when none does.  `playing` is moved by `play_item` alone; `remove_item` takes
an item out of the list and leaves it as it is.  `cursor_follows_iff` says which removals that
comes right for.
-/

namespace DWindow.UI

open Runs

/-- How a call of `player.reset_and_loadfile` ends, with `parseURL` in front of it: with a
true value, with `false` or `nil`, or with an error. -/
inductive Load where
  | loaded
  | failed
  | raised
  deriving DecidableEq

/-- `setting.playlist`, with the item last passed to `play_item` while it is in the list. -/
structure Playlist (Item : Type*) where
  list : List Item
  playing : Nat
  last : Option Item
  deriving DecidableEq

namespace Playlist

variable {Item : Type*}

def init : Playlist Item := ⟨[], 0, none⟩

def item (s : Playlist Item) : Nat → Option Item
  | 0 => none
  | n + 1 => s.list[n]?

/-- `playlist:play_item`, and what it returns. -/
def playItem (s : Playlist Item) (n : Option Int) (load : Load) : Playlist Item × Load :=
  match n with
  | none => (s, .failed)
  | some n =>
    if n < 1 ∨ s.list.length < n then (s, .failed)
    else ({ s with playing := n.toNat, last := s.item n.toNat }, load)

theorem playItem_of_le {s : Playlist Item} {n : Nat} (h1 : 1 ≤ n) (hn : n ≤ s.list.length)
    (load : Load) :
    s.playItem (some n) load = ({ s with playing := n, last := s.item n }, load) := by
  rw [playItem, if_neg (by omega), Int.toNat_natCast]

/-- `playlist:next`, where the loads it comes to end as `loads` says.  An error leaves all
the calls. -/
def next (s : Playlist Item) (loads : Nat → Load) : Playlist Item :=
  if s.playing < s.list.length then
    let played := s.playItem (some (s.playing + 1 : Nat)) (loads 0)
    if played.2 = .failed then next played.1 fun k => loads (k + 1) else played.1
  else s
termination_by s.list.length - s.playing
decreasing_by
  rw [playItem_of_le (by omega) (by omega)]
  change s.list.length - (s.playing + 1) < s.list.length - s.playing
  omega

def previous (s : Playlist Item) (load : Load) : Playlist Item :=
  if 1 < s.playing then (s.playItem (some (s.playing - 1 : Nat)) load).1 else s

variable [DecidableEq Item]

def getPos (s : Playlist Item) (x : Item) : Option Nat :=
  (s.list.idxOf? x).map (· + 1)

/-- `playlist:add`: the parameter `pos` is hidden by a local of that name. -/
def add (s : Playlist Item) (x : Item) : Playlist Item × Nat :=
  match s.getPos x with
  | some pos => (s, pos)
  | none => ({ s with list := s.list ++ [x] }, s.list.length + 1)

def play (s : Playlist Item) (x : Item) (movieLoaded : Bool) (load : Load) : Playlist Item :=
  if s.getPos x = some s.playing ∧ movieLoaded = false then (s.playItem (some s.playing) load).1
  else ((s.add x).1.playItem (some (s.add x).2) load).1

/-- `playlist:remove_item`: `table.remove` raises an error at a position it does not have. -/
def removeItem (s : Playlist Item) (pos : Option Int) : Playlist Item :=
  match pos with
  | none => s
  | some pos =>
    if 1 ≤ pos ∧ pos ≤ s.list.length then { s with list := s.list.eraseIdx (pos.toNat - 1) }
    else s

def remove (s : Playlist Item) (x : Item) : Playlist Item :=
  s.removeItem ((s.getPos x).map Int.ofNat)

def clear (s : Playlist Item) : Playlist Item := { s with list := [], playing := 0 }

end Playlist

/-! ## Sequences of calls -/

/-- A call, with what it finds and how the loads it comes to end. -/
inductive PlaylistOp (Item : Type*) where
  | add (x : Item)
  | play (x : Item) (movieLoaded : Bool) (load : Load)
  | playItem (n : Option Int) (load : Load)
  | remove (x : Item)
  | removeItem (pos : Option Int)
  | clear
  | next (loads : Nat → Load)
  | previous (load : Load)

namespace Playlist

variable {Item : Type*} [DecidableEq Item]

def call (s : Playlist Item) : PlaylistOp Item → Playlist Item
  | .add x => (s.add x).1
  | .play x movieLoaded load => s.play x movieLoaded load
  | .playItem n load => (s.playItem n load).1
  | .remove x => s.remove x
  | .removeItem pos => s.removeItem pos
  | .clear => s.clear
  | .next loads => s.next loads
  | .previous load => s.previous load

/-- The item last played is followed as long as it is in the list. -/
def forget (s : Playlist Item) : Playlist Item :=
  { s with last := s.last.filter (· ∈ s.list) }

def step (s : Playlist Item) (op : PlaylistOp Item) : Playlist Item := (s.call op).forget

/-- **The cursor follows the playing item.** -/
structure Follows (s : Playlist Item) : Prop where
  playing_le : s.playing ≤ s.list.length
  nodup : s.list.Nodup
  item_playing : ∀ x, s.last = some x → s.item s.playing = some x

def removed (s : Playlist Item) : PlaylistOp Item → Option Nat
  | .remove x => s.getPos x
  | .removeItem (some pos) => if 1 ≤ pos ∧ pos ≤ s.list.length then some pos.toNat else none
  | _ => none

/-- An item is taken out behind the cursor or at it, or in front of it when nothing that was
played is left, and never with the cursor at the end of the list. -/
def KeepsCursor (s : Playlist Item) (op : PlaylistOp Item) : Prop :=
  ∀ pos, s.removed op = some pos → s.playing < s.list.length ∧ (pos < s.playing → s.last = none)

/-! ## One call -/

omit [DecidableEq Item] in
theorem init_follows : (init : Playlist Item).Follows :=
  ⟨Nat.le_refl _, List.nodup_nil, fun _ h => by cases h⟩

omit [DecidableEq Item] in
theorem Follows.playItem {s : Playlist Item} (h : s.Follows) (n : Option Int) (load : Load) :
    (s.playItem n load).1.Follows := by
  cases n with
  | none => exact h
  | some n =>
    rw [Playlist.playItem]
    split
    · exact h
    · rename_i hn
      exact ⟨by change n.toNat ≤ s.list.length; omega, h.nodup, fun x hx => hx⟩

theorem getPos_eq_none {s : Playlist Item} {x : Item} : s.getPos x = none ↔ x ∉ s.list := by
  rw [getPos, Option.map_eq_none_iff, List.idxOf?_eq_none_iff]

theorem Follows.add {s : Playlist Item} (h : s.Follows) (x : Item) : (s.add x).1.Follows := by
  rw [Playlist.add]
  cases hpos : s.getPos x with
  | some pos => exact h
  | none =>
    have hx := getPos_eq_none.mp hpos
    refine ⟨?_, ?_, ?_⟩
    · change s.playing ≤ (s.list ++ [x]).length
      rw [List.length_append]
      exact Nat.le_add_right_of_le h.playing_le
    · exact List.nodup_append.mpr ⟨h.nodup, List.nodup_singleton x, fun a ha b hb hab =>
        hx (by rw [List.mem_singleton] at hb; rwa [← hb, ← hab])⟩
    · intro y hy
      have hitem := h.item_playing y hy
      change Playlist.item ⟨s.list ++ [x], s.playing, s.last⟩ s.playing = some y
      cases hp : s.playing with
      | zero =>
        rw [hp] at hitem
        cases hitem
      | succ k =>
        rw [hp] at hitem
        rw [Playlist.item, List.getElem?_append_left (List.getElem?_eq_some_iff.mp hitem).1]
        exact hitem

theorem Follows.play {s : Playlist Item} (h : s.Follows) (x : Item) (movieLoaded : Bool)
    (load : Load) : (s.play x movieLoaded load).Follows := by
  rw [Playlist.play]
  split
  · exact h.playItem _ load
  · exact (h.add x).playItem _ load

omit [DecidableEq Item] in
theorem Follows.next {s : Playlist Item} (h : s.Follows) (loads : Nat → Load) :
    (s.next loads).Follows := by
  induction s, loads using Playlist.next.induct with
  | case1 s loads hlt played hfailed ih =>
    rw [Playlist.next, if_pos hlt]
    exact (if_pos hfailed).symm ▸ ih (h.playItem _ _)
  | case2 s loads hlt played hfailed =>
    rw [Playlist.next, if_pos hlt]
    exact (if_neg hfailed).symm ▸ h.playItem _ _
  | case3 s loads hge =>
    rw [Playlist.next, if_neg hge]
    exact h

omit [DecidableEq Item] in
theorem Follows.previous {s : Playlist Item} (h : s.Follows) (load : Load) :
    (s.previous load).Follows := by
  rw [Playlist.previous]
  split
  · exact h.playItem _ load
  · exact h

theorem clear_follows (s : Playlist Item) : s.clear.forget.Follows :=
  ⟨Nat.le_refl _, List.nodup_nil, fun x hx => by
    have hmem := (Option.mem_filter_iff.mp hx).2
    exact absurd (of_decide_eq_true hmem) List.not_mem_nil⟩

theorem Follows.forget {s : Playlist Item} (h : s.Follows) : s.forget.Follows :=
  ⟨h.playing_le, h.nodup, fun x hx => h.item_playing x (Option.mem_filter_iff.mp hx).1⟩

/-- **A removal keeps the cursor exactly then.** -/
theorem Follows.eraseIdx_iff {s : Playlist Item} (h : s.Follows) {pos : Nat} (h1 : 1 ≤ pos)
    (hpos : pos ≤ s.list.length) :
    (Playlist.forget { s with list := s.list.eraseIdx (pos - 1) }).Follows ↔
      s.playing < s.list.length ∧ (pos < s.playing → s.last = none) := by
  have hlen : (s.list.eraseIdx (pos - 1)).length = s.list.length - 1 :=
    List.length_eraseIdx_of_lt (by omega)
  constructor
  · intro hafter
    have hle : s.playing ≤ (s.list.eraseIdx (pos - 1)).length := hafter.playing_le
    refine ⟨by omega, fun hlt => ?_⟩
    cases hlast : s.last with
    | none => rfl
    | some x =>
      obtain ⟨k, hk⟩ : ∃ k, s.playing = k + 1 := ⟨s.playing - 1, by omega⟩
      have hx : s.list[k]? = some x := by
        have hitem := h.item_playing x hlast
        rwa [hk] at hitem
      -- the item is still in the list, one place further to the front
      have hmem : x ∈ s.list.eraseIdx (pos - 1) :=
        List.mem_eraseIdx_iff_getElem?.mpr ⟨k, by omega, hx⟩
      have hstill := hafter.item_playing x
        (Option.mem_filter_iff.mpr ⟨hlast, decide_eq_true hmem⟩)
      change Playlist.item ⟨s.list.eraseIdx (pos - 1), s.playing, _⟩ s.playing = some x at hstill
      rw [hk, Playlist.item, List.getElem?_eraseIdx_of_ge (by omega), ← hx,
        List.getElem?_inj (by omega) h.nodup] at hstill
      omega
  · rintro ⟨hlt, hfront⟩
    refine ⟨by change s.playing ≤ (s.list.eraseIdx (pos - 1)).length; omega,
      h.nodup.sublist (List.eraseIdx_sublist ..), fun x hx => ?_⟩
    obtain ⟨hlast, hmem⟩ := Option.mem_filter_iff.mp hx
    obtain ⟨i, hi, hget⟩ := List.mem_eraseIdx_iff_getElem?.mp (of_decide_eq_true hmem)
    have hitem := h.item_playing x hlast
    have hbehind : ¬pos < s.playing := fun hp => by
      rw [hfront hp] at hlast
      cases hlast
    change Playlist.item ⟨s.list.eraseIdx (pos - 1), s.playing, _⟩ s.playing = some x
    cases hp : s.playing with
    | zero =>
      rw [hp] at hitem
      cases hitem
    | succ k =>
      rw [hp] at hitem
      have hik : i = k := by
        rw [← List.getElem?_inj (List.getElem?_eq_some_iff.mp hget).1 h.nodup, hget]
        exact hitem.symm
      rw [Playlist.item, List.getElem?_eraseIdx_of_lt (by omega)]
      exact hitem

theorem Follows.call {s : Playlist Item} (h : s.Follows) {op : PlaylistOp Item}
    (hop : s.removed op = none) : (s.step op).Follows := by
  cases op with
  | add x => exact (h.add x).forget
  | play x movieLoaded load => exact (h.play x movieLoaded load).forget
  | playItem n load => exact (h.playItem n load).forget
  | remove x =>
    have hpos : s.getPos x = none := hop
    rw [step, Playlist.call, Playlist.remove, hpos]
    exact h.forget
  | removeItem pos =>
    cases pos with
    | none => exact h.forget
    | some pos =>
      rw [removed] at hop
      split at hop
      · cases hop
      · rename_i hout
        rw [step, Playlist.call, Playlist.removeItem, if_neg hout]
        exact h.forget
  | clear => exact s.clear_follows
  | next loads => exact (h.next loads).forget
  | previous load => exact (h.previous load).forget

theorem step_of_removed {s : Playlist Item} {op : PlaylistOp Item} {pos : Nat}
    (hop : s.removed op = some pos) : 1 ≤ pos ∧ pos ≤ s.list.length ∧
      s.step op = forget { s with list := s.list.eraseIdx (pos - 1) } := by
  cases op with
  | remove x =>
    have hpos : s.getPos x = some pos := hop
    obtain ⟨i, hi, rfl⟩ := Option.map_eq_some_iff.mp hpos
    have hlt : i < s.list.length := (List.idxOf?_eq_some_iff.mp hi).1
    refine ⟨by omega, by omega, ?_⟩
    rw [step, Playlist.call, Playlist.remove, hpos]
    have hin : 1 ≤ ((i + 1 : Nat) : Int) ∧ ((i + 1 : Nat) : Int) ≤ s.list.length := by omega
    exact congrArg forget (if_pos hin)
  | removeItem p =>
    cases p with
    | none => cases hop
    | some p =>
      rw [removed] at hop
      split at hop
      · rename_i hin
        obtain rfl := Option.some.inj hop
        exact ⟨by omega, by omega, congrArg forget (if_pos hin)⟩
      · cases hop
  | _ => cases hop

theorem Follows.step_iff {s : Playlist Item} (h : s.Follows) (op : PlaylistOp Item) :
    (s.step op).Follows ↔ s.KeepsCursor op := by
  cases hop : s.removed op with
  | none =>
    refine iff_of_true (h.call hop) fun pos hpos => ?_
    rw [hop] at hpos
    cases hpos
  | some pos =>
    obtain ⟨h1, hpos, hstep⟩ := step_of_removed hop
    rw [hstep, h.eraseIdx_iff h1 hpos, KeepsCursor, hop]
    exact ⟨fun hk p hp => Option.some.inj hp ▸ hk, fun hk => hk pos rfl⟩

/-! ## Runs -/

/-- **The cursor follows the playing item in every state of a run exactly when every removal
keeps it.** -/
theorem cursor_follows_iff (ops : List (PlaylistOp Item)) :
    (∀ k, (run step init (ops.take k)).Follows) ↔ Along step KeepsCursor init ops :=
  forall_take_iff_along Follows (fun _ op hs => hs.step_iff op) ops init init_follows

/-- Two files, the second plays, the first is removed: the cursor is behind the list. -/
theorem cursor_behind_list :
    ¬(run step (init : Playlist Nat) [.add 1, .add 2, .playItem (some 2) .loaded,
      .removeItem (some 1)]).Follows := by
  intro h
  exact absurd h.playing_le (by decide)

end Playlist
end DWindow.UI
