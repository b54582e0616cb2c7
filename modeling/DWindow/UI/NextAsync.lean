import DWindow.UI.AsyncQueue
import DWindow.UI.Playlist

/-!
# The next item, loaded from the queue

`playlist:next` plays the item behind the cursor, and goes on to the next one when that
returns nothing true.  `player.reset_and_loadfile` of `dshow_async.lua` cancels what is queued,
queues the load and returns nothing, so `next` does not stop before the end of the list, and
only the load of the last item is left.  `skipsOnlyFailed_iff` says when that is right: when
there is one item left, or `parseURL` raises an error in front of it.
-/

namespace DWindow.UI

open LuaTable

variable {Item Args : Type*}

structure PlaylistPlayer (Item Args : Type*) where
  playlist : Playlist Item
  player : AsyncPlayer Args

/-- The commands that are left in a queue. -/
def AsyncPlayer.pending (p : AsyncPlayer Args) : List (Work Args) := p.queue.filterMap id

/-- `async_funcs.reset_and_loadfile` returns nothing. -/
def asyncReturn : Load := .failed

/-- A run of `playlist:next` and the numbers it tries.  `urls` is what `parseURL` makes of an
item, nothing when it raises an error; then `player.reset_and_loadfile` is not called.  The
worker has no turn meanwhile. -/
inductive NextRun (urls : Item → Option Args) :
    PlaylistPlayer Item Args → List Nat → PlaylistPlayer Item Args → Prop where
  | stop {s : PlaylistPlayer Item Args} (h : ¬s.playlist.playing < s.playlist.list.length) :
      NextRun urls s [] s
  | raised {s : PlaylistPlayer Item Args} {x : Item}
      (h : s.playlist.playing < s.playlist.list.length)
      (hx : s.playlist.item (s.playlist.playing + 1) = some x) (hurls : urls x = none) :
      NextRun urls s [s.playlist.playing + 1]
        ⟨(s.playlist.playItem (some (s.playlist.playing + 1 : Nat)) .raised).1, s.player⟩
  | again {s e : PlaylistPlayer Item Args} {x : Item} {args : Args} {player : AsyncPlayer Args}
      {tried : List Nat} (h : s.playlist.playing < s.playlist.list.length)
      (hx : s.playlist.item (s.playlist.playing + 1) = some x) (hurls : urls x = some args)
      (hcall : s.player.Step (.call ⟨.resetAndLoadfile, args⟩) player)
      (hnext : NextRun urls
        ⟨(s.playlist.playItem (some (s.playlist.playing + 1 : Nat)) asyncReturn).1, player⟩
        tried e) :
      NextRun urls s ((s.playlist.playing + 1) :: tried) e

/-- **Only items that failed are skipped.**  `loads` tells which items can be loaded.  The run
ends, tries items in order, leaves one behind only when the worker has executed its load and
that failed, and when all can be loaded the first one plays and its load is what is left. -/
structure SkipsOnlyFailed (urls : Item → Option Args) (loads : Item → Bool)
    (s : PlaylistPlayer Item Args) : Prop where
  ends : ∃ tried e, NextRun urls s tried e
  inOrder : ∀ tried e, NextRun urls s tried e →
    tried = List.range' (s.playlist.playing + 1) tried.length
  failed : ∀ tried e, NextRun urls s tried e → ∀ n ∈ tried, n ≠ e.playlist.playing →
    ∃ x args, s.playlist.item n = some x ∧ urls x = some args ∧ loads x = false ∧
      Work.mk .resetAndLoadfile args ∈ e.player.executed.drop s.player.executed.length
  first : (∀ x ∈ s.playlist.list, (urls x).isSome ∧ loads x = true) →
    ∀ tried e, NextRun urls s tried e → e.playlist.playing = s.playlist.playing + 1 ∧
      ∃ x args, s.playlist.item (s.playlist.playing + 1) = some x ∧ urls x = some args ∧
        e.player.pending = [⟨.resetAndLoadfile, args⟩]

/-! ## The queue -/

theorem exists_isBorder (t : List (Option (Work Args))) : ∃ n, IsBorder t n := by
  cases h : slot t 0 with
  | none => exact ⟨0, fun h0 => absurd rfl h0, h⟩
  | some w =>
    obtain ⟨n, -, hn⟩ := exists_border (Option.isSome_iff_exists.mpr ⟨w, h⟩)
    exact ⟨n, hn⟩

theorem holds_nil_iff {t : List (Option (Work Args))} : Holds t [] ↔ ∀ w ∈ t, w = none := by
  constructor
  · rintro ⟨k, rfl⟩ w hw
    exact (List.mem_replicate.mp hw).2
  · intro h
    exact ⟨t.length, List.eq_replicate_of_mem h⟩

/-- Cancelling everything empties a queue without a gap, and no other. -/
theorem holds_removeall_iff {t : List (Option (Work Args))} :
    Holds (asyncFuncsRemove t .removeall) [] ↔ ∃ l, Holds t l := by
  constructor
  · intro h
    induction t with
    | nil => exact ⟨[], h⟩
    | cons w t ih =>
      cases w with
      | none => exact ⟨[], h⟩
      | some w =>
        rw [holds_nil_iff] at h
        obtain ⟨l, k, hl⟩ := ih (holds_nil_iff.mpr fun v hv => h v (List.mem_cons_of_mem _ hv))
        exact ⟨w :: l, k, by rw [hl, List.map_cons, List.cons_append]⟩
  · rintro ⟨l, h⟩
    have hclear := h.clear (p := Removal.removeall.cancels) fun w _ => rfl
    rwa [List.filter_eq_nil_iff.mpr (fun w _ => by simp [Removal.cancels])] at hclear

theorem call_resetAndLoadfile {p p' : AsyncPlayer Args} {args : Args} :
    p.Step (.call ⟨.resetAndLoadfile, args⟩) p' ↔
      ∃ n, IsBorder (asyncFuncsRemove p.queue .removeall) n ∧
        p' = { p with
          queue := insertAt (asyncFuncsRemove p.queue .removeall) n ⟨.resetAndLoadfile, args⟩ } :=
  Iff.rfl

theorem exists_call (p : AsyncPlayer Args) (args : Args) :
    ∃ p', p.Step (.call ⟨.resetAndLoadfile, args⟩) p' := by
  obtain ⟨n, hn⟩ := exists_isBorder (asyncFuncsRemove p.queue .removeall)
  exact ⟨_, n, hn, rfl⟩

theorem pending_insertAt (t : List (Option (Work Args))) (n : Nat) (w : Work Args)
    (executed : List (Work Args)) : (AsyncPlayer.mk (insertAt t n w) executed).pending =
      (t.take n).filterMap id ++ w :: (t.drop (n + 1)).filterMap id := by
  simp [AsyncPlayer.pending, insertAt]

/-- **The load is what is left** of the queue if and only if there was no gap in it. -/
theorem pending_eq_iff (p : AsyncPlayer Args) (args : Args) :
    (∀ p', p.Step (.call ⟨.resetAndLoadfile, args⟩) p' →
      p'.pending = [⟨.resetAndLoadfile, args⟩]) ↔ ∃ l, Holds p.queue l := by
  rw [← holds_removeall_iff]
  constructor
  · intro h
    rw [holds_nil_iff]
    intro w hw
    by_contra hsome
    obtain ⟨v, rfl⟩ := Option.ne_none_iff_exists'.mp hsome
    obtain ⟨j, hj, hget⟩ := List.mem_iff_getElem.mp hw
    have hslot : slot (asyncFuncsRemove p.queue .removeall) j = some v := by
      rw [slot, List.getElem?_eq_getElem hj, hget]
      rfl
    -- the load comes behind the command, which stays
    obtain ⟨n, hn, hborder⟩ := exists_border (Option.isSome_iff_exists.mpr ⟨v, hslot⟩)
    have hpending := h _ (call_resetAndLoadfile.mpr ⟨n, hborder, rfl⟩)
    have hfront : v ∈ ((asyncFuncsRemove p.queue .removeall).take n).filterMap id := by
      rw [List.mem_filterMap]
      refine ⟨some v, List.mem_take_iff_getElem.mpr ⟨j, by omega, ?_⟩, rfl⟩
      exact hget
    rw [pending_insertAt] at hpending
    have hlength := congrArg List.length hpending
    rw [List.length_append, List.length_cons, List.length_singleton] at hlength
    have := List.length_pos_of_mem hfront
    omega
  · intro h p' hstep
    obtain ⟨n, hn, rfl⟩ := call_resetAndLoadfile.mp hstep
    rw [h.border_iff, List.length_nil] at hn
    subst hn
    have hnone := holds_nil_iff.mp h
    rw [pending_insertAt, List.take_zero, List.filterMap_nil, List.nil_append,
      List.filterMap_eq_nil_iff.mpr]
    intro w hw
    exact hnone w (List.mem_of_mem_drop hw)

/-! ## The run -/

section Run

variable {urls : Item → Option Args} {s e : PlaylistPlayer Item Args} {tried : List Nat}

theorem playItem_next (s : PlaylistPlayer Item Args)
    (h : s.playlist.playing < s.playlist.list.length) (load : Load) :
    s.playlist.playItem (some (s.playlist.playing + 1 : Nat)) load =
      ({ s.playlist with playing := s.playlist.playing + 1,
                         last := s.playlist.item (s.playlist.playing + 1) }, load) :=
  Playlist.playItem_of_le (by omega) (by omega) load

/-- `playlist:next` ends. -/
theorem exists_nextRun (urls : Item → Option Args) (s : PlaylistPlayer Item Args) :
    ∃ tried e, NextRun urls s tried e := by
  induction hd : s.playlist.list.length - s.playlist.playing generalizing s with
  | zero => exact ⟨[], s, .stop (by omega)⟩
  | succ d ih =>
    have hlt : s.playlist.playing < s.playlist.list.length := by omega
    have hx : s.playlist.item (s.playlist.playing + 1) =
        some (s.playlist.list[s.playlist.playing]) := List.getElem?_eq_getElem hlt
    cases hurls : urls (s.playlist.list[s.playlist.playing]) with
    | none => exact ⟨_, _, .raised hlt hx hurls⟩
    | some args =>
      obtain ⟨player, hcall⟩ := exists_call s.player args
      obtain ⟨tried, e, hnext⟩ := ih
        ⟨(s.playlist.playItem (some (s.playlist.playing + 1 : Nat)) asyncReturn).1, player⟩
        (by
          rw [playItem_next s hlt]
          dsimp only
          omega)
      exact ⟨_, e, .again hlt hx hurls hcall hnext⟩

/-- Items are tried in order, the cursor stands on the last one, and the worker has executed
nothing. -/
theorem NextRun.result (h : NextRun urls s tried e) :
    tried = List.range' (s.playlist.playing + 1) tried.length ∧
      e.playlist.playing = s.playlist.playing + tried.length ∧
      e.player.executed = s.player.executed := by
  induction h with
  | stop h => exact ⟨rfl, rfl, rfl⟩
  | @raised s x h hx hurls =>
    rw [playItem_next s h]
    exact ⟨rfl, rfl, rfl⟩
  | @again s e x args player tried h hx hurls hcall hnext ih =>
    rw [playItem_next s h] at ih
    obtain ⟨horder, hplaying, hexecuted⟩ := ih
    obtain ⟨n, -, rfl⟩ := call_resetAndLoadfile.mp hcall
    dsimp only at horder hplaying hexecuted
    rw [List.length_cons, List.range'_succ]
    exact ⟨congrArg _ horder, by omega, hexecuted⟩

theorem NextRun.again_of_lt (h : NextRun urls s tried e)
    (hlt : s.playlist.playing + 1 < s.playlist.list.length) {x : Item} {args : Args}
    (hx : s.playlist.item (s.playlist.playing + 1) = some x) (hurls : urls x = some args) :
    2 ≤ tried.length := by
  cases h with
  | stop h => omega
  | raised h hx' hurls' =>
    rw [hx] at hx'
    cases hx'
    rw [hurls] at hurls'
    cases hurls'
  | again h hx' hurls' hcall hnext =>
    rw [playItem_next s h] at hnext
    cases hnext with
    | stop h =>
      dsimp only at h
      omega
    | raised h hx hurls => simp
    | again h hx hurls hcall hnext => simp

/-- The last item, or one that `parseURL` raises an error for, is tried and no other. -/
theorem NextRun.length_of_last (h : NextRun urls s tried e)
    (hlt : s.playlist.playing < s.playlist.list.length)
    (hlast : s.playlist.playing + 1 = s.playlist.list.length ∨
      ∀ x, s.playlist.item (s.playlist.playing + 1) = some x → urls x = none) :
    tried.length = 1 := by
  cases h with
  | stop h => omega
  | raised h hx hurls => rfl
  | again h hx hurls hcall hnext =>
    rw [playItem_next s h] at hnext
    rcases hlast with hlast | hlast
    · cases hnext with
      | stop h => rfl
      | raised h hx hurls =>
        dsimp only at h
        omega
      | again h hx hurls hcall hnext =>
        dsimp only at h
        omega
    · rw [hlast _ hx] at hurls
      cases hurls

theorem NextRun.player_of_last (h : NextRun urls s tried e) (htried : tried.length = 1) {x : Item}
    {args : Args} (hx : s.playlist.item (s.playlist.playing + 1) = some x)
    (hurls : urls x = some args) : s.player.Step (.call ⟨.resetAndLoadfile, args⟩) e.player := by
  cases h with
  | stop h => cases htried
  | raised h hx' hurls' =>
    rw [hx] at hx'
    cases hx'
    rw [hurls] at hurls'
    cases hurls'
  | again h hx' hurls' hcall hnext =>
    rw [hx] at hx'
    cases hx'
    rw [hurls] at hurls'
    cases hurls'
    cases hnext with
    | stop h => exact hcall
    | raised h hx hurls => cases htried
    | again h hx hurls hcall hnext => cases htried

/-- Any command that the call may leave is left by some run. -/
theorem exists_nextRun_of_call {x : Item} {args : Args} {player : AsyncPlayer Args}
    (hlt : s.playlist.playing < s.playlist.list.length)
    (hx : s.playlist.item (s.playlist.playing + 1) = some x) (hurls : urls x = some args)
    (hlast : s.playlist.playing + 1 = s.playlist.list.length)
    (hcall : s.player.Step (.call ⟨.resetAndLoadfile, args⟩) player) :
    ∃ tried e, NextRun urls s tried e ∧ e.player = player := by
  refine ⟨_, _, .again hlt hx hurls hcall (.stop ?_), rfl⟩
  rw [playItem_next s hlt]
  dsimp only
  omega

end Run

/-- **`playlist:next` skips only what failed** if and only if there is one item left, or an
error in front of it, and, where all items can be loaded, no gap in the queue. -/
theorem skipsOnlyFailed_iff (urls : Item → Option Args) (loads : Item → Bool)
    (s : PlaylistPlayer Item Args) (hlt : s.playlist.playing < s.playlist.list.length) :
    SkipsOnlyFailed urls loads s ↔
      (s.playlist.playing + 1 = s.playlist.list.length ∨
        ∀ x, s.playlist.item (s.playlist.playing + 1) = some x → urls x = none) ∧
      ((∀ x ∈ s.playlist.list, (urls x).isSome ∧ loads x = true) →
        ∃ l, Holds s.player.queue l) := by
  have hx : s.playlist.item (s.playlist.playing + 1) =
      some (s.playlist.list[s.playlist.playing]) := List.getElem?_eq_getElem hlt
  constructor
  · intro h
    have hone : s.playlist.playing + 1 = s.playlist.list.length ∨
        ∀ x, s.playlist.item (s.playlist.playing + 1) = some x → urls x = none := by
      by_contra hnot
      push Not at hnot
      obtain ⟨hmore, x, hitem, hargs⟩ := hnot
      obtain ⟨args, hurls⟩ := Option.ne_none_iff_exists'.mp hargs
      obtain ⟨tried, e, hrun⟩ := h.ends
      obtain ⟨horder, hplaying, hexecuted⟩ := hrun.result
      have htwo := hrun.again_of_lt (by omega) hitem hurls
      -- the first item is left behind without an attempt
      have hfirst : s.playlist.playing + 1 ∈ tried := by
        rw [horder, List.mem_range'_1]
        omega
      obtain ⟨_, _, _, _, _, hmem⟩ := h.failed tried e hrun _ hfirst (by omega)
      rw [hexecuted, List.drop_length] at hmem
      exact absurd hmem List.not_mem_nil
    refine ⟨hone, fun hall => ?_⟩
    obtain ⟨hsome, -⟩ := hall _ (List.getElem_mem hlt)
    obtain ⟨args, hurls⟩ := Option.isSome_iff_exists.mp hsome
    rcases hone with hlast | hraises
    · rw [← pending_eq_iff s.player args]
      intro player hcall
      obtain ⟨tried, e, hrun, rfl⟩ := exists_nextRun_of_call hlt hx hurls hlast hcall
      obtain ⟨-, y, args', hy, hurls', hpending⟩ := h.first hall tried e hrun
      rw [hx] at hy
      cases hy
      rw [hurls] at hurls'
      cases hurls'
      exact hpending
    · rw [hraises _ hx] at hurls
      cases hurls
  · rintro ⟨hlast, hqueue⟩
    refine ⟨exists_nextRun urls s, fun tried e hrun => hrun.result.1, ?_, ?_⟩
    · intro tried e hrun n hn hne
      obtain ⟨horder, hplaying, -⟩ := hrun.result
      have hlength := hrun.length_of_last hlt hlast
      rw [horder, hlength, List.mem_range'_1] at hn
      omega
    · intro hall tried e hrun
      obtain ⟨-, hplaying, -⟩ := hrun.result
      have hlength := hrun.length_of_last hlt hlast
      obtain ⟨hsome, -⟩ := hall _ (List.getElem_mem hlt)
      obtain ⟨args, hurls⟩ := Option.isSome_iff_exists.mp hsome
      refine ⟨by omega, _, args, hx, hurls, ?_⟩
      exact (pending_eq_iff s.player args).mpr (hqueue hall) _
        (hrun.player_of_last hlength hx hurls)

/-- A new list of two files and an empty queue. -/
def twoFiles : PlaylistPlayer Nat Nat := ⟨⟨[1, 2], 0, none⟩, ⟨[], []⟩⟩

/-- Both files can be loaded, and the second one is. -/
theorem first_file_skipped :
    NextRun some twoFiles [1, 2]
      ⟨⟨[1, 2], 2, some 2⟩, ⟨[some ⟨.resetAndLoadfile, 2⟩], []⟩⟩ ∧
    ¬SkipsOnlyFailed some (fun _ => true) twoFiles := by
  have hrun : NextRun some twoFiles [1, 2]
      ⟨⟨[1, 2], 2, some 2⟩, ⟨[some ⟨.resetAndLoadfile, 2⟩], []⟩⟩ := by
    refine .again (by decide) rfl rfl ⟨0, ⟨fun h => absurd rfl h, rfl⟩, rfl⟩ ?_
    exact .again (by decide) rfl rfl ⟨0, ⟨fun h => absurd rfl h, rfl⟩, rfl⟩ (.stop (by decide))
  refine ⟨hrun, fun h => ?_⟩
  have hplaying := (h.first (fun _ _ => ⟨rfl, rfl⟩) _ _ hrun).1
  exact absurd hplaying (by decide)

/-- From the first file the second one is loaded. -/
theorem skipsOnlyFailed_last :
    SkipsOnlyFailed some (fun _ => true) ⟨⟨[1, 2], 1, some 1⟩, ⟨[], []⟩⟩ :=
  (skipsOnlyFailed_iff some (fun _ => true) ⟨⟨[1, 2], 1, some 1⟩, ⟨[], []⟩⟩ (by decide)).mpr
    ⟨Or.inl rfl, fun _ => ⟨[], holds_nil⟩⟩

end DWindow.UI
