import DWindow.Lib.LuaTable
import Mathlib.Logic.Function.Basic

/-!
# The position during a seek

`seek` and `tell` of `dshow_async.lua` with the worker, when no other command is there.  A
seek is in the queue, then in the hands of the worker, which sets `seeking_to` when it begins
it, and then executed on the core; `tell` looks into the queue first, at `seeking_to` next,
and asks the core when it finds nothing.  Whoever has `queue_lock` makes one step of it; the
threads may switch behind it and at the calls into the core.

A seek that the worker has taken and not begun is in neither place.  As long as no `tell`
that found nothing in the queue looks at `seeking_to` then, every `tell` returns the pending
target: `tells_pending`.
-/

namespace DWindow.UI

open LuaTable

variable {T : Type*}

/-- A call of `player.seek`: its number and its target. -/
structure Seek (T : Type*) where
  id : Nat
  target : T
  deriving DecidableEq

/-- Where the worker is: between two turns, behind `queue_lock:unlock()` with a seek, in
`seek_dummy` in front of `core_funcs.seek`, and behind it. -/
inductive SeekWorker (T : Type*) where
  | idle
  | taken (w : Seek T)
  | seeking (w : Seek T)
  | executed (w : Seek T)
  deriving DecidableEq

/-- The seek that the worker has. -/
def SeekWorker.work : SeekWorker T → Option (Seek T)
  | .idle => none
  | .taken w => some w
  | .seeking w => some w
  | .executed w => some w

/-- Where a thread is with a call of `player.tell`: not in one, behind `queue_lock:unlock()`
with `last_seek`, and in `core_funcs.tell`.  `due` is the seek that was pending at the
start. -/
inductive Teller (T : Type*) where
  | idle
  | scanned (due : Option (Seek T)) (lastSeek : Option T)
  | asking (due : Option (Seek T))

/-- What a `tell` has returned, and the target that was pending from its start to its end. -/
structure Told (T : Type*) where
  value : T
  due : Option T

/-- The queue of seeks, `seeking_to`, the position of the core, the threads, and what has
come of it: the number of seeks, the one that is pending, and the calls of `tell`. -/
structure SeekPlayer (T : Type*) where
  queue : List (Option (Seek T))
  seekingTo : Option T
  position : T
  worker : SeekWorker T
  tellers : Nat → Teller T
  issued : Nat
  pending : Option (Seek T)
  told : List (Told T)

/-- A step of a thread; `play` is the core on its own. -/
inductive SeekEvent (T : Type*) where
  | seek (t : T)
  | scan (i : Nat)
  | look (i : Nat)
  | ask (i : Nat)
  | take
  | begin
  | execute
  | finish
  | play (position : T)

/-- The loop of `tell` over the queue. -/
def lastSeekFrom (last : Option T) : List (Option (Seek T)) → Option T
  | some w :: queue => lastSeekFrom (some w.target) queue
  | _ => last

namespace SeekPlayer

def init (position : T) : SeekPlayer T :=
  ⟨[], none, position, .idle, fun _ => .idle, 0, none, []⟩

/-- Thread `i` returns from `tell`. -/
def tells (s : SeekPlayer T) (i : Nat) (due : Option (Seek T)) (value : T) : SeekPlayer T :=
  { s with
    tellers := Function.update s.tellers i .idle
    told := s.told ++ [⟨value, (due.filter fun p => s.pending.map Seek.id = some p.id).map
      Seek.target⟩] }

/-- **One step**, whatever borders the length operator returns. -/
def Step (s : SeekPlayer T) : SeekEvent T → SeekPlayer T → Prop
  | .seek t, s' =>
    ∃ n, IsBorder (clear (fun _ => true) s.queue) n ∧
      s' = { s with
        queue := insertAt (clear (fun _ => true) s.queue) n ⟨s.issued, t⟩
        issued := s.issued + 1
        pending := some ⟨s.issued, t⟩ }
  | .scan i, s' => s.tellers i = .idle ∧
      s' = { s with tellers :=
        Function.update s.tellers i (.scanned s.pending (lastSeekFrom none s.queue)) }
  | .look i, s' => ∃ due lastSeek, s.tellers i = .scanned due lastSeek ∧
      s' = match lastSeek <|> s.seekingTo with
        | some t => s.tells i due t
        | none => { s with tellers := Function.update s.tellers i (.asking due) }
  | .ask i, s' => ∃ due, s.tellers i = .asking due ∧ s' = s.tells i due s.position
  | .take, s' => s.worker = .idle ∧ ∃ n, IsBorder s.queue n ∧
      if 0 < n then
        ∃ m, IsBorder s.queue m ∧ s' = { s with
          queue := removeFirst s.queue m
          worker := match slot s.queue 0 with
            | some w => .taken w
            | none => .idle }
      else s' = s
  | .begin, s' => ∃ w, s.worker = .taken w ∧
      s' = { s with worker := .seeking w, seekingTo := some w.target }
  | .execute, s' => ∃ w, s.worker = .seeking w ∧
      s' = { s with
        worker := .executed w
        position := w.target
        pending := s.pending.filter fun p => p.id ≠ w.id }
  | .finish, s' => ∃ w, s.worker = .executed w ∧
      s' = { s with worker := .idle, seekingTo := none }
  | .play position, s' => s' = { s with position := position }

/-- **Every `tell` has returned the target** that was pending from its start to its end. -/
def TellsPending (s : SeekPlayer T) : Prop := ∀ r ∈ s.told, ∀ t, r.due = some t → r.value = t

/-- No `tell` that found nothing in the queue looks at `seeking_to` between the moment the
worker takes the pending seek and the one it begins it. -/
def Timely (s : SeekPlayer T) : SeekEvent T → Prop
  | .look i => ∀ p, s.tellers i = .scanned (some p) none → s.pending = some p →
      s.worker ≠ .taken p
  | _ => True

/-- A state that steps which meet the condition lead to. -/
inductive Reachable (ok : SeekPlayer T → SeekEvent T → Prop) (position : T) :
    SeekPlayer T → Prop where
  | init : Reachable ok position (init position)
  | step {s s' : SeekPlayer T} {e : SeekEvent T} (h : Reachable ok position s) (hok : ok s e)
      (hstep : s.Step e s') : Reachable ok position s'

/-! ## Where the pending seek is -/

/-- The pending seek is in the queue, or the worker has it and has not executed it. -/
inductive Place (s : SeekPlayer T) : Prop where
  | none (h : s.pending = .none) (hqueue : Holds s.queue [])
  | queued {p : Seek T} (h : s.pending = some p) (hqueue : Holds s.queue [p])
      (hwork : ∀ w, s.worker.work = some w → w.id ≠ p.id)
  | taken {p : Seek T} (h : s.pending = some p) (hqueue : Holds s.queue [])
      (hworker : s.worker = .taken p)
  | seeking {p : Seek T} (h : s.pending = some p) (hqueue : Holds s.queue [])
      (hworker : s.worker = .seeking p)

/-- What `seeking_to` is. -/
def SeekWorker.seekingTo : SeekWorker T → Option T
  | .seeking w => some w.target
  | .executed w => some w.target
  | _ => .none

/-- A thread in `tell` whose seek is still pending has found it, or else the worker has it; and
none asks the core for a position while its seek is pending. -/
def TellerOk (s : SeekPlayer T) : Teller T → Prop
  | .idle => True
  | .scanned due lastSeek => ∀ p, due = some p → p.id < s.issued ∧
      ∀ q, s.pending = some q → q.id = p.id → q = p ∧
        (lastSeek = some p.target ∨
          lastSeek = none ∧ (s.worker = .taken p ∨ s.worker = .seeking p))
  | .asking due => ∀ p, due = some p → p.id < s.issued ∧
      ∀ q, s.pending = some q → q.id ≠ p.id

structure Inv (s : SeekPlayer T) : Prop where
  place : s.Place
  pending_lt : ∀ p, s.pending = some p → p.id < s.issued
  work_lt : ∀ w, s.worker.work = some w → w.id < s.issued
  seekingTo : s.seekingTo = SeekWorker.seekingTo s.worker
  tellers : ∀ i, s.TellerOk (s.tellers i)
  told : s.TellsPending

variable {s s' : SeekPlayer T}

theorem init_inv (position : T) : (init position).Inv where
  place := .none rfl holds_nil
  pending_lt := fun p h => by cases h
  work_lt := fun w h => by cases h
  seekingTo := rfl
  tellers := fun _ => trivial
  told := fun r h => absurd h List.not_mem_nil

theorem Place.holds_clear (h : s.Place) : Holds (clear (fun _ => true) s.queue) [] := by
  have hall : ∀ l : List (Seek T), Holds s.queue l → Holds (clear (fun _ => true) s.queue) [] := by
    intro l hl
    have hclear := hl.clear (p := fun _ => true) fun _ _ => rfl
    rwa [List.filter_eq_nil_iff.mpr (fun _ _ => by simp)] at hclear
  cases h with
  | none h hqueue => exact hall _ hqueue
  | queued h hqueue hwork => exact hall _ hqueue
  | taken h hqueue hworker => exact hall _ hqueue
  | seeking h hqueue hworker => exact hall _ hqueue

/-- Behind the first key that has no entry the loop does not look. -/
theorem lastSeekFrom_replicate (last : Option T) (k : Nat) :
    lastSeekFrom last (List.replicate k (none : Option (Seek T))) = last := by
  cases k with
  | zero => rfl
  | succ k => rfl

theorem lastSeekFrom_nil {queue : List (Option (Seek T))} (h : Holds queue []) :
    lastSeekFrom none queue = none := by
  obtain ⟨k, rfl⟩ := h
  exact lastSeekFrom_replicate none k

theorem lastSeekFrom_singleton {queue : List (Option (Seek T))} {p : Seek T}
    (h : Holds queue [p]) : lastSeekFrom none queue = some p.target := by
  obtain ⟨k, rfl⟩ := h
  exact lastSeekFrom_replicate _ k

/-- What a `tell` returns that has looked where the pending seek is. -/
theorem told_tells (h : s.TellsPending) (i : Nat) {due : Option (Seek T)} {value : T}
    (hvalue : ∀ p, due = some p → s.pending.map Seek.id = some p.id → value = p.target) :
    (s.tells i due value).TellsPending := by
  intro r hr t ht
  rcases List.mem_append.mp hr with hr | hr
  · exact h r hr t ht
  · obtain rfl := List.mem_singleton.mp hr
    obtain ⟨p, hp, rfl⟩ := Option.map_eq_some_iff.mp ht
    obtain ⟨hdue, hpending⟩ := Option.mem_filter_iff.mp hp
    exact hvalue p hdue (of_decide_eq_true hpending)

/-- What is so of a thread stays so while its seek stays with the worker. -/
theorem TellerOk.mono {x : Teller T} (h : s.TellerOk x) (hissued : s'.issued = s.issued)
    (hpending : ∀ p, s'.pending = some p → s.pending = some p)
    (hworker : ∀ p, s'.pending = some p → s.worker = .taken p ∨ s.worker = .seeking p →
      s'.worker = .taken p ∨ s'.worker = .seeking p) : s'.TellerOk x := by
  cases x with
  | idle => exact trivial
  | scanned due lastSeek =>
    intro p hp
    obtain ⟨hlt, hfound⟩ := h p hp
    refine ⟨by omega, fun q hq hid => ?_⟩
    obtain ⟨rfl, hlast⟩ := hfound q (hpending q hq) hid
    exact ⟨rfl, hlast.imp_right fun hl => ⟨hl.1, hworker q hq hl.2⟩⟩
  | asking due =>
    intro p hp
    obtain ⟨hlt, hnot⟩ := h p hp
    exact ⟨by omega, fun q hq => hnot q (hpending q hq)⟩

theorem Inv.update_tellers (h : s.Inv) (i : Nat) {x : Teller T} (hx : s.TellerOk x) (j : Nat) :
    s.TellerOk (Function.update s.tellers i x j) := by
  by_cases hij : j = i
  · rw [hij, Function.update_self]
    exact hx
  · rw [Function.update_of_ne hij]
    exact h.tellers j

/-! ## Steps -/

theorem Inv.seek (h : s.Inv) {t : T} (hstep : s.Step (.seek t) s') : s'.Inv := by
  obtain ⟨n, hn, rfl⟩ := hstep
  have hclear := h.place.holds_clear
  rw [hclear.border_iff, List.length_nil] at hn
  subst hn
  refine ⟨.queued rfl (hclear.insertAt ⟨s.issued, t⟩) ?_, ?_, ?_, h.seekingTo, ?_, h.told⟩
  · intro w hw
    exact Nat.ne_of_lt (h.work_lt w hw)
  · intro p hp
    obtain rfl := Option.some.inj hp
    exact Nat.lt_succ_self _
  · intro w hw
    exact Nat.lt_succ_of_lt (h.work_lt w hw)
  · -- the new seek is none of those that threads know of
    intro i
    have hi := h.tellers i
    dsimp only
    cases hteller : s.tellers i with
    | idle => exact trivial
    | scanned due lastSeek =>
      rw [hteller] at hi
      intro p hp
      have hlt := (hi p hp).1
      refine ⟨Nat.lt_succ_of_lt hlt, fun q hq hid => ?_⟩
      obtain rfl := Option.some.inj hq
      exact absurd hid (Nat.ne_of_gt hlt)
    | asking due =>
      rw [hteller] at hi
      intro p hp
      have hlt := (hi p hp).1
      refine ⟨Nat.lt_succ_of_lt hlt, fun q hq => ?_⟩
      obtain rfl := Option.some.inj hq
      exact Nat.ne_of_gt hlt

/-- The seek that a `tell` looks for is found in the queue, or the worker has it. -/
theorem Inv.scan_ok (h : s.Inv) :
    s.TellerOk (.scanned s.pending (lastSeekFrom none s.queue)) := by
  intro p hp
  refine ⟨h.pending_lt p hp, fun q hq hid => ?_⟩
  obtain rfl := Option.some.inj (hq.symm.trans hp)
  refine ⟨rfl, ?_⟩
  cases h.place with
  | none hnone hqueue =>
    rw [hp] at hnone
    cases hnone
  | queued hsome hqueue hwork =>
    obtain rfl := Option.some.inj (hp.symm.trans hsome)
    exact Or.inl (lastSeekFrom_singleton hqueue)
  | taken hsome hqueue hworker =>
    obtain rfl := Option.some.inj (hp.symm.trans hsome)
    exact Or.inr ⟨lastSeekFrom_nil hqueue, Or.inl hworker⟩
  | seeking hsome hqueue hworker =>
    obtain rfl := Option.some.inj (hp.symm.trans hsome)
    exact Or.inr ⟨lastSeekFrom_nil hqueue, Or.inr hworker⟩

theorem Place.of_eq (h : s.Place) (hpending : s'.pending = s.pending) (hqueue : s'.queue = s.queue)
    (hworker : s'.worker = s.worker) : s'.Place := by
  cases h with
  | none hp hq => exact .none (hpending.trans hp) (hqueue ▸ hq)
  | queued hp hq hw => exact .queued (hpending.trans hp) (hqueue ▸ hq) (hworker ▸ hw)
  | taken hp hq hw => exact .taken (hpending.trans hp) (hqueue ▸ hq) (hworker.trans hw)
  | seeking hp hq hw => exact .seeking (hpending.trans hp) (hqueue ▸ hq) (hworker.trans hw)

theorem Inv.scan (h : s.Inv) {i : Nat} (hstep : s.Step (.scan i) s') : s'.Inv := by
  obtain ⟨-, rfl⟩ := hstep
  exact ⟨h.place.of_eq rfl rfl rfl, h.pending_lt, h.work_lt, h.seekingTo,
    h.update_tellers i h.scan_ok, h.told⟩

theorem Inv.tells (h : s.Inv) (i : Nat) {due : Option (Seek T)} {value : T}
    (hvalue : ∀ p q, due = some p → s.pending = some q → q.id = p.id → value = p.target) :
    (s.tells i due value).Inv := by
  refine ⟨h.place.of_eq rfl rfl rfl, h.pending_lt, h.work_lt, h.seekingTo,
    h.update_tellers i trivial, told_tells h.told i fun p hp hid => ?_⟩
  obtain ⟨q, hq, hqid⟩ := Option.map_eq_some_iff.mp hid
  exact hvalue p q hp hq hqid

/-- **A look at `seeking_to`** that meets the condition. -/
theorem Inv.look (h : s.Inv) {i : Nat} (hok : s.Timely (.look i)) (hstep : s.Step (.look i) s') :
    s'.Inv := by
  obtain ⟨due, lastSeek, hteller, rfl⟩ := hstep
  have hi := h.tellers i
  rw [hteller] at hi
  -- a pending seek that was not in the queue has been begun
  have hbegun : ∀ p q, due = some p → s.pending = some q → q.id = p.id → lastSeek = none →
      s.seekingTo = some p.target := by
    intro p q hp hq hid hnone
    obtain ⟨rfl, hlast⟩ := (hi p hp).2 q hq hid
    rcases hlast with hlast | ⟨-, hworker | hworker⟩
    · rw [hnone] at hlast
      cases hlast
    · exact absurd hworker (hok q (by rw [hteller, hp, hnone]) hq)
    · rw [h.seekingTo, hworker]
      rfl
  cases hfound : lastSeek <|> s.seekingTo with
  | some t =>
    refine h.tells i fun p q hp hq hid => ?_
    cases lastSeek with
    | some t' =>
      obtain ⟨-, hlast⟩ := (hi p hp).2 q hq hid
      rcases hlast with hlast | ⟨hnone, -⟩
      · exact Option.some.inj (hfound.symm.trans hlast)
      · cases hnone
    | none => exact Option.some.inj (hfound.symm.trans (hbegun p q hp hq hid rfl))
  | none =>
    refine ⟨h.place.of_eq rfl rfl rfl, h.pending_lt, h.work_lt, h.seekingTo,
      h.update_tellers i (x := .asking due) ?_, h.told⟩
    intro p hp
    refine ⟨(hi p hp).1, fun q hq hid => ?_⟩
    cases lastSeek with
    | some t => cases hfound
    | none =>
      have hseeking := hbegun p q hp hq hid rfl
      have hnone : s.seekingTo = none := hfound
      rw [hnone] at hseeking
      cases hseeking

theorem Inv.ask (h : s.Inv) {i : Nat} (hstep : s.Step (.ask i) s') : s'.Inv := by
  obtain ⟨due, hteller, rfl⟩ := hstep
  have hi := h.tellers i
  rw [hteller] at hi
  exact h.tells i fun p q hp hq hid => absurd hid ((hi p hp).2 q hq)

theorem Inv.take (h : s.Inv) (hstep : s.Step .take s') : s'.Inv := by
  obtain ⟨hidle, n, hn, hs'⟩ := hstep
  cases h.place with
  | none hp hqueue =>
    rw [hqueue.border_iff, List.length_nil] at hn
    subst hn
    rw [if_neg (Nat.lt_irrefl 0)] at hs'
    exact hs' ▸ h
  | @queued p hp hqueue hwork =>
    rw [hqueue.border_iff, List.length_singleton] at hn
    subst hn
    rw [if_pos Nat.one_pos] at hs'
    obtain ⟨m, hm, rfl⟩ := hs'
    rw [hqueue.border_iff, List.length_singleton] at hm
    subst hm
    have hfirst : slot s.queue 0 = some p := by rw [hqueue.slot_eq]; rfl
    rw [hfirst]
    refine ⟨.taken hp hqueue.removeFirst rfl, h.pending_lt, ?_, ?_, ?_, h.told⟩
    · intro w hw
      obtain rfl := Option.some.inj hw
      exact h.pending_lt p hp
    · dsimp only
      rw [h.seekingTo, hidle]
      rfl
    · intro i
      refine (h.tellers i).mono rfl (fun _ hq => hq) fun q _ hworker => ?_
      rw [hidle] at hworker
      rcases hworker with hworker | hworker
      · cases hworker
      · cases hworker
  | taken hp hqueue hworker =>
    rw [hidle] at hworker
    cases hworker
  | seeking hp hqueue hworker =>
    rw [hidle] at hworker
    cases hworker

theorem Inv.begin (h : s.Inv) (hstep : s.Step .begin s') : s'.Inv := by
  obtain ⟨w, hw, rfl⟩ := hstep
  refine ⟨?_, h.pending_lt, ?_, rfl, ?_, h.told⟩
  · cases h.place with
    | none hp hqueue => exact .none hp hqueue
    | queued hp hqueue hwork =>
      rw [hw] at hwork
      exact .queued hp hqueue hwork
    | taken hp hqueue hworker =>
      rw [hw] at hworker
      cases hworker
      exact .seeking hp hqueue rfl
    | seeking hp hqueue hworker =>
      rw [hw] at hworker
      cases hworker
  · have hlt := h.work_lt
    rw [hw] at hlt
    exact hlt
  · intro i
    refine (h.tellers i).mono rfl (fun _ hq => hq) fun q _ hworker => ?_
    rw [hw] at hworker
    rcases hworker with hworker | hworker
    · cases hworker
      exact Or.inr rfl
    · cases hworker

theorem Inv.execute (h : s.Inv) (hstep : s.Step .execute s') : s'.Inv := by
  obtain ⟨w, hw, rfl⟩ := hstep
  have hless : ∀ p, (s.pending.filter fun p => p.id ≠ w.id) = some p →
      s.pending = some p ∧ p.id ≠ w.id := by
    intro p hp
    obtain ⟨hsome, hne⟩ := Option.mem_filter_iff.mp hp
    exact ⟨hsome, of_decide_eq_true hne⟩
  refine ⟨?_, fun p hp => h.pending_lt p (hless p hp).1, ?_, ?_, ?_, h.told⟩
  · cases h.place with
    | none hp hqueue => exact .none (by simp [hp]) hqueue
    | queued hp hqueue hwork =>
      rw [hw] at hwork
      have hne := hwork w rfl
      exact .queued (by simp [hp, Ne.symm hne]) hqueue hwork
    | taken hp hqueue hworker =>
      rw [hw] at hworker
      cases hworker
    | seeking hp hqueue hworker =>
      rw [hw] at hworker
      cases hworker
      exact .none (by simp [hp]) hqueue
  · have hlt := h.work_lt
    rw [hw] at hlt
    exact hlt
  · dsimp only
    rw [h.seekingTo, hw]
    rfl
  · intro i
    refine (h.tellers i).mono rfl (fun q hq => (hless q hq).1) fun q hq hworker => ?_
    rw [hw] at hworker
    rcases hworker with hworker | hworker
    · cases hworker
    · cases hworker
      exact absurd rfl (hless w hq).2

theorem Inv.finish (h : s.Inv) (hstep : s.Step .finish s') : s'.Inv := by
  obtain ⟨w, hw, rfl⟩ := hstep
  refine ⟨?_, h.pending_lt, fun v hv => (by cases hv), rfl, ?_, h.told⟩
  · cases h.place with
    | none hp hqueue => exact .none hp hqueue
    | queued hp hqueue hwork => exact .queued hp hqueue (fun v hv => (by cases hv))
    | taken hp hqueue hworker =>
      rw [hw] at hworker
      cases hworker
    | seeking hp hqueue hworker =>
      rw [hw] at hworker
      cases hworker
  · intro i
    refine (h.tellers i).mono rfl (fun _ hq => hq) fun q _ hworker => ?_
    rw [hw] at hworker
    rcases hworker with hworker | hworker
    · cases hworker
    · cases hworker

/-- **A step** that meets the condition keeps the invariant. -/
theorem Inv.step (h : s.Inv) {e : SeekEvent T} (hok : s.Timely e) (hstep : s.Step e s') :
    s'.Inv := by
  cases e with
  | seek t => exact h.seek hstep
  | scan i => exact h.scan hstep
  | look i => exact h.look hok hstep
  | ask i => exact h.ask hstep
  | take => exact h.take hstep
  | begin => exact h.begin hstep
  | execute => exact h.execute hstep
  | finish => exact h.finish hstep
  | play position =>
    subst hstep
    exact ⟨h.place.of_eq rfl rfl rfl, h.pending_lt, h.work_lt, h.seekingTo, h.tellers, h.told⟩

theorem Reachable.inv {position : T} (h : Reachable Timely position s) : s.Inv := by
  induction h with
  | init => exact init_inv position
  | step _ hok hstep ih => exact ih.step hok hstep

end SeekPlayer

open SeekPlayer

/-- **The reported position does not fall back behind a pending seek** in any state of a run
whose steps all meet the condition. -/
theorem tells_pending {s : SeekPlayer T} {position : T} (h : Reachable Timely position s) :
    s.TellsPending := h.inv.told

theorem border_empty : IsBorder ([] : List (Option (Seek Nat))) 0 := ⟨fun h => absurd rfl h, rfl⟩

theorem border_one (w : Seek Nat) : IsBorder [some w] 1 := ⟨fun _ => rfl, rfl⟩

theorem reachable_taken (ok : SeekPlayer Nat → SeekEvent Nat → Prop)
    (hok : ∀ s e, (∀ i, e ≠ .look i) → ok s e) :
    Reachable ok 0 ⟨[none], none, 0, .taken ⟨0, 5⟩, fun _ => .idle, 1, some ⟨0, 5⟩, []⟩ := by
  refine .step (.step .init (hok _ (.seek 5) (fun i h => by cases h)) ⟨0, border_empty, rfl⟩)
    (hok _ .take (fun i h => by cases h)) ?_
  exact ⟨rfl, 1, border_one _, 1, border_one _, rfl⟩

/-- A `tell` between the moment the worker takes the seek and the one it begins it returns the
old position. -/
theorem tell_in_between : ∃ s, Reachable (fun _ _ => True) 0 s ∧
    s.told = [⟨0, some 5⟩] ∧ ¬s.TellsPending := by
  have htaken := reachable_taken (fun _ _ => True) (fun _ _ _ => trivial)
  have hscan : Reachable (fun _ _ => True) 0 _ := .step htaken trivial
    (show SeekPlayer.Step _ (.scan 0) _ from ⟨rfl, rfl⟩)
  have hlook : Reachable (fun _ _ => True) 0 _ := .step hscan trivial
    (show SeekPlayer.Step _ (.look 0) _ from ⟨some ⟨0, 5⟩, none, rfl, rfl⟩)
  refine ⟨_, .step hlook trivial
    (show SeekPlayer.Step _ (.ask 0) _ from ⟨some ⟨0, 5⟩, rfl, rfl⟩), rfl, fun h => ?_⟩
  exact absurd (h _ (List.mem_singleton_self _) 5 rfl) (by decide)

/-- Behind it, it returns the target. -/
theorem tells_pending_begun : ∃ s, Reachable Timely 0 s ∧ s.told = [⟨5, some 5⟩] ∧
    s.TellsPending := by
  have htaken := reachable_taken Timely fun s e h => by
    cases e with
    | look i => exact absurd rfl (h i)
    | _ => exact trivial
  have hbegin : Reachable Timely 0 _ := .step htaken (show Timely _ .begin from trivial)
    (show SeekPlayer.Step _ .begin _ from ⟨⟨0, 5⟩, rfl, rfl⟩)
  have hscan : Reachable Timely 0 _ := .step hbegin (show Timely _ (.scan 0) from trivial)
    (show SeekPlayer.Step _ (.scan 0) _ from ⟨rfl, rfl⟩)
  have hlook : Reachable Timely 0 _ := .step hscan
    (show Timely _ (.look 0) from fun p _ _ h => by cases h)
    (show SeekPlayer.Step _ (.look 0) _ from ⟨some ⟨0, 5⟩, none, rfl, rfl⟩)
  exact ⟨_, hlook, rfl, tells_pending hlook⟩

end DWindow.UI
