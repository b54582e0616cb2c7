import DWindow.Cache.Fragment
import DWindow.Lib.CInt
import DWindow.Lib.Runs
import DWindow.Lib.Threads

/-!
# The download workers

`inet_worker_manager` opens a worker for a range that no worker is responsible for.  It
wants `WORKER_COUNT` of them: on a full list it tells one of the first three to quit,
the one with the least time left.  That worker stays on the list until its thread
notices, and until then the next call may choose it again
(`fifth_hint_exceeds`).

`withinCount_iff` says when the bound holds: exactly when every call that opens a worker
finds fewer than three left to work, or chooses one which has not been told yet.
-/

namespace DWindow.Cache

open CInt Runs

def WORKER_COUNT : Nat := 3
def WORKER_TIMEOUT : Int := 5000
def PRELOADING_SIZE : Int := 1024 * 1024
def BLOCK_SIZE : Int := 64 * 1024

structure InetWorker where
  mPos : Int
  mMaxpos : Int
  mLastInetTime : Int
  mExitSignaled : Bool
deriving DecidableEq, Repr

namespace InetWorker

/-- A worker that starts at `start`. -/
def create (start now : Int) : InetWorker :=
  ⟨start, toInt64 (start + PRELOADING_SIZE), now, false⟩

def hint (w : InetWorker) (pos : Int) : InetWorker :=
  { w with
    mMaxpos := min (max w.mMaxpos (toInt64 (pos + PRELOADING_SIZE)))
      (toInt64 (w.mPos + PRELOADING_SIZE * 2)) }

def responsible (w : InetWorker) (pos : Int) : Bool := w.mPos ≤ pos && pos < w.mMaxpos

/-- `inet_worker::get_timeout_left`.  The `max` with 0 is one of unsigned numbers and
changes nothing. -/
def getTimeoutLeft (w : InetWorker) (now : Int) : Int :=
  toInt32 (w.mLastInetTime + WORKER_TIMEOUT - now)

def signalQuit (w : InetWorker) : InetWorker := { w with mExitSignaled := true }

/-- A block of `o` bytes comes in; a worker that has been told to quit does not store it. -/
def progress (w : InetWorker) (o : Nat) (now : Int) : InetWorker :=
  { w with
    mPos := if w.mExitSignaled then w.mPos else toInt64 (w.mPos + o)
    mLastInetTime := now }

def working (w : InetWorker) : Bool := !w.mExitSignaled

end InetWorker

/-- `m_active_workers`. -/
abbrev Workers := List InetWorker

/-- A call of `hint` or a step of a worker.  `tick j` is what the `j`-th `GetTickCount`
of the call returns, and `choice` what `qsort` puts in front when times are equal. -/
inductive WorkerStep
  | hint (pos : Fragment) (openNew : Bool) (tick : Nat → Int) (choice : Nat)
  | hintPost (now : Int)
  | progress (i : Nat) (o : Nat) (now : Int)
  | remove (i : Nat)

namespace Workers

/-- The times left of the first `WORKER_COUNT` workers. -/
def times (s : Workers) (tick : Nat → Int) : List Int :=
  (s.take WORKER_COUNT).mapIdx fun j w => w.getTimeoutLeft (tick j)

/-- The place of a least element: `choice` if there is one, else the first. -/
def leastPlace (xs : List Int) (choice : Nat) : Nat :=
  if (xs[choice]?).any (fun x => xs.all (x ≤ ·)) then choice
  else xs.findIdx fun x => xs.all (x ≤ ·)

/-- The place of the worker that a call of `hint` tells to quit, if the list is full. -/
def victim (s : Workers) (tick : Nat → Int) (choice : Nat) : Option Nat :=
  if WORKER_COUNT ≤ s.length then some (leastPlace (s.times tick) choice) else none

def signalQuit (s : Workers) : Option Nat → Workers
  | some i => s.modify i InetWorker.signalQuit
  | none => s

/-- Both loops of `hint` over the workers. -/
def hinted (s : Workers) (pos : Fragment) : Workers :=
  s.map fun w => (w.hint pos.start).hint pos.stop

/-- A call of `hint` opens a worker. -/
def opens (s : Workers) (pos : Fragment) (openNew : Bool) : Bool :=
  openNew && !(s.hinted pos).any (·.responsible pos.start)

/-- A step; nothing happens where there is no worker. -/
def step (s : Workers) : WorkerStep → Workers
  | .hint pos openNew tick choice =>
    let s₁ := s.hinted pos
    if s.opens pos openNew then
      s₁.signalQuit (s₁.victim tick choice) ++
        [InetWorker.create (pos.start.tdiv BLOCK_SIZE * BLOCK_SIZE) (tick WORKER_COUNT)]
    else s₁
  | .hintPost now => s ++ [InetWorker.create 0 now]
  | .progress i o now => s.modify i (·.progress o now)
  | .remove i => s.eraseIdx i

/-- The workers that have not been told to quit. -/
def working (s : Workers) : Nat := s.countP InetWorker.working

/-- At most `WORKER_COUNT` workers have not been told to quit. -/
def WithinCount (s : Workers) : Prop := s.working ≤ WORKER_COUNT

/-- The worker at a place has not been told to quit. -/
def workingAt (s : Workers) (place : Option Nat) : Bool :=
  place.any fun i => s[i]?.any InetWorker.working

/-- A step that opens no worker, or opens one while fewer than `WORKER_COUNT` have not
been told to quit, or one for which it tells another of these to quit. -/
def HasPlace (s : Workers) : WorkerStep → Prop
  | .hint pos openNew tick choice => s.opens pos openNew = true →
      s.working < WORKER_COUNT ∨ s.workingAt ((s.hinted pos).victim tick choice) = true
  | .hintPost _ => s.working < WORKER_COUNT
  | .progress _ _ _ => True
  | .remove _ => True

instance (s : Workers) : ∀ a : WorkerStep, Decidable (HasPlace s a)
  | .hint pos openNew tick choice => inferInstanceAs (Decidable (s.opens pos openNew = true →
      s.working < WORKER_COUNT ∨ s.workingAt ((s.hinted pos).victim tick choice) = true))
  | .hintPost _ => inferInstanceAs (Decidable (s.working < WORKER_COUNT))
  | .progress _ _ _ => isTrue trivial
  | .remove _ => isTrue trivial

/-! ## Counting -/

theorem working_hinted (s : Workers) (pos : Fragment) : (s.hinted pos).working = s.working := by
  rw [working, hinted, List.countP_map]
  rfl

theorem workingAt_hinted (s : Workers) (pos : Fragment) (place : Option Nat) :
    (s.hinted pos).workingAt place = s.workingAt place := by
  cases place with
  | none => rfl
  | some i =>
    rw [workingAt, workingAt, Option.any_some, Option.any_some, hinted, List.getElem?_map,
      Option.any_map]
    rfl

/-- **A worker that is told to quit** is counted no longer. -/
theorem working_signalQuit (s : Workers) (place : Option Nat) :
    working (s.signalQuit place) + (s.workingAt place).toNat = s.working := by
  cases place with
  | none => rfl
  | some i =>
    have hcount := Threads.countP_modify_add InetWorker.working InetWorker.signalQuit s i
    have hquit : (s[i]?.any fun w => InetWorker.working w.signalQuit) = false := by
      cases s[i]? <;> rfl
    rw [hquit] at hcount
    exact hcount

theorem working_progress (s : Workers) (i o : Nat) (now : Int) :
    working (s.modify i (·.progress o now)) = s.working := by
  have hcount := Threads.countP_modify_add InetWorker.working (·.progress o now) s i
  exact Nat.add_right_cancel hcount

theorem working_append_create (s : Workers) (start now : Int) :
    working (s ++ [InetWorker.create start now]) = s.working + 1 := by
  rw [working, List.countP_append]
  rfl

theorem withinCount_step_iff {s : Workers} (a : WorkerStep) (h : s.WithinCount) :
    WithinCount (s.step a) ↔ HasPlace s a := by
  rw [WithinCount] at h ⊢
  cases a with
  | hint pos openNew tick choice =>
    have hquit := working_signalQuit (s.hinted pos) ((s.hinted pos).victim tick choice)
    rw [working_hinted, workingAt_hinted] at hquit
    rw [HasPlace, step]
    split
    · next hopens =>
      rw [working_append_create]
      cases hvictim : s.workingAt ((s.hinted pos).victim tick choice) with
      | true =>
        rw [hvictim] at hquit
        have : (true : Bool).toNat = 1 := rfl
        simp only [hopens, forall_const, or_true, iff_true]
        omega
      | false =>
        rw [hvictim] at hquit
        have : (false : Bool).toNat = 0 := rfl
        simp only [hopens, forall_const, Bool.false_eq_true, or_false]
        omega
    · next hopens =>
      rw [working_hinted]
      exact iff_of_true h fun hopens' => absurd hopens' hopens
  | hintPost now =>
    rw [HasPlace, step, working_append_create]
    exact Nat.succ_le_iff
  | progress i o now =>
    rw [step, working_progress]
    exact iff_of_true h trivial
  | remove i =>
    exact iff_of_true (Nat.le_trans ((List.eraseIdx_sublist s i).countP_le) h) trivial

/-- **When the bound holds**: in every state of a run exactly when all its steps have a
place for the worker that they open. -/
theorem withinCount_iff (steps : List WorkerStep) :
    (∀ k, WithinCount (run step [] (steps.take k))) ↔ Along step HasPlace [] steps :=
  forall_take_iff_along WithinCount (fun _ a hs => withinCount_step_iff a hs) steps []
    (Nat.zero_le _)

/-- **The fifth call chooses the same worker** as the fourth: four workers are left. -/
theorem fifth_hint_exceeds : ¬ ∀ (steps : List WorkerStep) (k : Nat),
    WithinCount (run step [] (steps.take k)) := by
  intro h
  have hfive := h [.hint ⟨0, 1⟩ true (fun _ => 0) 0,
    .hint ⟨2 ^ 24, 2 ^ 24 + 1⟩ true (fun _ => 1) 0, .hint ⟨2 ^ 25, 2 ^ 25 + 1⟩ true (fun _ => 2) 0,
    .hint ⟨2 ^ 26, 2 ^ 26 + 1⟩ true (fun _ => 3) 0,
    .hint ⟨2 ^ 27, 2 ^ 27 + 1⟩ true (fun _ => 4) 0] 5
  exact absurd hfive (by unfold WithinCount; decide)

end Workers

end DWindow.Cache
