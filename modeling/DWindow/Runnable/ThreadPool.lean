import DWindow.Lib.Threads

/-!
# The thread pool

`thread_pool` of `runnable.cpp`, while it is not being destroyed: the quit event is
not set and `m_destroyed` is `false`.  A critical section is one step, and so is
everything a thread does that no other thread sees.

The task event resets itself: it lets one waiting thread through, and a second
`SetEvent` on a set event changes nothing.
-/

namespace DWindow.Runnable

variable {τ : Type*}

inductive Place (τ : Type*)
  /-- In front of the critical section that looks at the queue. -/
  | looking
  /-- In its wait, or on the way there. -/
  | waiting
  /-- Out of its wait by the task event, and not at the queue yet. -/
  | woken
  /-- In `run` of a task. -/
  | running (task : τ)
  /-- Behind it, in front of the critical section that takes the task off the list. -/
  | done (task : τ)
deriving DecidableEq, Repr

namespace Place

def isWaiting : Place τ → Bool
  | waiting => true
  | _ => false

def isWoken : Place τ → Bool
  | woken => true
  | _ => false

end Place

/-- `thread_pool`, with the number of calls of `submmit` between their critical section
and their `SetEvent`. -/
structure ThreadPool (τ : Type*) where
  mTasks : List τ
  mRunningTasks : List τ
  mTaskEvent : Bool
  mThreads : List (Place τ)
  submitting : Nat
deriving DecidableEq, Repr

inductive Action (τ : Type*)
  | push (task : τ)
  | setEvent
  | wake (i : Nat)
  | look (i : Nat)
  | finish (i : Nat)
  | remove (i : Nat)
deriving DecidableEq, Repr

namespace ThreadPool

/-- A new pool of `n` threads. -/
def create (n : Nat) : ThreadPool τ := ⟨[], [], false, List.replicate n .looking, 0⟩

/-- Thread `i` goes to `p`. -/
def goTo (s : ThreadPool τ) (i : Nat) (p : Place τ) : ThreadPool τ :=
  { s with mThreads := s.mThreads.set i p }

/-- The critical section at the head of the loop of `worker_thread`. -/
def takeTask (s : ThreadPool τ) (i : Nat) : ThreadPool τ :=
  match s.mTasks with
  | [] => s.goTo i .waiting
  | task :: tasks =>
    { s with mTasks := tasks, mRunningTasks := s.mRunningTasks ++ [task] }.goTo i (.running task)

/-- A step; nothing happens where no thread is at it. -/
def step [DecidableEq τ] (s : ThreadPool τ) : Action τ → ThreadPool τ
  | .push task => { s with mTasks := s.mTasks ++ [task], submitting := s.submitting + 1 }
  | .setEvent =>
    if s.submitting = 0 then s
    else { s with submitting := s.submitting - 1, mTaskEvent := true }
  | .wake i =>
    match s.mThreads[i]? with
    | some .waiting => if s.mTaskEvent then { s with mTaskEvent := false }.goTo i .woken else s
    | _ => s
  | .look i =>
    match s.mThreads[i]? with
    | some .looking => s.takeTask i
    | some .woken => s.takeTask i
    | _ => s
  | .finish i =>
    match s.mThreads[i]? with
    | some (.running task) => s.goTo i (.done task)
    | _ => s
  | .remove i =>
    match s.mThreads[i]? with
    | some (.done task) =>
      { s with mRunningTasks := s.mRunningTasks.filter (· ≠ task) }.goTo i .looking
    | _ => s

def waiting (s : ThreadPool τ) : Nat := s.mThreads.countP Place.isWaiting

/-- The threads on their way from the event to the queue. -/
def woken (s : ThreadPool τ) : Nat := s.mThreads.countP Place.isWoken

def signal (s : ThreadPool τ) : Nat := s.mTaskEvent.toNat

/-! ## What a step counts -/

theorem goTo_counts {s : ThreadPool τ} {i : Nat} {p : Place τ} (h : s.mThreads[i]? = some p)
    (q : Place τ) :
    (s.goTo i q).waiting + p.isWaiting.toNat = s.waiting + q.isWaiting.toNat ∧
      (s.goTo i q).woken + p.isWoken.toNat = s.woken + q.isWoken.toNat :=
  ⟨Threads.countP_set_add _ _ i q h, Threads.countP_set_add _ _ i q h⟩

/-- What a step does to the numbers of queued tasks, of calls that have yet to set the
event, of set events, and of waiting and woken threads. -/
inductive Counted (s s' : ThreadPool τ) : Action τ → Prop
  | idle (a : Action τ) : s' = s → Counted s s' a
  | push (task : τ) : s'.mTasks.length = s.mTasks.length + 1 → s'.submitting = s.submitting + 1 →
      s'.signal = s.signal → s'.waiting = s.waiting → s'.woken = s.woken →
      Counted s s' (.push task)
  | setEvent : s'.mTasks = s.mTasks → s'.submitting + 1 = s.submitting → s'.signal = 1 →
      s'.waiting = s.waiting → s'.woken = s.woken → Counted s s' .setEvent
  | wake (i : Nat) : s'.mTasks = s.mTasks → s'.submitting = s.submitting → s.signal = 1 →
      s'.signal = 0 → s'.waiting + 1 = s.waiting → s'.woken = s.woken + 1 →
      Counted s s' (.wake i)
  | take (i : Nat) : s'.mTasks.length + 1 = s.mTasks.length → s'.submitting = s.submitting →
      s'.signal = s.signal → s'.waiting = s.waiting → s'.woken ≤ s.woken → s.woken ≤ s'.woken + 1 →
      Counted s s' (.look i)
  | wait (i : Nat) : s'.mTasks = [] → Counted s s' (.look i)
  | move (a : Action τ) : s'.mTasks = s.mTasks → s'.submitting = s.submitting →
      s'.signal = s.signal → s'.waiting = s.waiting → s'.woken = s.woken → Counted s s' a

theorem takeTask_counted {s : ThreadPool τ} {i : Nat} {p : Place τ} (h : s.mThreads[i]? = some p)
    (hp : p.isWaiting = false) : Counted s (s.takeTask i) (.look i) := by
  rw [takeTask]
  cases htasks : s.mTasks with
  | nil => exact .wait i htasks
  | cons task tasks =>
    obtain ⟨hwaiting, hwoken⟩ := goTo_counts
      (s := { s with mTasks := tasks, mRunningTasks := s.mRunningTasks ++ [task] }) h
        (.running task)
    rw [hp] at hwaiting
    refine .take i ?_ rfl rfl hwaiting ?_ ?_
    · rw [htasks]
      rfl
    · exact Nat.le_trans (Nat.le_add_right _ _) (Nat.le_of_eq hwoken)
    · have := Bool.toNat_le p.isWoken
      exact Nat.le_trans (Nat.le_of_eq hwoken.symm) (Nat.add_le_add_left this _)

theorem step_counted [DecidableEq τ] (s : ThreadPool τ) (a : Action τ) :
    Counted s (s.step a) a := by
  cases a with
  | push task => exact .push task (by rw [step, List.length_append]; rfl) rfl rfl rfl rfl
  | setEvent =>
    rw [step]
    split
    · exact .idle _ rfl
    · next h => exact .setEvent rfl (Nat.succ_pred_eq_of_ne_zero h) rfl rfl rfl
  | wake i =>
    rw [step]
    split
    · next hplace =>
      split
      · next hevent =>
        obtain ⟨hwaiting, hwoken⟩ := goTo_counts (s := { s with mTaskEvent := false }) hplace .woken
        exact .wake i rfl rfl (by rw [signal, hevent]; rfl) rfl hwaiting hwoken
      · exact .idle _ rfl
    · exact .idle _ rfl
  | look i =>
    rw [step]
    split
    · next hplace => exact takeTask_counted hplace rfl
    · next hplace => exact takeTask_counted hplace rfl
    · exact .idle _ rfl
  | finish i =>
    rw [step]
    split
    · next task hplace =>
      obtain ⟨hwaiting, hwoken⟩ := goTo_counts hplace (.done task)
      exact .move _ rfl rfl rfl hwaiting hwoken
    · exact .idle _ rfl
  | remove i =>
    rw [step]
    split
    · next task hplace =>
      obtain ⟨hwaiting, hwoken⟩ := goTo_counts
        (s := { s with mRunningTasks := s.mRunningTasks.filter (· ≠ task) }) hplace .looking
      exact .move _ rfl rfl rfl hwaiting hwoken
    · exact .idle _ rfl

end ThreadPool

end DWindow.Runnable
