import DWindow.Lib.Runs
import DWindow.Runnable.ThreadPool

/-!
# Lost wake-ups

The task event remembers one `SetEvent` only.  Two tasks that come in while two
threads wait and neither has noticed the first set it once, one thread takes one
task, and the other task lies in the queue beside a thread that waits
(`second_task_stranded`).

`Supplied` is the invariant that this breaks: there are as many wake-ups under way as
queued tasks, or as many as waiting threads.  Every step but a `SetEvent` keeps it, and
a `SetEvent` does unless it is lost on a set event when both numbers count
(`supplied_setEvent_iff`).  From a state without it, the threads alone reach a state where a task
is stranded (`strands_of_not_supplied`).
-/

namespace DWindow.Runnable

open Runs

variable {τ : Type*}

namespace ThreadPool

/-- A task is queued while a thread waits, and no wake-up is on its way. -/
structure Stranded (s : ThreadPool τ) : Prop where
  queued : s.mTasks ≠ []
  idle : 0 < s.waiting
  unsignalled : s.mTaskEvent = false
  noSubmit : s.submitting = 0
  noneWoken : s.woken = 0

/-- There are wake-ups for all queued tasks, or for all waiting threads. -/
def Supplied (s : ThreadPool τ) : Prop :=
  s.mTasks.length ≤ s.submitting + s.signal + s.woken ∨ s.waiting ≤ s.submitting + s.signal

/-- A `SetEvent` finds the event reset, or it is not needed: the calls of `submmit` at
this point, itself included, are as many as the waiting threads, or with the woken
threads as many as the queued tasks. -/
def NotLost (s : ThreadPool τ) (a : Action τ) : Prop :=
  a = .setEvent → 0 < s.submitting → s.mTaskEvent = true →
    s.mTasks.length ≤ s.submitting + s.woken ∨ s.waiting ≤ s.submitting

instance [DecidableEq τ] (s : ThreadPool τ) (a : Action τ) : Decidable (NotLost s a) :=
  inferInstanceAs (Decidable (a = .setEvent → 0 < s.submitting → s.mTaskEvent = true →
    s.mTasks.length ≤ s.submitting + s.woken ∨ s.waiting ≤ s.submitting))

theorem signal_eq_zero {s : ThreadPool τ} : s.signal = 0 ↔ s.mTaskEvent = false := by
  rw [signal]
  cases s.mTaskEvent <;> decide

theorem Supplied.not_stranded {s : ThreadPool τ} (h : s.Supplied) : ¬ s.Stranded := by
  intro hs
  have hqueued := List.length_pos_iff.mpr hs.queued
  have hidle := hs.idle
  have hsignal := signal_eq_zero.mpr hs.unsignalled
  have hsubmit := hs.noSubmit
  have hwoken := hs.noneWoken
  rcases h with h | h <;> omega

theorem supplied_create (n : Nat) : (create n : ThreadPool τ).Supplied :=
  Or.inl (Nat.zero_le _)

/-- **A step keeps the supply** unless it is a `SetEvent` that is lost. -/
theorem Supplied.step [DecidableEq τ] {s : ThreadPool τ} {a : Action τ} (h : s.Supplied)
    (ha : NotLost s a) : (s.step a).Supplied := by
  rw [Supplied] at h ⊢
  cases step_counted s a with
  | idle a hs => rw [hs]; exact h
  | push task htasks hsubmit hsignal hwaiting hwoken => omega
  | setEvent htasks hsubmit hsignal hwaiting hwoken =>
    rw [htasks]
    cases hevent : s.mTaskEvent with
    | false =>
      have := signal_eq_zero.mpr hevent
      omega
    | true =>
      have := ha rfl (by omega) hevent
      omega
  | wake i htasks hsubmit hset hreset hwaiting hwoken => rw [htasks]; omega
  | take i htasks hsubmit hsignal hwaiting hwoken hwoken' => omega
  | wait i htasks => exact Or.inl (by rw [htasks]; exact Nat.zero_le _)
  | move a htasks hsubmit hsignal hwaiting hwoken => rw [htasks]; omega

/-- **A lost `SetEvent` is what takes the supply away.** -/
theorem supplied_setEvent_iff [DecidableEq τ] {s : ThreadPool τ} (h : s.Supplied) :
    (s.step .setEvent).Supplied ↔ NotLost s .setEvent := by
  refine ⟨fun hs _ hsubmit hevent => ?_, h.step⟩
  have hnext : s.step .setEvent = { s with submitting := s.submitting - 1, mTaskEvent := true } :=
    if_neg (Nat.ne_of_gt hsubmit)
  rw [hnext] at hs
  have hs :
      s.mTasks.length ≤ s.submitting - 1 + 1 + s.woken ∨ s.waiting ≤ s.submitting - 1 + 1 := hs
  omega

/-! ## Without the supply -/

/-- A step that is no critical section of `submmit`. -/
def OfThreads (a : Action τ) : Prop := ∀ task, a ≠ .push task

/-- What still wakes threads up, with more weight on what is farther from the queue. -/
def underWay (s : ThreadPool τ) : Nat := 3 * s.submitting + 2 * s.signal + s.woken

theorem step_submitting [DecidableEq τ] {s : ThreadPool τ} (h : ¬ s.Supplied)
    (hpos : 0 < s.submitting) :
    ¬ (s.step .setEvent).Supplied ∧ (s.step .setEvent).underWay < s.underWay := by
  obtain ⟨s', hs', htasks, hsubmit, hsignal, hwaiting, hwoken⟩ : ∃ s', s.step .setEvent = s' ∧
      s'.mTasks = s.mTasks ∧ s'.submitting = s.submitting - 1 ∧ s'.signal = 1 ∧
      s'.waiting = s.waiting ∧ s'.woken = s.woken :=
    ⟨_, if_neg (Nat.ne_of_gt hpos), rfl, rfl, rfl, rfl, rfl⟩
  rw [Supplied] at h ⊢
  rw [hs', underWay, underWay, htasks]
  omega

theorem step_woken [DecidableEq τ] {s : ThreadPool τ} (h : ¬ s.Supplied) {i : Nat}
    (hplace : s.mThreads[i]? = some .woken) :
    ¬ (s.step (.look i)).Supplied ∧ (s.step (.look i)).underWay < s.underWay := by
  have hpos : 0 < s.woken := Threads.pos_of_place hplace rfl
  rw [Supplied] at h ⊢
  obtain ⟨task, tasks, htasks⟩ : ∃ task tasks, s.mTasks = task :: tasks := by
    cases htasks : s.mTasks with
    | nil => rw [htasks] at h; exact absurd (Or.inl (Nat.zero_le _)) h
    | cons task tasks => exact ⟨task, tasks, rfl⟩
  have hlook : s.step (.look i) = s.takeTask i := by rw [ThreadPool.step, hplace]
  obtain ⟨s', hs', htasks', hsubmit, hsignal, hwaiting, hwoken⟩ : ∃ s', s.step (.look i) = s' ∧
      s'.mTasks = tasks ∧ s'.submitting = s.submitting ∧ s'.signal = s.signal ∧
      s'.waiting = s.waiting ∧ s'.woken + 1 = s.woken := by
    obtain ⟨hwaiting, hwoken⟩ := goTo_counts
      (s := { s with mTasks := tasks, mRunningTasks := s.mRunningTasks ++ [task] }) hplace
      (.running task)
    rw [takeTask, htasks] at hlook
    exact ⟨_, hlook, rfl, rfl, rfl, hwaiting, hwoken⟩
  rw [htasks, List.length_cons] at h
  rw [hs', underWay, underWay, htasks']
  omega

theorem step_signal [DecidableEq τ] {s : ThreadPool τ} (h : ¬ s.Supplied) {i : Nat}
    (hplace : s.mThreads[i]? = some .waiting) (hevent : s.mTaskEvent = true) :
    ¬ (s.step (.wake i)).Supplied ∧ (s.step (.wake i)).underWay < s.underWay := by
  have hset : s.signal = 1 := by rw [signal, hevent]; rfl
  obtain ⟨s', hs', htasks, hsubmit, hsignal, hwaiting, hwoken⟩ : ∃ s', s.step (.wake i) = s' ∧
      s'.mTasks = s.mTasks ∧ s'.submitting = s.submitting ∧ s'.signal = 0 ∧
      s'.waiting + 1 = s.waiting ∧ s'.woken = s.woken + 1 := by
    obtain ⟨hwaiting, hwoken⟩ := goTo_counts (s := { s with mTaskEvent := false }) hplace .woken
    have hwake : s.step (.wake i) = { s with mTaskEvent := false }.goTo i .woken := by
      rw [ThreadPool.step, hplace]
      exact if_pos hevent
    exact ⟨_, hwake, rfl, rfl, rfl, hwaiting, hwoken⟩
  rw [Supplied] at h ⊢
  rw [hs', underWay, underWay, htasks]
  omega

/-- **Without the supply** the threads alone can reach a state where a task is stranded. -/
theorem strands_of_not_supplied [DecidableEq τ] : ∀ (n : Nat) (s : ThreadPool τ),
    s.underWay = n → ¬ s.Supplied →
    ∃ actions, (∀ a ∈ actions, OfThreads a) ∧ (run step s actions).Stranded := by
  intro n
  induction n using Nat.strongRecOn with
  | ind n ih =>
    intro s hn h
    have hgo : ∀ a, OfThreads a → ¬ (s.step a).Supplied ∧ (s.step a).underWay < s.underWay →
        ∃ actions, (∀ a ∈ actions, OfThreads a) ∧ (run step s actions).Stranded := by
      intro a ha hstep
      obtain ⟨actions, hactions, hstranded⟩ := ih _ (hn ▸ hstep.2) _ rfl hstep.1
      exact ⟨a :: actions, List.forall_mem_cons.mpr ⟨ha, hactions⟩, hstranded⟩
    have hnot := h
    rw [Supplied, not_or] at hnot
    rcases Nat.eq_zero_or_pos s.submitting with hsubmit | hsubmit
    · rcases Nat.eq_zero_or_pos s.woken with hwoken | hwoken
      · have hpos : 0 < s.mThreads.countP Place.isWaiting := show 0 < s.waiting by omega
        obtain ⟨i, p, hplace, hp⟩ := Threads.place_of_pos hpos
        cases hevent : s.mTaskEvent with
        | true =>
          cases p with
          | waiting => exact hgo _ (fun _ => by simp) (step_signal h hplace hevent)
          | _ => exact absurd hp (by simp [Place.isWaiting])
        | false =>
          have hsignal := signal_eq_zero.mpr hevent
          refine ⟨[], by simp, ⟨?_, by rw [run_nil]; omega, hevent, hsubmit, hwoken⟩⟩
          exact List.length_pos_iff.mp (by rw [run_nil]; omega)
      · obtain ⟨i, p, hplace, hp⟩ := Threads.place_of_pos hwoken
        cases p with
        | woken => exact hgo _ (fun _ => by simp) (step_woken h hplace)
        | _ => exact absurd hp (by simp [Place.isWoken])
    · exact hgo _ (fun _ => by simp) (step_submitting h hsubmit)

/-! ## Runs -/

/-- **No task is stranded** in any state of a run in which no `SetEvent` is lost. -/
theorem run_not_stranded [DecidableEq τ] (n : Nat) (actions : List (Action τ))
    (h : Along step NotLost (create n) actions) (k : Nat) :
    ¬ (run step (create n) (actions.take k)).Stranded :=
  (along_run Supplied (fun _ _ hs ha => hs.step ha) (actions.take k) (create n)
    (supplied_create n) (along_take h k)).not_stranded

/-- Two threads wait, two tasks come in, and one thread takes one of them. -/
theorem second_task_stranded :
    ¬ ∀ (n : Nat) (actions : List (Action Nat)), ¬ (run step (create n) actions).Stranded := by
  intro h
  refine h 2 [.look 0, .look 1, .push 7, .setEvent, .push 8, .setEvent, .wake 0, .look 0] ?_
  exact ⟨by decide, by decide, by decide, by decide, by decide⟩

/-- The same tasks, the second one after the first is taken. -/
theorem run_not_stranded_two :
    ¬ (run step (create 2) (([.look 0, .look 1, .push 7, .setEvent, .wake 0, .look 0, .push 8,
      .setEvent, .wake 1, .look 1] : List (Action Nat)).take 10)).Stranded :=
  run_not_stranded 2 [.look 0, .look 1, .push 7, .setEvent, .wake 0, .look 0, .push 8,
    .setEvent, .wake 1, .look 1] (by decide) 10

end ThreadPool

end DWindow.Runnable
