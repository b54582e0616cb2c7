import DWindow.Lib.Runs
import DWindow.Runnable.ThreadPool

/-!
# Destroying the thread pool

`thread_pool` with `destroy`: the pool of `ThreadPool` and what `destroy` adds to it,
`m_destroyed` and the quit event, which makes a thread that finds no task leave its
loop.  A task is named by the number of the call of `submmit` that brought it, every
call brings a task of its own, and the logs `started` and `deleted` say which tasks
`run` was called on and which were deleted, in order.

A task moves from its submitter to the queue, from there to a worker or to the cleanup
of `destroy`, and ends by being deleted; `held` counts the places it is at.  The one
place it can fall through is `submmit` on a destroyed pool, which neither queues nor
deletes it.
-/

namespace DWindow.Runnable

namespace Place

/-- The thread holds the task `t`. -/
def holds (t : Nat) : Place Nat → Bool
  | running task => task = t
  | done task => task = t
  | _ => false

end Place

/-- One step of a worker, or of a call of `submmit` or `destroy`. -/
inductive Move
  /-- The critical section of `submmit`. -/
  | submmit
  | setEvent
  /-- The critical section of `destroy`. -/
  | destroy
  | setQuitEvent
  | wake (i : Nat)
  | look (i : Nat)
  | finish (i : Nat)
  | remove (i : Nat)
  /-- Out of the wait by the quit event, and out of the loop. -/
  | leave (i : Nat)
deriving DecidableEq, Repr

/-- `thread_pool`, with the threads that have ended and what became of the tasks. -/
structure OwningPool where
  pool : ThreadPool Nat
  mDestroyed : Bool
  mQuitEvent : Bool
  ended : List Nat
  submitted : Nat
  started : List Nat
  deleted : List Nat
deriving DecidableEq, Repr

namespace ThreadPool

/-- The task thread `i` takes off the queue when it looks at it. -/
def taken (s : ThreadPool Nat) (i : Nat) : List Nat :=
  match s.mThreads[i]? with
  | some .looking => s.mTasks.take 1
  | some .woken => s.mTasks.take 1
  | _ => []

/-- The task thread `i` takes off the list of running ones and deletes. -/
def disposed (s : ThreadPool Nat) (i : Nat) : List Nat :=
  match s.mThreads[i]? with
  | some (.done task) => [task]
  | _ => []

/-- The workers that hold the task `t`. -/
def holders (s : ThreadPool Nat) (t : Nat) : Nat := s.mThreads.countP (Place.holds t)

end ThreadPool

namespace OwningPool

/-- A new pool of `n` threads. -/
def create (n : Nat) : OwningPool := ⟨.create n, false, false, [], 0, [], []⟩

/-- A step; nothing happens where no thread is at it. -/
def step (s : OwningPool) : Move → OwningPool
  | .submmit =>
    if s.mDestroyed then
      { s with submitted := s.submitted + 1,
               pool := { s.pool with submitting := s.pool.submitting + 1 } }
    else { s with submitted := s.submitted + 1, pool := s.pool.step (.push s.submitted) }
  | .setEvent => { s with pool := s.pool.step .setEvent }
  | .destroy =>
    { s with mDestroyed := true, pool := { s.pool with mTasks := [] },
             deleted := s.deleted ++ s.pool.mTasks }
  | .setQuitEvent => if s.mDestroyed then { s with mQuitEvent := true } else s
  | .wake i => if i ∈ s.ended then s else { s with pool := s.pool.step (.wake i) }
  | .look i =>
    { s with pool := s.pool.step (.look i), started := s.started ++ s.pool.taken i }
  | .finish i => { s with pool := s.pool.step (.finish i) }
  | .remove i =>
    { s with pool := s.pool.step (.remove i), deleted := s.deleted ++ s.pool.disposed i }
  | .leave i =>
    -- of two set events the wait answers the task event
    if s.mQuitEvent = true ∧ s.pool.mTaskEvent = false ∧ s.pool.mThreads[i]? = some .waiting then
      { s with ended := s.ended ++ [i] }
    else s

def run (s : OwningPool) (l : List Move) : OwningPool := Runs.run step s l

/-- `destroy` has been called and all threads have ended. -/
def Finished (s : OwningPool) : Prop :=
  s.mDestroyed = true ∧ ∀ i < s.pool.mThreads.length, i ∈ s.ended

instance (s : OwningPool) : Decidable s.Finished := by
  unfold Finished
  infer_instance

/-- In how many places the task `t` is: in the queue, with a worker, deleted. -/
def held (s : OwningPool) (t : Nat) : Nat :=
  s.pool.mTasks.count t + s.pool.holders t + s.deleted.count t

/-- `submmit` takes the task. -/
def Accepted (s : OwningPool) (m : Move) : Prop := m = .submmit → s.mDestroyed = false

instance (s : OwningPool) (m : Move) : Decidable (s.Accepted m) := by
  unfold Accepted
  infer_instance

/-! ## Where a step leaves a task -/

theorem holders_goTo {s : ThreadPool Nat} {i : Nat} {p : Place Nat}
    (h : s.mThreads[i]? = some p) (q : Place Nat) (t : Nat) :
    (s.goTo i q).holders t + (p.holds t).toNat = s.holders t + (q.holds t).toNat :=
  Threads.countP_set_add _ _ i q h

theorem count_singleton_toNat (a t : Nat) : [a].count t = (decide (a = t)).toNat := by
  rw [List.count_singleton]
  by_cases h : a = t
  · rw [if_pos (by simpa using h)]
    simp [h]
  · rw [if_neg (by simpa using h)]
    simp [h]

theorem takeTask_held {s : ThreadPool Nat} {i : Nat} {p : Place Nat} (t : Nat)
    (h : s.mThreads[i]? = some p) (hp : p.holds t = false) :
    (s.takeTask i).mTasks.count t + (s.takeTask i).holders t = s.mTasks.count t + s.holders t := by
  rw [ThreadPool.takeTask]
  cases htasks : s.mTasks with
  | nil =>
    have hgo := holders_goTo h .waiting t
    rw [hp] at hgo
    show (s.goTo i .waiting).mTasks.count t + _ = _
    rw [show (s.goTo i .waiting).mTasks = [] from htasks]
    exact congrArg _ hgo
  | cons task tasks =>
    have hgo := holders_goTo
      (s := { s with mTasks := tasks, mRunningTasks := s.mRunningTasks ++ [task] }) h
        (.running task) t
    rw [hp] at hgo
    have hcons : (task :: tasks).count t = tasks.count t + (decide (task = t)).toNat := by
      rw [← List.singleton_append, List.count_append, count_singleton_toNat, Nat.add_comm]
    rw [hcons, Nat.add_assoc]
    refine congrArg (tasks.count t + ·) (Eq.trans hgo ?_)
    exact Nat.add_comm _ _

/-- The three kinds of steps of a worker that do not end a task. -/
theorem pool_step_held (s : ThreadPool Nat) (t i : Nat) {a : Action Nat}
    (ha : a = .setEvent ∨ a = .wake i ∨ a = .look i ∨ a = .finish i) :
    (s.step a).mTasks.count t + (s.step a).holders t = s.mTasks.count t + s.holders t := by
  rcases ha with rfl | rfl | rfl | rfl
  · rw [ThreadPool.step]
    split
    · rfl
    · rfl
  · rw [ThreadPool.step]
    split
    · next hplace =>
      split
      · exact congrArg _ (holders_goTo (s := { s with mTaskEvent := false }) hplace .woken t)
      · rfl
    · rfl
  · rw [ThreadPool.step]
    split
    · next hplace => exact takeTask_held t hplace rfl
    · next hplace => exact takeTask_held t hplace rfl
    · rfl
  · rw [ThreadPool.step]
    split
    · next task hplace =>
      have hgo := holders_goTo hplace (.done task) t
      exact congrArg (s.mTasks.count t + ·) (Nat.add_right_cancel hgo)
    · rfl

theorem remove_held (s : ThreadPool Nat) (t i : Nat) :
    (s.step (.remove i)).mTasks = s.mTasks ∧
      (s.step (.remove i)).holders t + (s.disposed i).count t = s.holders t := by
  by_cases h : ∃ task, s.mThreads[i]? = some (.done task)
  · obtain ⟨task, hplace⟩ := h
    have hgo := holders_goTo
      (s := { s with mRunningTasks := s.mRunningTasks.filter (· ≠ task) }) hplace .looking t
    rw [ThreadPool.step, ThreadPool.disposed, hplace]
    refine ⟨rfl, ?_⟩
    show _ + [task].count t = _
    rw [count_singleton_toNat]
    exact hgo
  · have hidle : s.step (.remove i) = s := by
      rw [ThreadPool.step]
      split
      · next task hplace => exact absurd ⟨task, hplace⟩ h
      · rfl
    have hnone : s.disposed i = [] := by
      rw [ThreadPool.disposed]
      split
      · next task hplace => exact absurd ⟨task, hplace⟩ h
      · rfl
    rw [hidle, hnone]
    exact ⟨rfl, rfl⟩

/-- **What a step does with a task.**  It stays in as many places as it was in, and a new
one comes into the queue of a pool that is not destroyed. -/
theorem held_step (s : OwningPool) (m : Move) (t : Nat) : (s.step m).held t =
    s.held t + (if m = .submmit ∧ s.mDestroyed = false ∧ t = s.submitted then 1 else 0) := by
  cases m with
  | submmit =>
    rw [step]
    cases hd : s.mDestroyed with
    | true => simp [held, ThreadPool.holders]
    | false =>
      simp only [held, ThreadPool.step, ThreadPool.holders, List.count_append,
        count_singleton_toNat, Bool.false_eq_true, if_false, true_and]
      by_cases ht : t = s.submitted
      · subst ht
        simp
        omega
      · rw [if_neg ht, decide_eq_false (fun h => ht h.symm)]
        rfl
  | setEvent =>
    rw [if_neg (fun h => by cases h.1)]
    exact congrArg (· + _) (pool_step_held s.pool t 0 (.inl rfl))
  | destroy =>
    rw [if_neg (fun h => by cases h.1)]
    show List.count t [] + s.pool.holders t + (s.deleted ++ s.pool.mTasks).count t = s.held t
    rw [List.count_append, held, List.count_nil]
    omega
  | setQuitEvent =>
    rw [if_neg (fun h => by cases h.1), step]
    split
    · rfl
    · rfl
  | wake i =>
    rw [if_neg (fun h => by cases h.1), step]
    split
    · rfl
    · exact congrArg (· + _) (pool_step_held s.pool t i (.inr (.inl rfl)))
  | look i =>
    rw [if_neg (fun h => by cases h.1)]
    exact congrArg (· + _) (pool_step_held s.pool t i (.inr (.inr (.inl rfl))))
  | finish i =>
    rw [if_neg (fun h => by cases h.1)]
    exact congrArg (· + _) (pool_step_held s.pool t i (.inr (.inr (.inr rfl))))
  | remove i =>
    obtain ⟨hqueue, hholders⟩ := remove_held s.pool t i
    rw [if_neg (fun h => by cases h.1)]
    show (s.pool.step (.remove i)).mTasks.count t + (s.pool.step (.remove i)).holders t +
      (s.deleted ++ s.pool.disposed i).count t = s.held t
    rw [hqueue, List.count_append, held]
    omega
  | leave i =>
    rw [if_neg (fun h => by cases h.1), step]
    split
    · rfl
    · rfl

/-! ## What every run keeps -/

/-- What a run keeps of the logs and of the threads that have ended. -/
structure Sound (s : OwningPool) : Prop where
  held_le : ∀ t, s.held t ≤ 1
  held_fresh : ∀ t, s.submitted ≤ t → s.held t = 0
  started_le : ∀ t, s.started.count t + s.pool.mTasks.count t ≤ 1
  started_fresh : ∀ t, s.submitted ≤ t → s.started.count t = 0
  empty : s.mDestroyed = true → s.pool.mTasks = []
  waiting : ∀ i ∈ s.ended, s.pool.mThreads[i]? = some .waiting

theorem create_sound (n : Nat) : (create n).Sound := by
  have hheld : ∀ t, (create n).held t = 0 := by
    intro t
    have hnone : (create n).pool.holders t = 0 := by
      rw [ThreadPool.holders, List.countP_eq_zero]
      intro p hp
      rw [List.eq_of_mem_replicate hp]
      exact Bool.false_ne_true
    rw [held, hnone]
    rfl
  constructor
  · intro t
    rw [hheld]
    exact Nat.zero_le 1
  · exact fun t _ => hheld t
  · exact fun t => Nat.zero_le 1
  · exact fun t _ => rfl
  · intro h
    cases h
  · intro i hi
    cases hi

theorem waiting_kept {s : ThreadPool Nat} {j : Nat} {a : Action Nat}
    (h : s.mThreads[j]? = some .waiting) (ha : a ≠ .wake j) :
    (s.step a).mThreads[j]? = some .waiting := by
  have hgo : ∀ {i : Nat} {p q : Place Nat} (u : ThreadPool Nat), u.mThreads = s.mThreads →
      s.mThreads[i]? = some p → p ≠ .waiting ∨ q = .waiting →
      (u.goTo i q).mThreads[j]? = some .waiting := by
    intro i p q u hu hi hpq
    show (u.mThreads.set i q)[j]? = some .waiting
    rw [hu, List.getElem?_set]
    split
    · next hij =>
      subst hij
      have hpw : p = .waiting := Option.some.inj (hi.symm.trans h)
      have hq : q = .waiting := hpq.resolve_left fun hp => hp hpw
      rw [if_pos (List.getElem?_eq_some_iff.mp h).1, hq]
    · exact h
  have htake : ∀ {i : Nat} {p : Place Nat}, s.mThreads[i]? = some p → p ≠ .waiting →
      (s.takeTask i).mThreads[j]? = some .waiting := by
    intro i p hi hp
    rw [ThreadPool.takeTask]
    split
    · exact hgo s rfl hi (.inl hp)
    · exact hgo _ rfl hi (.inl hp)
  cases a with
  | push task => exact h
  | setEvent =>
    rw [ThreadPool.step]
    split
    · exact h
    · exact h
  | wake i =>
    rw [ThreadPool.step]
    split
    · next hplace =>
      split
      · have hij : i ≠ j := fun e => ha (congrArg _ e)
        show (s.mThreads.set i .woken)[j]? = some .waiting
        rw [List.getElem?_set_ne hij]
        exact h
      · exact h
    · exact h
  | look i =>
    rw [ThreadPool.step]
    split
    · next hplace => exact htake hplace (fun e => by cases e)
    · next hplace => exact htake hplace (fun e => by cases e)
    · exact h
  | finish i =>
    rw [ThreadPool.step]
    split
    · next task hplace => exact hgo s rfl hplace (.inl fun e => by cases e)
    · exact h
  | remove i =>
    rw [ThreadPool.step]
    split
    · next task hplace => exact hgo _ rfl hplace (.inl fun e => by cases e)
    · exact h

theorem taken_append_look (s : ThreadPool Nat) (i : Nat) :
    s.taken i ++ (s.step (.look i)).mTasks = s.mTasks := by
  have htake : s.mTasks.take 1 ++ (s.takeTask i).mTasks = s.mTasks := by
    rw [ThreadPool.takeTask]
    cases htasks : s.mTasks with
    | nil => exact htasks
    | cons task tasks => rfl
  rw [ThreadPool.step, ThreadPool.taken]
  cases hplace : s.mThreads[i]? with
  | none => rfl
  | some p =>
    cases p with
    | looking => exact htake
    | woken => exact htake
    | waiting => rfl
    | running task => rfl
    | done task => rfl

theorem mTasks_step (s : ThreadPool Nat) (i : Nat) {a : Action Nat}
    (ha : a = .setEvent ∨ a = .wake i ∨ a = .finish i ∨ a = .remove i) :
    (s.step a).mTasks = s.mTasks := by
  rcases ha with rfl | rfl | rfl | rfl
  · rw [ThreadPool.step]
    split
    · rfl
    · rfl
  · rw [ThreadPool.step]
    split
    · split
      · rfl
      · rfl
    · rfl
  · rw [ThreadPool.step]
    split
    · rfl
    · rfl
  · rw [ThreadPool.step]
    split
    · rfl
    · rfl

/-- A step calls `run` on tasks of the queue only, and takes them off it. -/
theorem started_step (s : OwningPool) (m : Move) (t : Nat) :
    s.started.count t ≤ (s.step m).started.count t ∧
    (s.step m).started.count t ≤ s.started.count t + s.pool.mTasks.count t ∧
    (s.step m).started.count t + (s.step m).pool.mTasks.count t ≤
      s.started.count t + s.pool.mTasks.count t +
        (if m = .submmit ∧ s.mDestroyed = false ∧ t = s.submitted then 1 else 0) := by
  have hquiet : ∀ u : OwningPool, u.started = s.started → u.pool.mTasks = s.pool.mTasks →
      s.started.count t ≤ u.started.count t ∧
      u.started.count t ≤ s.started.count t + s.pool.mTasks.count t ∧
      u.started.count t + u.pool.mTasks.count t ≤ s.started.count t + s.pool.mTasks.count t +
        (if m = .submmit ∧ s.mDestroyed = false ∧ t = s.submitted then 1 else 0) := by
    intro u hstarted hqueue
    rw [hstarted, hqueue]
    omega
  cases m with
  | submmit =>
    rw [step]
    split
    · exact hquiet _ rfl rfl
    · next hd =>
      refine ⟨Nat.le_refl _, Nat.le_add_right _ _, ?_⟩
      show s.started.count t + (s.pool.mTasks ++ [s.submitted]).count t ≤ _
      rw [List.count_append, count_singleton_toNat]
      by_cases ht : t = s.submitted
      · rw [if_pos ⟨rfl, by simpa using hd, ht⟩, ht, decide_eq_true rfl, ← Nat.add_assoc]
        exact Nat.le_refl _
      · rw [decide_eq_false (fun h => ht h.symm)]
        exact Nat.le_add_right _ _
  | setEvent => exact hquiet _ rfl (mTasks_step s.pool 0 (.inl rfl))
  | destroy =>
    refine ⟨Nat.le_refl _, Nat.le_add_right _ _, ?_⟩
    show s.started.count t + List.count t [] ≤ _
    rw [List.count_nil]
    omega
  | setQuitEvent =>
    rw [step]
    split
    · exact hquiet _ rfl rfl
    · exact hquiet _ rfl rfl
  | wake i =>
    rw [step]
    split
    · exact hquiet _ rfl rfl
    · exact hquiet _ rfl (mTasks_step s.pool i (.inr (.inl rfl)))
  | look i =>
    have hqueue : s.pool.mTasks.count t = _ :=
      congrArg (List.count t) (taken_append_look s.pool i).symm
    have hstarted : (s.step (.look i)).started.count t = _ := List.count_append
    rw [List.count_append] at hqueue
    rw [hstarted, show (s.step (.look i)).pool = s.pool.step (.look i) from rfl]
    omega
  | finish i => exact hquiet _ rfl (mTasks_step s.pool i (.inr (.inr (.inl rfl))))
  | remove i => exact hquiet _ rfl (mTasks_step s.pool i (.inr (.inr (.inr rfl))))
  | leave i =>
    rw [step]
    split
    · exact hquiet _ rfl rfl
    · exact hquiet _ rfl rfl

/-- Only `destroy` sets `m_destroyed`, and only `submmit` counts. -/
theorem flags_step (s : OwningPool) (m : Move) :
    (s.step m).submitted = s.submitted + (if m = .submmit then 1 else 0) ∧
    (s.step m).mDestroyed = (s.mDestroyed || decide (m = .destroy)) := by
  cases m with
  | submmit =>
    rw [step]
    split
    · next hd => exact ⟨rfl, by simp [hd]⟩
    · next hd => exact ⟨rfl, by simp⟩
  | setQuitEvent =>
    rw [step]
    split
    · next hd => exact ⟨rfl, by simp [hd]⟩
    · exact ⟨rfl, by simp⟩
  | wake i =>
    rw [step]
    split
    · exact ⟨rfl, by simp⟩
    · exact ⟨rfl, by simp⟩
  | leave i =>
    rw [step]
    split
    · exact ⟨rfl, by simp⟩
    · exact ⟨rfl, by simp⟩
  | destroy => exact ⟨rfl, by simp [step]⟩
  | setEvent => exact ⟨rfl, by simp [step]⟩
  | look i => exact ⟨rfl, by simp [step]⟩
  | finish i => exact ⟨rfl, by simp [step]⟩
  | remove i => exact ⟨rfl, by simp [step]⟩

theorem ended_step {s : OwningPool}
    (hs : ∀ j ∈ s.ended, s.pool.mThreads[j]? = some .waiting) (m : Move) :
    ∀ j ∈ (s.step m).ended, (s.step m).pool.mThreads[j]? = some .waiting := by
  intro j hj
  cases m with
  | submmit =>
    rw [step] at hj ⊢
    split at hj
    · next hd =>
      rw [if_pos hd]
      exact hs j hj
    · next hd =>
      rw [if_neg hd]
      exact hs j hj
  | setEvent => exact waiting_kept (hs j hj) (fun h => by cases h)
  | destroy => exact hs j hj
  | setQuitEvent =>
    rw [step] at hj ⊢
    split at hj
    · next hd =>
      rw [if_pos hd]
      exact hs j hj
    · next hd =>
      rw [if_neg hd]
      exact hs j hj
  | wake i =>
    rw [step] at hj ⊢
    split at hj
    · next hi =>
      rw [if_pos hi]
      exact hs j hj
    · next hi =>
      rw [if_neg hi]
      refine waiting_kept (hs j hj) fun h => ?_
      cases h
      exact hi hj
  | look i => exact waiting_kept (hs j hj) (fun h => by cases h)
  | finish i => exact waiting_kept (hs j hj) (fun h => by cases h)
  | remove i => exact waiting_kept (hs j hj) (fun h => by cases h)
  | leave i =>
    rw [step] at hj ⊢
    split at hj
    · next h =>
      rw [if_pos h]
      rcases List.mem_append.mp hj with hj | hj
      · exact hs j hj
      · rw [List.mem_singleton.mp hj]
        exact h.2.2
    · next h =>
      rw [if_neg h]
      exact hs j hj

/-- **What a run keeps, a step keeps.** -/
theorem Sound.step {s : OwningPool} (hs : s.Sound) (m : Move) : (s.step m).Sound := by
  obtain ⟨hsub, hdestroyed⟩ := flags_step s m
  have hqueue : ∀ t, s.submitted ≤ t → s.pool.mTasks.count t = 0 := by
    intro t ht
    have := hs.held_fresh t ht
    rw [held] at this
    omega
  refine ⟨fun t => ?_, fun t ht => ?_, fun t => ?_, fun t ht => ?_, fun hd => ?_,
    ended_step hs.waiting m⟩
  · rw [held_step]
    split
    · next hnew => exact Nat.le_of_eq (by rw [hs.held_fresh t (Nat.le_of_eq hnew.2.2.symm)])
    · exact hs.held_le t
  · rw [hsub] at ht
    rw [held_step, hs.held_fresh t (by omega)]
    split
    · next hnew =>
      rw [if_pos hnew.1] at ht
      omega
    · rfl
  · obtain ⟨-, -, hstep⟩ := started_step s m t
    split at hstep
    · next hnew =>
      have hfresh := Nat.le_of_eq hnew.2.2.symm
      rw [hs.started_fresh t hfresh, hqueue t hfresh] at hstep
      exact hstep
    · exact Nat.le_trans hstep (hs.started_le t)
  · have hfresh : s.submitted ≤ t := by omega
    obtain ⟨-, hstep, -⟩ := started_step s m t
    rw [hs.started_fresh t hfresh, hqueue t hfresh] at hstep
    exact Nat.le_zero.mp hstep
  · rw [hdestroyed, Bool.or_eq_true] at hd
    rcases hd with hd | hd
    · -- a destroyed pool takes no task
      refine List.eq_nil_iff_forall_not_mem.mpr fun t ht => ?_
      obtain ⟨hle, -, hstep⟩ := started_step s m t
      rw [hs.empty hd, if_neg fun h => Bool.false_ne_true (h.2.1.symm.trans hd)] at hstep
      have hpos := List.count_pos_iff.mpr ht
      simp only [List.count_nil] at hstep
      omega
    · rw [of_decide_eq_true hd]
      rfl

theorem run_sound (n : Nat) (l : List Move) : ((create n).run l).Sound :=
  Runs.run_invariant Sound (fun _ m hs => hs.step m) l _ (create_sound n)

/-! ## Tasks that are never deleted -/

theorem submitted_le_run (l : List Move) (s : OwningPool) : s.submitted ≤ (s.run l).submitted := by
  refine Runs.run_invariant (fun u : OwningPool => s.submitted ≤ u.submitted) (fun u m hu => ?_) l s
    (Nat.le_refl _)
  rw [(flags_step u m).1]
  exact Nat.le_trans hu (Nat.le_add_right _ _)

/-- A task that is there stays there, and one that fell through does not come back. -/
theorem held_run : ∀ (l : List Move) (s : OwningPool) (t : Nat), t < s.submitted →
    (s.run l).held t = s.held t := by
  intro l
  induction l with
  | nil =>
    intro s t _
    rfl
  | cons m l ih =>
    intro s t ht
    have hstep : t < (s.step m).submitted := by
      rw [(flags_step s m).1]
      exact Nat.lt_of_lt_of_le ht (Nat.le_add_right _ _)
    have hold : (s.step m).held t = s.held t := by
      rw [held_step, if_neg fun h => Nat.ne_of_lt ht h.2.2, Nat.add_zero]
    exact (ih (s.step m) t hstep).trans hold

/-- **A task that is submitted in a run is somewhere at its end** exactly if the pool took
it. -/
theorem held_run_iff : ∀ (l : List Move) (s : OwningPool), s.Sound →
    ((∀ t, s.submitted ≤ t → t < (s.run l).submitted → (s.run l).held t = 1) ↔
      Runs.Along OwningPool.step Accepted s l) := by
  intro l
  induction l with
  | nil =>
    intro s hs
    exact ⟨fun _ => trivial, fun _ t hle hlt => absurd hlt (Nat.not_lt.mpr hle)⟩
  | cons m l ih =>
    intro s hs
    have ihstep := ih (s.step m) (hs.step m)
    have hsub := (flags_step s m).1
    have hle := submitted_le_run l (s.step m)
    -- what became of the task of this step, if it is one of `submmit`
    have hnew : m = .submmit → ((s.step m).run l).held s.submitted =
        if s.mDestroyed = false then 1 else 0 := by
      intro hm
      rw [held_run l (s.step m) s.submitted (by rw [hsub, if_pos hm]; exact Nat.lt_succ_self _),
        held_step, hs.held_fresh _ (Nat.le_refl _), Nat.zero_add]
      simp only [hm, true_and, and_true]
    rw [Runs.along_cons]
    constructor
    · intro h
      refine ⟨fun hm => ?_, ihstep.mp fun t ht hlt => h t (by omega) hlt⟩
      rw [hsub, if_pos hm] at hle
      have hone := (hnew hm).symm.trans (h s.submitted (Nat.le_refl _) (Nat.lt_of_succ_le hle))
      by_contra hd
      rw [if_neg hd] at hone
      exact absurd hone Nat.zero_ne_one
    · rintro ⟨hm, hl⟩ t ht hlt
      by_cases hstep : (s.step m).submitted ≤ t
      · exact ihstep.mpr hl t hstep hlt
      · rw [hsub] at hstep
        split at hstep
        · next hsubmmit =>
          obtain rfl : t = s.submitted := by omega
          exact (hnew hsubmmit).trans (if_pos (hm hsubmmit))
        · exact absurd ht hstep

/-- When all threads have ended, a task is deleted or nowhere. -/
theorem Sound.held_finished {s : OwningPool} (hs : s.Sound) (hf : s.Finished) (t : Nat) :
    s.held t = s.deleted.count t := by
  have hnone : s.pool.holders t = 0 := by
    rw [ThreadPool.holders, List.countP_eq_zero]
    intro p hp
    obtain ⟨i, hi⟩ := List.getElem?_of_mem hp
    have hwait := hs.waiting i (hf.2 i (List.getElem?_eq_some_iff.mp hi).1)
    rw [Option.some.inj (hi.symm.trans hwait)]
    exact Bool.false_ne_true
  rw [held, hs.empty hf.1, hnone, List.count_nil, Nat.zero_add]

/-- **Running and deleting.**  In every run `run` is called at most once on a task, by one
worker, a task is deleted at most once and not while it runs. -/
theorem Sound.once {s : OwningPool} (hs : s.Sound) (t : Nat) :
    s.started.count t ≤ 1 ∧ s.deleted.count t ≤ 1 ∧
      ∀ i : Nat, s.pool.mThreads[i]? = some (Place.running t) →
        t ∉ s.deleted ∧ ∀ j : Nat, s.pool.mThreads[j]? = some (Place.running t) → j = i := by
  have hstarted := hs.started_le t
  have hheld := hs.held_le t
  rw [held] at hheld
  refine ⟨by omega, by omega, fun i hi => ?_⟩
  have hholds : Place.holds t (.running t) = true := decide_eq_true rfl
  have hpos : 0 < s.pool.holders t := Threads.pos_of_place hi hholds
  refine ⟨fun hdel => ?_, fun j hj => ?_⟩
  · have := List.count_pos_iff.mpr hdel
    omega
  · have hone : s.pool.mThreads.countP (Place.holds t) ≤ 1 := by
      rw [ThreadPool.holders] at hheld
      omega
    exact Threads.place_unique hone hj hholds hi hholds

/-- **Every task is run at most once and deleted once.**  In every run no task is run twice
or by two workers and none is deleted twice or while it runs; and when all threads have ended
after `destroy`, every task ever submitted has been deleted once if and only if none was
submitted to the destroyed pool. -/
theorem deleted_once_iff (n : Nat) (l : List Move) :
    (∀ t, ((create n).run l).started.count t ≤ 1 ∧ ((create n).run l).deleted.count t ≤ 1 ∧
      ∀ i : Nat, ((create n).run l).pool.mThreads[i]? = some (Place.running t) →
        t ∉ ((create n).run l).deleted ∧
        ∀ j : Nat, ((create n).run l).pool.mThreads[j]? = some (Place.running t) → j = i) ∧
    (((create n).run l).Finished →
      ((∀ t < ((create n).run l).submitted, ((create n).run l).deleted.count t = 1) ↔
        Runs.Along OwningPool.step Accepted (create n) l)) := by
  have hs := run_sound n l
  refine ⟨hs.once, fun hf => ?_⟩
  rw [← held_run_iff l (create n) (create_sound n)]
  constructor
  · intro h t _ ht
    exact (hs.held_finished hf t).trans (h t ht)
  · intro h t ht
    exact (hs.held_finished hf t).symm.trans (h t (Nat.zero_le t) ht)

/-- One worker runs a task, a second task is queued when the pool is destroyed. -/
def twoTasks : List Move :=
  [.submmit, .look 0, .submmit, .setEvent, .setEvent, .destroy, .finish 0, .remove 0, .look 0,
    .setQuitEvent, .wake 0, .look 0, .leave 0]

theorem deleted_once_twoTasks : ((create 1).run twoTasks).Finished ∧
    ((create 1).run twoTasks).submitted = 2 ∧
    ∀ t < ((create 1).run twoTasks).submitted, ((create 1).run twoTasks).deleted.count t = 1 :=
  ⟨by decide, by decide, ((deleted_once_iff 1 twoTasks).2 (by decide)).mpr (by decide)⟩

/-- A task is submitted while `destroy` waits for the threads: it is not deleted, before the
last thread has ended or after. -/
theorem late_task_lost :
    ((create 1).run [.look 0, .destroy, .submmit, .setQuitEvent, .leave 0]).Finished ∧
    ((create 1).run [.look 0, .destroy, .submmit, .setQuitEvent, .leave 0]).submitted = 1 ∧
    ((create 1).run
      [.look 0, .destroy, .submmit, .setQuitEvent, .leave 0]).deleted.count 0 = 0 := by
  decide

end OwningPool

end DWindow.Runnable
