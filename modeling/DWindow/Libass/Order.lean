import DWindow.Libass.Renderer
import Mathlib.Data.List.Nodup

/-!
# The order of the commands

`g_libass_cs` keeps two commands from being executed at the same time, in whatever order
(`run_alone`).  The order itself is another matter, since the loading thread sets `m_core`
and empties the queue without `m_cs`.  A sender that finds `m_core` set before the queue is
empty may execute its command in front of those in the queue, and one that has found it not
set may insert its command when the queue has already been emptied, where nobody takes it
out again (`commands_out_of_order`).

`inOrder_iff` says that these are all the ways in which the order is lost.
-/

namespace DWindow.Libass

open Runs

namespace Sender

/-- The call whose command has not been passed on. -/
def inFlight : Sender → List Call
  | .entered c => [c]
  | .inserts c => [c]
  | .calls c => [c]
  | _ => []

end Sender

namespace Loader

/-- The call whose command has been popped and not been passed on. -/
def held : Loader → List Call
  | .holds c => [c]
  | _ => []

end Loader

namespace LibassRenderer

/-- The core executes one command at a time. -/
structure Alone (s : LibassRenderer) : Prop where
  oneSender : ∀ i j c c', s.senders i = .executes c → s.senders j = .executes c' → i = j
  notLoader : ∀ i c c', s.senders i = .executes c → s.loader = .executes c' →
    c.onCore = true → c'.onCore = false

/-- The commands of the first calls have been executed, each once and one at a time; and when
the loading thread has finished those of all calls have, but for a call that is still to pass
its own on. -/
structure InOrder (s : LibassRenderer) : Prop extends s.Alone where
  inTurn : s.executed <+: s.sent
  once : s.executed.Nodup
  all : s.loader = .finished → ∀ c ∈ s.sent, c ∈ s.executed ∨ ∃ i, c ∈ (s.senders i).inFlight

/-- A sender that begins to execute its command finds nothing in the queue and nothing in the
hands of the loading thread, and one that is about to insert it finds that the loading thread
has yet to find the queue empty. -/
def Apart (s : LibassRenderer) : Turn → Prop
  | .sender i _ =>
    match s.senders i with
    | .calls c => s.coreFree c = true → s.mCommands = [] ∧ s.loader.held = []
    | .inserts _ => s.loader ≠ .finished
    | _ => True
  | .loader => True

/-! ## The locks -/

/-- Who is where holds what. -/
structure Locked (s : LibassRenderer) : Prop where
  owner : ∀ i, s.mCs = .sender i ↔ s.senders i ≠ .outside
  locks : s.mCs = .loader ↔ s.loader = .locks
  core : ∀ i c, s.senders i = .executes c → c.onCore = true → s.gLibassCs = .sender i
  coreLoader : ∀ c, s.loader = .executes c → c.onCore = true → s.gLibassCs = .loader

theorem locked_create : create.Locked where
  owner := fun _ => ⟨(fun h => nomatch h), fun h => absurd rfl h⟩
  locks := ⟨(fun h => nomatch h), (fun h => nomatch h)⟩
  core := fun _ _ h => nomatch h
  coreLoader := fun _ h => nomatch h

variable {s : LibassRenderer}

/-- Only one sender is inside. -/
theorem Locked.eq_of_inside (h : s.Locked) {i j : Nat} (hi : s.senders i ≠ .outside)
    (hj : s.senders j ≠ .outside) : i = j := by
  have hown := (h.owner i).mpr hi
  rw [(h.owner j).mpr hj] at hown
  exact (Owner.sender.inj hown).symm

theorem Locked.outside_of_not_sender (h : s.Locked) (hcs : ∀ i, s.mCs ≠ .sender i) (i : Nat) :
    s.senders i = .outside := by
  by_contra hi
  exact hcs i ((h.owner i).mpr hi)

theorem Locked.alone (h : s.Locked) : s.Alone where
  oneSender := by
    intro i j c c' hi hj
    refine h.eq_of_inside ?_ ?_
    · rw [hi]; exact Sender.noConfusion
    · rw [hj]; exact Sender.noConfusion
  notLoader := by
    intro i c c' hi hloader hcore
    have hown := h.core i c hi hcore
    cases hcore' : c'.onCore with
    | false => rfl
    | true =>
      rw [h.coreLoader c' hloader hcore'] at hown
      cases hown

theorem coreFree_of_onCore {c : Call} (hfree : s.coreFree c = true) (hcore : c.onCore = true) :
    s.gLibassCs = .free := by
  rw [coreFree, hcore, Bool.not_true, Bool.false_or, beq_iff_eq] at hfree
  exact hfree

/-- A step of the sender inside, to another place inside. -/
theorem Locked.of_sender (h : s.Locked) {s' : LibassRenderer} {i : Nat} {p : Sender}
    (hi : s.senders i ≠ .outside) (hsenders : s'.senders = Function.update s.senders i p)
    (hp : p ≠ .outside) (hcs : s'.mCs = s.mCs) (hloader : s'.loader = s.loader)
    (hcore : ∀ c, p = .executes c → c.onCore = true → s'.gLibassCs = .sender i)
    (hkept : ∀ c, s.loader = .executes c → c.onCore = true → s'.gLibassCs = .loader) :
    s'.Locked := by
  refine ⟨fun j => ?_, ?_, fun j c hj => ?_, ?_⟩
  · rw [hcs, hsenders]
    by_cases hj : j = i
    · subst hj
      rw [Function.update_self]
      exact iff_of_true ((h.owner j).mpr hi) hp
    · rw [Function.update_of_ne hj]
      exact h.owner j
  · rw [hcs, hloader]
    exact h.locks
  · rw [hsenders] at hj
    by_cases heq : j = i
    · subst heq
      rw [Function.update_self] at hj
      exact hcore c hj
    · rw [Function.update_of_ne heq] at hj
      exact absurd (h.eq_of_inside (by rw [hj]; exact Sender.noConfusion) hi) heq
  · rw [hloader]
    exact hkept

theorem Locked.enter (h : s.Locked) (hfree : s.mCs = .free) (i : Nat) (command : Command) :
    Locked ({ s with
      mCs := .sender i, sent := s.sent ++ [Call.mk s.sent.length command] }.goTo i
        (.entered ⟨s.sent.length, command⟩)) := by
  have hout : ∀ j, s.senders j = .outside :=
    h.outside_of_not_sender fun j hj => by rw [hfree] at hj; cases hj
  refine ⟨fun j => ?_, ?_, fun j c hj => ?_, h.coreLoader⟩
  · by_cases hj : j = i
    · subst hj
      refine iff_of_true rfl ?_
      rw [goTo_self]
      exact Sender.noConfusion
    · refine iff_of_false (fun heq => hj (Owner.sender.inj heq).symm) ?_
      rw [goTo_of_ne _ _ hj, not_not]
      exact hout j
  · refine iff_of_false Owner.noConfusion fun hloader => ?_
    have := h.locks.mpr hloader
    rw [hfree] at this
    cases this
  · by_cases heq : j = i
    · subst heq
      rw [goTo_self] at hj
      cases hj
    · rw [goTo_of_ne _ _ heq] at hj
      exact absurd ((hout j).symm.trans hj) Sender.noConfusion

theorem Locked.outside_of_leaves (h : s.Locked) {i : Nat} (hi : s.senders i = .leaves)
    (j : Nat) :
    (LibassRenderer.goTo { s with mCs := .free } i .outside).senders j = .outside := by
  by_cases hj : j = i
  · rw [hj, goTo_self]
  · rw [goTo_of_ne _ _ hj]
    by_contra hjout
    exact hj (h.eq_of_inside hjout (by rw [hi]; exact Sender.noConfusion))

theorem Locked.leave (h : s.Locked) {i : Nat} (hi : s.senders i = .leaves) :
    Locked ({ s with mCs := .free }.goTo i .outside) := by
  have hown : s.mCs = .sender i := (h.owner i).mpr (by rw [hi]; exact Sender.noConfusion)
  have hout := h.outside_of_leaves hi
  refine ⟨fun j => ?_, ?_, fun j c hj => ?_, h.coreLoader⟩
  · exact iff_of_false Owner.noConfusion (not_not.mpr (hout j))
  · refine iff_of_false Owner.noConfusion fun hloader => ?_
    have := h.locks.mpr hloader
    rw [hown] at this
    cases this
  · exact absurd ((hout j).symm.trans hj) Sender.noConfusion

/-- **A sender's step keeps the locks.** -/
theorem Locked.stepSender (h : s.Locked) (i : Nat) (command : Command) :
    (s.stepSender i command).Locked := by
  have hin : ∀ p, s.senders i = p → p ≠ .outside → s.senders i ≠ .outside := by
    rintro p rfl hp
    exact hp
  unfold LibassRenderer.stepSender
  cases hi : s.senders i with
  | outside =>
    dsimp only
    split
    · next hfree => exact h.enter hfree i command
    · exact h
  | entered c =>
    have hout := hin _ hi Sender.noConfusion
    cases hcore : s.mCore with
    | false =>
      exact h.of_sender hout rfl Sender.noConfusion rfl rfl (fun _ hc => nomatch hc) h.coreLoader
    | true =>
      exact h.of_sender hout rfl Sender.noConfusion rfl rfl (fun _ hc => nomatch hc) h.coreLoader
  | inserts c =>
    exact h.of_sender (hin _ hi Sender.noConfusion) rfl Sender.noConfusion rfl rfl
      (fun _ hc => nomatch hc) h.coreLoader
  | calls c =>
    dsimp only
    split
    · next hfree =>
      refine h.of_sender (hin _ hi Sender.noConfusion) rfl Sender.noConfusion rfl rfl
        (fun d hd hcore => ?_) fun d hd hcore => ?_
      · obtain rfl := Sender.executes.inj hd
        exact if_pos hcore
      · have hloader := h.coreLoader d hd hcore
        refine (if_neg fun hc => ?_).trans hloader
        rw [coreFree_of_onCore hfree hc] at hloader
        cases hloader
    · exact h
  | executes c =>
    refine h.of_sender (hin _ hi Sender.noConfusion) rfl Sender.noConfusion rfl rfl
      (fun _ hc => nomatch hc) fun d hd hcore => ?_
    have hloader := h.coreLoader d hd hcore
    refine (if_neg fun hc => ?_).trans hloader
    rw [h.core i c hi hc] at hloader
    cases hloader
  | leaves => exact h.leave hi

/-- A step of the loading thread that leaves `m_cs` alone. -/
theorem Locked.of_loader (h : s.Locked) {s' : LibassRenderer} (hsenders : s'.senders = s.senders)
    (hcs : s'.mCs = s.mCs) (hlocks : s.loader ≠ .locks) (hlocks' : s'.loader ≠ .locks)
    (hkept : ∀ i c, s.senders i = .executes c → c.onCore = true → s'.gLibassCs = .sender i)
    (hcore : ∀ c, s'.loader = .executes c → c.onCore = true → s'.gLibassCs = .loader) :
    s'.Locked := by
  refine ⟨fun i => ?_, ?_, fun i c hi => ?_, hcore⟩
  · rw [hcs, hsenders]
    exact h.owner i
  · rw [hcs]
    exact iff_of_false (fun hown => hlocks (h.locks.mp hown)) hlocks'
  · rw [hsenders] at hi
    exact hkept i c hi

theorem Locked.lock (h : s.Locked) (hfree : s.mCs = .free) :
    Locked { s with mCs := .loader, loader := .locks } := by
  have hout : ∀ j, s.senders j = .outside :=
    h.outside_of_not_sender fun j hj => by rw [hfree] at hj; cases hj
  exact
    { owner := fun i => iff_of_false Owner.noConfusion (not_not.mpr (hout i))
      locks := iff_of_true rfl rfl
      core := h.core
      coreLoader := fun _ hc => nomatch hc }

theorem Locked.unlock (h : s.Locked) (hloader : s.loader = .locks) :
    Locked { s with mCs := .free, loader := .unlocked } := by
  have hown : s.mCs = .loader := h.locks.mpr hloader
  have hout : ∀ j, s.senders j = .outside :=
    h.outside_of_not_sender fun j hj => by rw [hown] at hj; cases hj
  exact
    { owner := fun i => iff_of_false Owner.noConfusion (not_not.mpr (hout i))
      locks := iff_of_false Owner.noConfusion Loader.noConfusion
      core := h.core
      coreLoader := fun _ hc => nomatch hc }

/-- **A step of the loading thread keeps the locks.** -/
theorem Locked.stepLoader (h : s.Locked) : s.stepLoader.Locked := by
  have hlocks : ∀ p, s.loader = p → p ≠ .locks → s.loader ≠ .locks := by
    rintro p rfl hp
    exact hp
  unfold LibassRenderer.stepLoader
  cases hloader : s.loader with
  | starts =>
    dsimp only
    split
    · next hfree => exact h.lock hfree
    · exact h
  | locks => exact h.unlock hloader
  | unlocked =>
    exact h.of_loader rfl rfl (hlocks _ hloader Loader.noConfusion) Loader.noConfusion h.core
      (fun _ hc => nomatch hc)
  | pops =>
    have hnot := hlocks _ hloader Loader.noConfusion
    cases hcommands : s.mCommands with
    | nil =>
      exact h.of_loader rfl rfl hnot Loader.noConfusion h.core (fun _ hc => nomatch hc)
    | cons c commands =>
      exact h.of_loader rfl rfl hnot Loader.noConfusion h.core (fun _ hc => nomatch hc)
  | holds c =>
    dsimp only
    split
    · next hfree =>
      refine h.of_loader rfl rfl (hlocks _ hloader Loader.noConfusion) Loader.noConfusion
        (fun i d hi hcore => ?_) fun d hd hcore => ?_
      · have hown := h.core i d hi hcore
        refine (if_neg fun hc => ?_).trans hown
        rw [coreFree_of_onCore hfree hc] at hown
        cases hown
      · obtain rfl := Loader.executes.inj hd
        exact if_pos hcore
    · exact h
  | executes c =>
    refine h.of_loader rfl rfl (hlocks _ hloader Loader.noConfusion) Loader.noConfusion
      (fun i d hi hcore => ?_) (fun _ hc => nomatch hc)
    have hown := h.core i d hi hcore
    refine (if_neg fun hc => ?_).trans hown
    rw [h.coreLoader c hloader hc] at hown
    cases hown
  | finished => exact h

theorem Locked.step (h : s.Locked) (a : Turn) : (s.step a).Locked := by
  cases a with
  | sender i command => exact h.stepSender i command
  | loader => exact h.stepLoader

/-- **No two commands are on the core at the same time**, whatever the threads' turns are. -/
theorem run_alone (turns : List Turn) : (run step create turns).Alone := by
  have hlocked := run_invariant Locked (fun _ a h => h.step a) turns create locked_create
  exact hlocked.alone

/-! ## The order -/

/-- The call in the critical section that has not passed its command on. -/
def pending (s : LibassRenderer) : List Call :=
  match s.mCs with
  | .sender i => (s.senders i).inFlight
  | _ => []

structure Sound (s : LibassRenderer) : Prop extends s.Locked where
  order : s.executed ++ s.loader.held ++ s.mCommands ++ s.pending = s.sent
  numbered : s.sent.map Call.number = List.range s.sent.length
  executing : ∀ i c, s.senders i = .executes c → s.mCommands = [] ∧ s.loader.held = []
  drained : s.loader = .finished → s.mCommands = []

theorem sound_create : create.Sound where
  toLocked := locked_create
  order := rfl
  numbered := rfl
  executing := fun _ _ h => nomatch h
  drained := fun h => nomatch h

theorem pending_of_owner {i : Nat} (h : s.mCs = .sender i) :
    s.pending = (s.senders i).inFlight := by
  rw [pending, h]

theorem Sound.nodup (h : s.Sound) : s.sent.Nodup := by
  refine List.Nodup.of_map Call.number ?_
  rw [h.numbered]
  exact List.nodup_range

theorem Sound.inOrder (h : s.Sound) : s.InOrder where
  toAlone := h.alone
  inTurn := by
    rw [← h.order, List.append_assoc, List.append_assoc]
    exact List.prefix_append ..
  once := by
    refine h.nodup.sublist ?_
    rw [← h.order, List.append_assoc, List.append_assoc]
    exact List.sublist_append_left ..
  all := by
    intro hfinished c hc
    have hheld : s.loader.held = [] := by rw [hfinished]; rfl
    rw [← h.order, hheld, h.drained hfinished, List.append_nil, List.append_nil,
      List.mem_append] at hc
    rcases hc with hc | hc
    · exact .inl hc
    · unfold pending at hc
      split at hc
      · next i _ => exact .inr ⟨i, hc⟩
      · cases hc

/-! ## The steps -/

/-- A step of the sender inside, to another place inside. -/
theorem Sound.of_sender (h : s.Sound) {s' : LibassRenderer} (hlocked : s'.Locked) {i : Nat}
    {p : Sender} (hi : s.senders i ≠ .outside)
    (hsenders : s'.senders = Function.update s.senders i p) (hcs : s'.mCs = s.mCs)
    (hloader : s'.loader = s.loader) (hsent : s'.sent = s.sent)
    (horder : s'.executed ++ s.loader.held ++ s'.mCommands ++ p.inFlight = s.sent)
    (hexecuting : ∀ c, p = .executes c → s'.mCommands = [] ∧ s.loader.held = [])
    (hdrained : s.loader = .finished → s'.mCommands = []) : s'.Sound := by
  refine ⟨hlocked, ?_, ?_, fun j c hj => ?_, ?_⟩
  · rw [pending_of_owner (hcs.trans ((h.owner i).mpr hi)), hsenders, Function.update_self, hloader,
      hsent]
    exact horder
  · rw [hsent]
    exact h.numbered
  · rw [hsenders] at hj
    rw [hloader]
    by_cases heq : j = i
    · subst heq
      rw [Function.update_self] at hj
      exact hexecuting c hj
    · rw [Function.update_of_ne heq] at hj
      exact absurd (h.eq_of_inside (by rw [hj]; exact Sender.noConfusion) hi) heq
  · rw [hloader]
    exact hdrained

theorem Sound.enter (h : s.Sound) (hfree : s.mCs = .free) (i : Nat) (command : Command) :
    Sound ({ s with
      mCs := .sender i, sent := s.sent ++ [Call.mk s.sent.length command] }.goTo i
        (.entered ⟨s.sent.length, command⟩)) := by
  have hlocked := h.toLocked.enter hfree i command
  have hpending : s.pending = [] := by rw [pending, hfree]
  refine ⟨hlocked, ?_, ?_, fun j c hj => ?_, h.drained⟩
  · have horder := h.order
    rw [hpending, List.append_nil] at horder
    rw [pending_of_owner (i := i) rfl, goTo_self]
    exact congrArg (· ++ [_]) horder
  · have hlast : (s.sent ++ [Call.mk s.sent.length command]).map Call.number =
        List.range (s.sent ++ [Call.mk s.sent.length command]).length := by
      rw [List.map_append, h.numbered, List.length_append]
      exact List.range_succ.symm
    exact hlast
  · have heq : j = i :=
      hlocked.eq_of_inside (by rw [hj]; exact Sender.noConfusion)
        (by rw [goTo_self]; exact Sender.noConfusion)
    rw [heq, goTo_self] at hj
    cases hj

theorem Sound.leave (h : s.Sound) {i : Nat} (hi : s.senders i = .leaves) :
    Sound ({ s with mCs := .free }.goTo i .outside) := by
  have hown : s.mCs = .sender i := (h.owner i).mpr (by rw [hi]; exact Sender.noConfusion)
  refine ⟨h.toLocked.leave hi, ?_, h.numbered, fun j c hj => ?_, h.drained⟩
  · have horder := h.order
    rw [pending_of_owner hown, hi] at horder
    exact horder
  · exact absurd ((h.outside_of_leaves hi j).symm.trans hj) Sender.noConfusion

/-- **A sender's step keeps the invariant** where it is apart from the loading thread. -/
theorem Sound.stepSender (h : s.Sound) (i : Nat) (command : Command)
    (hok : s.Apart (.sender i command)) : (s.stepSender i command).Sound := by
  have hlocked := h.toLocked.stepSender i command
  have hin : ∀ p, s.senders i = p → p ≠ .outside → s.senders i ≠ .outside ∧
      s.executed ++ s.loader.held ++ s.mCommands ++ p.inFlight = s.sent := by
    rintro p rfl hp
    rw [← pending_of_owner ((h.owner i).mpr hp)]
    exact ⟨hp, h.order⟩
  unfold LibassRenderer.stepSender at hlocked ⊢
  cases hi : s.senders i with
  | outside =>
    dsimp only
    split
    · next hfree => exact h.enter hfree i command
    · exact h
  | entered c =>
    obtain ⟨hout, horder⟩ := hin _ hi Sender.noConfusion
    rw [hi] at hlocked
    cases hcore : s.mCore with
    | false =>
      rw [hcore] at hlocked
      exact h.of_sender hlocked hout rfl rfl rfl rfl horder (fun _ hc => nomatch hc) h.drained
    | true =>
      rw [hcore] at hlocked
      exact h.of_sender hlocked hout rfl rfl rfl rfl horder (fun _ hc => nomatch hc) h.drained
  | inserts c =>
    obtain ⟨hout, horder⟩ := hin _ hi Sender.noConfusion
    rw [hi] at hlocked
    simp only [Apart, hi] at hok
    have hqueued : s.executed ++ s.loader.held ++ (s.mCommands ++ [c]) ++ [] = s.sent := by
      rw [List.append_nil, ← List.append_assoc]
      exact horder
    exact h.of_sender hlocked hout rfl rfl rfl rfl hqueued (fun _ hc => nomatch hc)
      (fun hfinished => absurd hfinished hok)
  | calls c =>
    obtain ⟨hout, horder⟩ := hin _ hi Sender.noConfusion
    rw [hi] at hlocked
    simp only [Apart, hi] at hok
    dsimp only at hlocked ⊢
    split
    · next hfree =>
      rw [if_pos hfree] at hlocked
      obtain ⟨hnone, hheld⟩ := hok hfree
      have hpassed : s.executed ++ [c] ++ s.loader.held ++ s.mCommands ++ [] = s.sent := by
        rw [hheld, hnone, List.append_nil, List.append_nil] at horder
        rw [hheld, hnone, List.append_nil, List.append_nil, List.append_nil]
        exact horder
      exact h.of_sender hlocked hout rfl rfl rfl rfl hpassed (fun _ _ => ⟨hnone, hheld⟩) h.drained
    · exact h
  | executes c =>
    obtain ⟨hout, horder⟩ := hin _ hi Sender.noConfusion
    rw [hi] at hlocked
    exact h.of_sender hlocked hout rfl rfl rfl rfl horder (fun _ hc => nomatch hc) h.drained
  | leaves => exact h.leave hi

/-- A step of the loading thread that leaves `m_cs` alone. -/
theorem Sound.of_loader (h : s.Sound) {s' : LibassRenderer} (hlocked : s'.Locked)
    (hsenders : s'.senders = s.senders) (hcs : s'.mCs = s.mCs) (hsent : s'.sent = s.sent)
    (horder : s'.executed ++ s'.loader.held ++ s'.mCommands =
      s.executed ++ s.loader.held ++ s.mCommands)
    (hexecuting : s.mCommands = [] → s.loader.held = [] →
      s'.mCommands = [] ∧ s'.loader.held = [])
    (hdrained : s'.loader = .finished → s'.mCommands = []) : s'.Sound := by
  refine ⟨hlocked, ?_, ?_, fun i c hi => ?_, hdrained⟩
  · have hpending : s'.pending = s.pending := by rw [pending, pending, hcs, hsenders]
    rw [horder, hpending, hsent]
    exact h.order
  · rw [hsent]
    exact h.numbered
  · rw [hsenders] at hi
    obtain ⟨hnone, hheld⟩ := h.executing i c hi
    exact hexecuting hnone hheld

theorem Sound.lock (h : s.Sound) (hfree : s.mCs = .free) (hloader : s.loader = .starts) :
    Sound { s with mCs := .loader, loader := .locks } := by
  have horder := h.order
  rw [hloader, pending, hfree] at horder
  exact
    { toLocked := h.toLocked.lock hfree
      order := horder
      numbered := h.numbered
      executing := fun i c hi => ⟨(h.executing i c hi).1, rfl⟩
      drained := fun hc => nomatch hc }

theorem Sound.unlock (h : s.Sound) (hloader : s.loader = .locks) :
    Sound { s with mCs := .free, loader := .unlocked } := by
  have hown : s.mCs = .loader := h.locks.mpr hloader
  have horder := h.order
  rw [hloader, pending, hown] at horder
  exact
    { toLocked := h.toLocked.unlock hloader
      order := horder
      numbered := h.numbered
      executing := fun i c hi => ⟨(h.executing i c hi).1, rfl⟩
      drained := fun hc => nomatch hc }

/-- **A step of the loading thread keeps the invariant.** -/
theorem Sound.stepLoader (h : s.Sound) : s.stepLoader.Sound := by
  have hlocked := h.toLocked.stepLoader
  unfold LibassRenderer.stepLoader at hlocked ⊢
  cases hloader : s.loader with
  | starts =>
    dsimp only
    split
    · next hfree => exact h.lock hfree hloader
    · exact h
  | locks => exact h.unlock hloader
  | unlocked =>
    rw [hloader] at hlocked
    have horder : s.executed ++ Loader.pops.held ++ s.mCommands =
        s.executed ++ s.loader.held ++ s.mCommands := by rw [hloader]; rfl
    exact h.of_loader hlocked rfl rfl rfl horder (fun hnone _ => ⟨hnone, rfl⟩)
      (fun hc => nomatch hc)
  | pops =>
    rw [hloader] at hlocked
    cases hcommands : s.mCommands with
    | nil =>
      rw [hcommands] at hlocked
      have horder : s.executed ++ Loader.finished.held ++ [] =
          s.executed ++ s.loader.held ++ s.mCommands := by rw [hloader, hcommands]; rfl
      exact h.of_loader hlocked rfl rfl rfl horder (fun _ _ => ⟨rfl, rfl⟩) (fun _ => rfl)
    | cons c commands =>
      rw [hcommands] at hlocked
      have horder : s.executed ++ [c] ++ commands =
          s.executed ++ s.loader.held ++ s.mCommands := by
        have hheld : s.loader.held = [] := by rw [hloader]; rfl
        rw [hheld, hcommands, List.append_nil, List.append_assoc]
        rfl
      exact h.of_loader hlocked rfl rfl rfl horder
        (fun hnone _ => absurd (hcommands.symm.trans hnone) (List.cons_ne_nil c commands))
        (fun hc => nomatch hc)
  | holds c =>
    rw [hloader] at hlocked
    dsimp only at hlocked ⊢
    split
    · next hfree =>
      rw [if_pos hfree] at hlocked
      have horder : s.executed ++ [c] ++ (Loader.executes c).held ++ s.mCommands =
          s.executed ++ s.loader.held ++ s.mCommands := by
        rw [hloader]
        exact congrArg (· ++ s.mCommands) (List.append_nil _)
      exact h.of_loader hlocked rfl rfl rfl horder (fun hnone _ => ⟨hnone, rfl⟩)
        (fun hc => nomatch hc)
    · exact h
  | executes c =>
    rw [hloader] at hlocked
    have horder : s.executed ++ Loader.pops.held ++ s.mCommands =
        s.executed ++ s.loader.held ++ s.mCommands := by rw [hloader]; rfl
    exact h.of_loader hlocked rfl rfl rfl horder (fun hnone _ => ⟨hnone, rfl⟩)
      (fun hc => nomatch hc)
  | finished => exact h

theorem Sound.step (h : s.Sound) {a : Turn} (hok : s.Apart a) : (s.step a).Sound := by
  cases a with
  | sender i command => exact h.stepSender i command hok
  | loader => exact h.stepLoader

/-! ## Where the order is lost -/

/-- A command that is executed in front of another one is out of turn. -/
theorem not_prefix_of_overtaken {executed rest sent : List Call} {c d : Call}
    (hnodup : sent.Nodup) (hsent : executed ++ d :: rest ++ [c] = sent) :
    ¬ executed ++ [c] <+: sent := by
  rintro ⟨tail, htail⟩
  rw [← hsent, List.append_assoc, List.append_assoc] at htail
  have heq := List.append_cancel_left htail
  obtain rfl : c = d := (List.cons.inj heq).1
  rw [← hsent, List.append_assoc] at hnodup
  have := (List.nodup_append.mp hnodup).2.1
  rw [List.cons_append, List.nodup_cons] at this
  exact this.1 (List.mem_append_right _ (List.mem_singleton.mpr rfl))

/-- A sender that executes its command in order finds nothing in front of it. -/
theorem Sound.apart_of_calls (h : s.Sound) {i : Nat} {c : Call} (hi : s.senders i = .calls c)
    (hafter : ((s.enterCore (.sender i) c).goTo i (.executes c)).InOrder) :
    s.mCommands = [] ∧ s.loader.held = [] := by
  have hown : s.mCs = .sender i := (h.owner i).mpr (by rw [hi]; exact Sender.noConfusion)
  have horder := h.order
  rw [pending_of_owner hown, hi] at horder
  have hfront : ∀ d rest, s.loader.held ++ s.mCommands ≠ d :: rest := by
    intro d rest heq
    rw [List.append_assoc s.executed, heq] at horder
    exact not_prefix_of_overtaken h.nodup horder hafter.inTurn
  have hempty : s.loader.held ++ s.mCommands = [] := by
    cases hrest : s.loader.held ++ s.mCommands with
    | nil => rfl
    | cons d rest => exact absurd hrest (hfront d rest)
  exact (List.append_eq_nil_iff.mp hempty).symm

/-- A sender that inserts its command in order finds the loading thread at work. -/
theorem Sound.apart_of_inserts (h : s.Sound) {i : Nat} {c : Call} (hi : s.senders i = .inserts c)
    (hafter : ({ s with mCommands := s.mCommands ++ [c] }.goTo i .leaves).InOrder) :
    s.loader ≠ .finished := by
  intro hfinished
  have hin : s.senders i ≠ .outside := by rw [hi]; exact Sender.noConfusion
  have horder := h.order
  rw [pending_of_owner ((h.owner i).mpr hin), hi, hfinished, h.drained hfinished] at horder
  have hsent : s.executed ++ [c] = s.sent := by
    have hheld : Loader.finished.held = [] := rfl
    rw [← horder, hheld, List.append_nil, List.append_nil]
    rfl
  have hmem : c ∈ s.sent := by
    rw [← hsent]
    exact List.mem_append_right _ (List.mem_singleton.mpr rfl)
  rcases hafter.all hfinished c hmem with hexecuted | ⟨j, hj⟩
  · have hnodup := h.nodup
    rw [← hsent, List.nodup_append] at hnodup
    exact hnodup.2.2 c hexecuted c (List.mem_singleton.mpr rfl) rfl
  · by_cases heq : j = i
    · subst heq
      rw [goTo_self] at hj
      cases hj
    · rw [goTo_of_ne _ _ heq] at hj
      have hjout : s.senders j = .outside := by
        by_contra hjin
        exact heq (h.eq_of_inside hjin hin)
      dsimp only at hj
      rw [hjout] at hj
      cases hj

/-- **A step that keeps the order is apart.** -/
theorem Sound.apart_of_inOrder (h : s.Sound) {a : Turn} (hafter : (s.step a).InOrder) :
    s.Apart a := by
  cases a with
  | loader => exact trivial
  | sender i command =>
    cases hi : s.senders i with
    | calls c =>
      simp only [LibassRenderer.step, LibassRenderer.stepSender, hi] at hafter
      simp only [Apart, hi]
      intro hfree
      rw [if_pos hfree] at hafter
      exact h.apart_of_calls hi hafter
    | inserts c =>
      simp only [LibassRenderer.step, LibassRenderer.stepSender, hi] at hafter
      simp only [Apart, hi]
      exact h.apart_of_inserts hi hafter
    | _ => simp only [Apart, hi]

/-- **The commands are executed in order**, whatever the threads' turns are, if and only if
no sender passes on its command before its time. -/
theorem inOrder_iff : ∀ turns : List Turn,
    (∀ k, (run step create (turns.take k)).InOrder) ↔ Along step Apart create turns := by
  intro turns
  exact forall_take_iff_along_of Sound (fun _ h => h.inOrder) (fun _ _ h hok => h.step hok)
    (fun _ _ h hafter => h.apart_of_inOrder hafter) turns create sound_create

/-- A sender's next `n` steps. -/
def sends (i : Nat) (command : Command) (n : Nat) : List Turn :=
  List.replicate n (.sender i command)

/-- The loading thread's next `n` steps. -/
def loads (n : Nat) : List Turn := List.replicate n .loader

/-- A command is in the queue when `m_core` is set, and another one is sent. -/
def overtaking : LibassRenderer :=
  run step create (sends 0 ⟨.adddata, [1]⟩ 4 ++ loads 3 ++ sends 1 ⟨.reset, []⟩ 3)

/-- A sender finds `m_core` not set and inserts its command when the queue has been emptied. -/
def lost : LibassRenderer :=
  run step create (loads 2 ++ sends 0 ⟨.adddata, [1]⟩ 2 ++ loads 2 ++ sends 0 ⟨.adddata, [1]⟩ 2)

/-- **The commands get out of order**: one overtakes another, and one is never executed. -/
theorem commands_out_of_order :
    (¬ overtaking.InOrder ∧ overtaking.executed.map (·.command) = [⟨.reset, []⟩] ∧
      overtaking.sent.map (·.command) = [⟨.adddata, [1]⟩, ⟨.reset, []⟩]) ∧
    ¬ lost.InOrder ∧ lost.loader = .finished ∧ lost.mCs = .free ∧ lost.executed = [] ∧
      lost.sent = [⟨0, ⟨.adddata, [1]⟩⟩] := by
  refine ⟨⟨fun h => ?_, by decide, by decide⟩, fun h => ?_, by decide, by decide, by decide,
    by decide⟩
  · exact absurd h.inTurn (by decide)
  · rcases h.all (by decide) ⟨0, ⟨.adddata, [1]⟩⟩ (by decide) with hexecuted | ⟨i, hi⟩
    · exact absurd hexecuted (by decide)
    · have hout : lost.senders i = .outside := by
        cases i with
        | zero => rfl
        | succ i => rfl
      rw [hout] at hi
      cases hi

end LibassRenderer

end DWindow.Libass
