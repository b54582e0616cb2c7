import DWindow.Cache.Config
import DWindow.Cache.Disjoint
import DWindow.Cache.Get

/-!
# Calls on an open cache

What happens to an `inet_file` after `setURL`: the workers' calls of `feed` and the
readers' calls of `get`, which the workers feed while it waits.  A property of the cache
that feeds and a new access time keep, calls keep (`callStep_keeps`).
-/

namespace DWindow.Cache

open Runs

/-- A call of `feed`, or one of `get` with what the workers feed before each of its
rounds and whether it has been cancelled by then. -/
inductive Call
  | feed (c : FeedCall)
  | get (pos : Fragment) (work : List (List FeedCall × Bool)) (now : Int)

namespace Call

def feeds : Call → List FeedCall
  | feed c => [c]
  | get _ work _ => work.flatMap Prod.fst

/-- What the rounds of a `get` find. -/
def rounds (s : InetFile) : List (List FeedCall × Bool) → List Round
  | [] => []
  | w :: work => ⟨run feedStep s w.1, w.2⟩ :: rounds (run feedStep s w.1) work

end Call

/-- The cache after a call; a `get` whose rounds are used up still waits. -/
def callStep (s : InetFile) : Call → InetFile
  | .feed c => feedStep s c
  | .get pos work now =>
    match s.get (Call.rounds s work) now pos with
    | some r => r.file
    | none => run feedStep s (work.flatMap Prod.fst)

/-- A block as a worker hands it over: not empty, inside the positions of a file, with a
length that fits an `int`, and all its bytes in the buffer. -/
structure FeedCall.Promised (c : FeedCall) : Prop where
  nonneg : 0 ≤ c.pos.start
  lt : c.pos.start < c.pos.stop
  stop_lt : c.pos.stop < 2 ^ 63
  short : c.pos.stop - c.pos.start < 2 ^ 31
  length_eq : (c.buf.length : Int) = c.pos.stop - c.pos.start

instance (c : FeedCall) : Decidable c.Promised :=
  decidable_of_iff (0 ≤ c.pos.start ∧ c.pos.start < c.pos.stop ∧ c.pos.stop < 2 ^ 63 ∧
      c.pos.stop - c.pos.start < 2 ^ 31 ∧ (c.buf.length : Int) = c.pos.stop - c.pos.start)
    ⟨fun ⟨h₁, h₂, h₃, h₄, h₅⟩ => ⟨h₁, h₂, h₃, h₄, h₅⟩,
      fun h => ⟨h.nonneg, h.lt, h.stop_lt, h.short, h.length_eq⟩⟩

/-- `feed` opens a new fragment for what is left of the block. -/
def Opens (s : InetFile) (pos : Fragment) : Prop :=
  (piece s.mFragments pos).start < (piece s.mFragments pos).stop ∧
    ∀ f ∈ s.mFragments, f.mPos ≠ (piece s.mFragments pos).start

instance (s : InetFile) (pos : Fragment) : Decidable (Opens s pos) :=
  inferInstanceAs (Decidable (_ ∧ _))

/-- The name of a fragment that `feed` opens has room in its buffer. -/
def NameOk (s : InetFile) (c : FeedCall) : Prop :=
  Opens s c.pos → NameFits s.mConfigFile s.mFragments.length

instance (s : InetFile) (c : FeedCall) : Decidable (NameOk s c) :=
  inferInstanceAs (Decidable (_ → _))

/-! ## What calls keep -/

/-- The files that the rounds of a `get` find are those that the feeds lead to. -/
theorem rounds_forall {ok : InetFile → FeedCall → Prop} {P : InetFile → Prop}
    (hstep : ∀ s c, P s → ok s c → P (feedStep s c)) : ∀ (work : List (List FeedCall × Bool))
    (s : InetFile), P s → Along feedStep ok s (work.flatMap Prod.fst) →
    ∀ r ∈ Call.rounds s work, P r.file := by
  intro work
  induction work with
  | nil => intro s _ _ r hr; exact absurd hr List.not_mem_nil
  | cons w work ih =>
    intro s hs hok r hr
    rw [List.flatMap_cons, along_append] at hok
    have hw : P (run feedStep s w.1) := along_run P hstep w.1 s hs hok.1
    rcases List.mem_cons.mp hr with rfl | hr
    · exact hw
    · exact ih _ hw hok.2 r hr

theorem getLoop_forall {P : InetFile → Prop} {pos : Fragment} : ∀ (rounds : List Round)
    (pending : List Fragment) (buf : Buffer) (cur : InetFile), P cur → (∀ r ∈ rounds, P r.file) →
    ∀ done buf' last, InetFile.getLoop pos rounds pending buf cur = some (done, buf', last) →
    P last := by
  intro rounds
  induction rounds with
  | nil =>
    intro pending buf cur hcur _ done buf' last h
    cases pending with
    | nil =>
      simp only [InetFile.getLoop, Option.some.injEq, Prod.mk.injEq] at h
      exact h.2.2 ▸ hcur
    | cons frag rest => exact absurd h (by simp [InetFile.getLoop])
  | cons r rounds ih =>
    intro pending buf cur hcur hall done buf' last h
    have hr := hall r (List.mem_cons_self ..)
    have hrest := fun q hq => hall q (List.mem_cons_of_mem _ hq)
    cases pending with
    | nil =>
      simp only [InetFile.getLoop, Option.some.injEq, Prod.mk.injEq] at h
      exact h.2.2 ▸ hcur
    | cons frag rest =>
      rw [InetFile.getLoop] at h
      split at h
      · exact ih _ _ _ hr hrest _ _ _ h
      · split at h
        · simp only [Option.some.injEq, Prod.mk.injEq] at h
          exact h.2.2 ▸ hr
        · exact ih _ _ _ hr hrest _ _ _ h

/-- **What feeds and a new access time keep, a call keeps.** -/
theorem callStep_keeps {ok : InetFile → FeedCall → Prop} {P : InetFile → Prop}
    (hstep : ∀ s c, P s → ok s c → P (feedStep s c)) (htouch : ∀ s now, P s → P (s.touch now))
    {s : InetFile} (hs : P s) {a : Call} (hok : Along feedStep ok s a.feeds) :
    P (callStep s a) := by
  cases a with
  | feed c => exact hstep s c hs hok.1
  | get pos work now =>
    have hrounds := rounds_forall hstep work s hs hok
    rw [callStep]
    cases hget : s.get (Call.rounds s work) now pos with
    | none => exact along_run P hstep _ s hs hok
    | some r =>
      unfold InetFile.get at hget
      split at hget
      · rw [Option.some.injEq] at hget
        exact hget ▸ hs
      · dsimp only at hget
        split at hget
        · rw [Option.some.injEq] at hget
          exact hget ▸ hs
        · split at hget
          · exact absurd hget (by simp)
          · next hloop =>
            rw [Option.some.injEq] at hget
            exact hget ▸ getLoop_forall _ _ _ _ hs hrounds _ _ _ hloop
          · next hloop =>
            rw [Option.some.injEq] at hget
            exact hget ▸ htouch _ _ (getLoop_forall _ _ _ _ hs hrounds _ _ _ hloop)

end DWindow.Cache
