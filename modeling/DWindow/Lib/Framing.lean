import DWindow.Lib.Runs

/-!
# Taking frames off a stream

A parser that is fed pieces of a stream looks at the front of what it has not
used up and either waits or takes some items off, and its state moves on or it
fails.  `Framer` is such a look, with the two laws that make it a parser of
streams: it takes at least one item and no more than there are, and a verdict
once given stands when more items follow.

`consume` takes frames off as long as there are any.  `consume_append` is the
law of such parsers: to consume a stream is to consume the front of it, then the
rest behind what the front left over.  `consume_run` says so for any number of
pieces, and for any machine that keeps the pending items in its own way.
-/

namespace Framing

open Runs

/-- A look at the pending items: wait, or the number of items to take off and the
next state, `none` for a failure. -/
structure Framer (σ α : Type*) where
  front : σ → List α → Option (Nat × Option σ)
  pos_le : ∀ {s : σ} {l : List α} {n : Nat} {r : Option σ},
    front s l = some (n, r) → 0 < n ∧ n ≤ l.length
  stands : ∀ {s : σ} {l : List α} {n : Nat} {r : Option σ},
    front s l = some (n, r) → ∀ t : List α, front s (l ++ t) = some (n, r)

variable {σ α : Type*} (f : Framer σ α)

def consume (s : σ) (l : List α) : Option (σ × List α) :=
  match _h : f.front s l with
  | none => some (s, l)
  | some (_, none) => none
  | some (n, some s') => consume s' (l.drop n)
termination_by l.length
decreasing_by
  have := f.pos_le _h
  rw [List.length_drop]
  omega

variable {f}

theorem consume_wait {s : σ} {l : List α} (h : f.front s l = none) :
    consume f s l = some (s, l) := by
  rw [consume]
  split
  · rfl
  · next hf => rw [h] at hf; exact absurd hf (by simp)
  · next hf => rw [h] at hf; exact absurd hf (by simp)

theorem consume_fail {s : σ} {l : List α} {n : Nat} (h : f.front s l = some (n, none)) :
    consume f s l = none := by
  rw [consume]
  split
  · next hf => rw [h] at hf; exact absurd hf (by simp)
  · rfl
  · next hf => rw [h] at hf; exact absurd hf (by simp)

theorem consume_take {s s' : σ} {l : List α} {n : Nat} (h : f.front s l = some (n, some s')) :
    consume f s l = consume f s' (l.drop n) := by
  rw [consume]
  split
  · next hf => rw [h] at hf; exact absurd hf (by simp)
  · next hf => rw [h] at hf; exact absurd hf (by simp)
  · next hf =>
    rw [h, Option.some.injEq, Prod.mk.injEq, Option.some.injEq] at hf
    rw [hf.1, hf.2]

/-- **The front first, then the rest.** -/
theorem consume_append (s : σ) (l t : List α) :
    consume f s (l ++ t) = (consume f s l).bind (fun r => consume f r.1 (r.2 ++ t)) := by
  induction s, l using consume.induct f with
  | case1 s l h => rw [consume_wait h, Option.bind_some]
  | case2 s l n h => rw [consume_fail h, consume_fail (f.stands h t), Option.bind_none]
  | case3 s l n s' h ih =>
    rw [consume_take h, consume_take (f.stands h t),
      List.drop_append_of_le_length (f.pos_le h).2, ih]

theorem front_of_consume {s s' : σ} {l r : List α} (h : consume f s l = some (s', r)) :
    f.front s' r = none := by
  induction s, l using consume.induct f with
  | case1 s l hf =>
    rw [consume_wait hf, Option.some.injEq, Prod.mk.injEq] at h
    rw [← h.1, ← h.2, hf]
  | case2 s l n hf =>
    rw [consume_fail hf] at h
    exact absurd h (by simp)
  | case3 s l n s₁ hf ih =>
    rw [consume_take hf] at h
    exact ih h

/-! ## Machines that keep the pending items -/

section Machine

variable {τ : Type*} {feed : τ → List α → Option τ} {view : τ → σ × List α}
variable {fits : τ → List α → Prop}

/-- Feeds a piece, unless an earlier one failed. -/
def deliver (feed : τ → List α → Option τ) (c : Option τ) (piece : List α) : Option τ :=
  c.bind (fun c => feed c piece)

def Fits (fits : τ → List α → Prop) (c : Option τ) (piece : List α) : Prop :=
  ∀ c', c = some c' → fits c' piece

theorem run_deliver_none : ∀ pieces : List (List α), run (deliver feed) none pieces = none := by
  intro pieces
  induction pieces with
  | nil => rfl
  | cons piece pieces ih => exact ih

/-- **Only the stream matters**, not the pieces it comes in. -/
theorem consume_run (hfeed : ∀ c piece, fits c piece →
    (feed c piece).map view = consume f (view c).1 ((view c).2 ++ piece)) :
    ∀ (pieces : List (List α)) (c : τ), f.front (view c).1 (view c).2 = none →
      Along (deliver feed) (Fits fits) (some c) pieces →
      (run (deliver feed) (some c) pieces).map view =
        consume f (view c).1 ((view c).2 ++ pieces.flatten) := by
  intro pieces
  induction pieces with
  | nil =>
    intro c hc _
    rw [run_nil, List.flatten_nil, List.append_nil, consume_wait hc]
    rfl
  | cons piece pieces ih =>
    intro c hc hfits
    have hpiece := hfeed c piece (hfits.1 c rfl)
    have hrest : Along (deliver feed) (Fits fits) (feed c piece) pieces := hfits.2
    rw [run_cons, List.flatten_cons, ← List.append_assoc, consume_append, ← hpiece]
    show (run (deliver feed) (feed c piece) pieces).map view = _
    cases hnext : feed c piece with
    | none => rw [run_deliver_none]; rfl
    | some c' =>
      rw [hnext] at hpiece hrest
      exact ih c' (front_of_consume hpiece.symm) hrest

end Machine

end Framing
