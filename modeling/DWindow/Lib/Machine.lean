import DWindow.Lib.Runs

/-!
# Machines that reply

A machine answers each input while it steps, `σ → α → σ × β`.  `replies` is what
it says over a list of inputs and `after` the state it ends in.  `simulates` is
the way to compare two of them: a relation between their states that a step
keeps, and under which they give the same answer, makes every run of one look
like the run of the other.  The inputs need only be good ones for the second.
-/

namespace Machine

open Runs

variable {σ τ α β : Type*}

def after (step : σ → α → σ × β) : σ → List α → σ := run (fun s a => (step s a).1)

def replies (step : σ → α → σ × β) : σ → List α → List β
  | _, [] => []
  | s, a :: l => (step s a).2 :: replies step (step s a).1 l

/-- **Related machines cannot be told apart.** -/
theorem simulates {stepS : σ → α → σ × β} {stepT : τ → α → τ × β} {R : σ → τ → Prop}
    {ok : τ → α → Prop}
    (hstep : ∀ s t a, R s t → ok t a →
      (stepS s a).2 = (stepT t a).2 ∧ R (stepS s a).1 (stepT t a).1) :
    ∀ (l : List α) (s : σ) (t : τ), R s t → Along (fun t a => (stepT t a).1) ok t l →
      replies stepS s l = replies stepT t l ∧ R (after stepS s l) (after stepT t l) := by
  intro l
  induction l with
  | nil => intro s t h _; exact ⟨rfl, h⟩
  | cons a l ih =>
    intro s t h hl
    obtain ⟨hreply, hR⟩ := hstep s t a h hl.1
    obtain ⟨hreplies, hend⟩ := ih _ _ hR hl.2
    exact ⟨by rw [replies, replies, hreply, hreplies], hend⟩

end Machine
