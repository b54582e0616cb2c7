import Mathlib.Data.List.Basic

/-!
# Runs of a step function

A system that takes one input at a time is a step `σ → α → σ`, and a run of it
is the fold of that step over a list of inputs.  `Along ok s l` says that every
input of `l` meets `ok` in the state it finds, and `along_run` is the induction
that every whole-run result is an instance of: what one step keeps under `ok`,
a run whose inputs all meet `ok` keeps as well.  Every state such a run goes
through is the end of a prefix of it, and `along_take` says a prefix meets `ok`
too, so an invariant of the last state is one of every state reached.
-/

namespace Runs

variable {σ α : Type*} (step : σ → α → σ)

def run (s : σ) (l : List α) : σ := l.foldl step s

@[simp] theorem run_nil (s : σ) : run step s [] = s := rfl

@[simp] theorem run_cons (s : σ) (a : α) (l : List α) :
    run step s (a :: l) = run step (step s a) l := rfl

theorem run_append (s : σ) (l₁ l₂ : List α) :
    run step s (l₁ ++ l₂) = run step (run step s l₁) l₂ := List.foldl_append

/-- Every input of the run meets `ok` in the state it finds. -/
def Along (ok : σ → α → Prop) : σ → List α → Prop
  | _, [] => True
  | s, a :: l => ok s a ∧ Along ok (step s a) l

instance decidableAlong (ok : σ → α → Prop) [∀ s a, Decidable (ok s a)] :
    ∀ (s : σ) (l : List α), Decidable (Along step ok s l)
  | _, [] => isTrue trivial
  | s, a :: l =>
    haveI := decidableAlong ok (step s a) l
    inferInstanceAs (Decidable (ok s a ∧ Along step ok (step s a) l))

variable {step}

@[simp] theorem along_nil (ok : σ → α → Prop) (s : σ) : Along step ok s [] := trivial

@[simp] theorem along_cons (ok : σ → α → Prop) (s : σ) (a : α) (l : List α) :
    Along step ok s (a :: l) ↔ ok s a ∧ Along step ok (step s a) l := Iff.rfl

theorem along_append {ok : σ → α → Prop} : ∀ (l₁ : List α) (s : σ) (l₂ : List α),
    Along step ok s (l₁ ++ l₂) ↔ Along step ok s l₁ ∧ Along step ok (run step s l₁) l₂ := by
  intro l₁
  induction l₁ with
  | nil => intro s l₂; simp
  | cons a r ih =>
    intro s l₂
    rw [List.cons_append, along_cons, along_cons, run_cons, ih, and_assoc]

theorem along_congr {p q : σ → α → Prop} (h : ∀ s a, p s a ↔ q s a) : ∀ (l : List α) (s : σ),
    Along step p s l ↔ Along step q s l := by
  intro l
  induction l with
  | nil => intro s; exact Iff.rfl
  | cons a r ih => intro s; rw [along_cons, along_cons, h, ih]

theorem along_take {ok : σ → α → Prop} {s : σ} {l : List α} (h : Along step ok s l) (n : Nat) :
    Along step ok s (l.take n) := by
  rw [← List.take_append_drop n l, along_append] at h
  exact h.1

/-- What holds of every input by itself holds along the run. -/
theorem along_of_forall {P : α → Prop} : ∀ (l : List α) (s : σ), (∀ a ∈ l, P a) →
    Along step (fun _ a => P a) s l := by
  intro l
  induction l with
  | nil => intro s _; exact trivial
  | cons a r ih =>
    intro s hP
    exact ⟨hP a (List.mem_cons_self ..),
      ih (step s a) (fun b hb => hP b (List.mem_cons_of_mem _ hb))⟩

/-- What holds of every input by itself may be added to `ok`. -/
theorem along_and_forall {ok : σ → α → Prop} {P : α → Prop} : ∀ (l : List α) (s : σ),
    Along step ok s l → (∀ a ∈ l, P a) → Along step (fun s a => ok s a ∧ P a) s l := by
  intro l
  induction l with
  | nil => intro s _ _; exact trivial
  | cons a r ih =>
    intro s hl hP
    exact ⟨⟨hl.1, hP a (List.mem_cons_self ..)⟩,
      ih (step s a) hl.2 (fun b hb => hP b (List.mem_cons_of_mem _ hb))⟩

/-- **What a step keeps under `ok`, a run keeps.** -/
theorem along_run {ok : σ → α → Prop} (inv : σ → Prop)
    (hstep : ∀ s a, inv s → ok s a → inv (step s a)) :
    ∀ (l : List α) (s : σ), inv s → Along step ok s l → inv (run step s l) := by
  intro l
  induction l with
  | nil => intro s hs _; exact hs
  | cons a r ih =>
    intro s hs hl
    exact ih (step s a) (hstep s a hs hl.1) hl.2

/-- **What an invariant gives of each input**, it gives all along a run. -/
theorem along_of_invariant {ok prop : σ → α → Prop} (inv : σ → Prop)
    (hstep : ∀ s a, inv s → ok s a → inv (step s a))
    (hprop : ∀ s a, inv s → ok s a → prop s a) :
    ∀ (l : List α) (s : σ), inv s → Along step ok s l → Along step prop s l := by
  intro l
  induction l with
  | nil => intro s _ _; exact trivial
  | cons a r ih =>
    intro s hs hl
    exact ⟨hprop s a hs hl.1, ih (step s a) (hstep s a hs hl.1) hl.2⟩

/-- **A run that uses up a budget ends.** -/
theorem along_length_le {ok : σ → α → Prop} (inv : σ → Prop) (budget : σ → Int)
    (hstep : ∀ s a, inv s → ok s a → inv (step s a))
    (hless : ∀ s a, inv s → ok s a → budget (step s a) < budget s) :
    ∀ (l : List α) (s : σ), inv s → Along step ok s l →
      (l.length : Int) + budget (run step s l) ≤ budget s := by
  intro l
  induction l with
  | nil => intro s _ _; simp
  | cons a r ih =>
    intro s hs hl
    have hrest := ih (step s a) (hstep s a hs hl.1) hl.2
    have hfirst := hless s a hs hl.1
    rw [run_cons, List.length_cons]
    push_cast
    omega

/-- **Where runs have a greatest length, one of them goes as far as it can.** -/
theorem exists_along_end {ok : σ → α → Prop} (inv stopped : σ → Prop)
    (hstep : ∀ s, inv s → stopped s ∨ ∃ a, ok s a ∧ inv (step s a)) {n : Nat} {s : σ}
    (hs : inv s) (hbound : ∀ l, Along step ok s l → l.length ≤ n) :
    ∃ l, Along step ok s l ∧ inv (run step s l) ∧ stopped (run step s l) := by
  by_contra hnone
  have hlong : ∀ k, ∃ l, Along step ok s l ∧ inv (run step s l) ∧ l.length = k := by
    intro k
    induction k with
    | zero => exact ⟨[], trivial, hs, rfl⟩
    | succ k ih =>
      obtain ⟨l, hl, hinv, hlen⟩ := ih
      obtain hstop | ⟨a, ha, hnext⟩ := hstep _ hinv
      · exact (hnone ⟨l, hl, hinv, hstop⟩).elim
      · refine ⟨l ++ [a], (along_append l s [a]).mpr ⟨hl, ha, trivial⟩, ?_, ?_⟩
        · rw [run_append]
          exact hnext
        · rw [List.length_append, hlen]
          rfl
  obtain ⟨l, hl, -, hlen⟩ := hlong (n + 1)
  have := hbound l hl
  omega

/-- What every step keeps, a run keeps. -/
theorem run_invariant (inv : σ → Prop) (hstep : ∀ s a, inv s → inv (step s a)) :
    ∀ (l : List α) (s : σ), inv s → inv (run step s l) := by
  intro l
  induction l with
  | nil => intro s hs; exact hs
  | cons a r ih => intro s hs; exact ih (step s a) (hstep s a hs)

/-- **What holds all along a run, exactly.**  `P` holds in every state of a run if and only
if all its inputs meet `ok`, when an invariant gives `P`, a step under `ok` keeps the
invariant and a step that leaves `P` true was one under `ok`. -/
theorem forall_take_iff_along_of {ok : σ → α → Prop} {P : σ → Prop} (inv : σ → Prop)
    (hP : ∀ s, inv s → P s) (hstep : ∀ s a, inv s → ok s a → inv (step s a))
    (hok : ∀ s a, inv s → P (step s a) → ok s a) : ∀ (l : List α) (s : σ), inv s →
    ((∀ k, P (run step s (l.take k))) ↔ Along step ok s l) := by
  intro l
  induction l with
  | nil => intro s hs; simpa using hP s hs
  | cons a r ih =>
    intro s hs
    rw [along_cons]
    constructor
    · intro h
      have hoks : ok s a := hok s a hs (by simpa using h 1)
      exact ⟨hoks, (ih _ (hstep s a hs hoks)).mp fun k => by simpa using h (k + 1)⟩
    · rintro ⟨hoks, hr⟩ k
      cases k with
      | zero => exact hP s hs
      | succ k => simpa using (ih _ (hstep s a hs hoks)).mpr hr k

/-- **A run stays inside exactly under `ok`** when a step does. -/
theorem forall_take_iff_along {ok : σ → α → Prop} (inv : σ → Prop)
    (hstep : ∀ s a, inv s → (inv (step s a) ↔ ok s a)) : ∀ (l : List α) (s : σ), inv s →
    ((∀ k, inv (run step s (l.take k))) ↔ Along step ok s l) :=
  forall_take_iff_along_of inv (fun _ hs => hs) (fun s a hs => (hstep s a hs).mpr)
    (fun s a hs => (hstep s a hs).mp)

end Runs
