import Mathlib.Data.List.Basic
import Mathlib.Data.List.Range

/-!
# Computations that look into a memory

A function that gets a pointer may look anywhere.  Written as a `Looking` it says where: it is
done with a value, or it looks at a place and goes on with what stands there.  Over a memory it
has a `value` and the `places` it looked at, and both depend on no other place (`value_congr`,
`places_congr`).
-/

/-- A computation that ends in an `α` and looks at entries `β` of a memory before. -/
inductive Looking (β α : Type)
  | done (a : α)
  | look (p : Nat) (next : β → Looking β α)

namespace Looking

variable {β α γ : Type}

def bind : Looking β α → (α → Looking β γ) → Looking β γ
  | done a, f => f a
  | look p next, f => look p (fun b => (next b).bind f)

instance : Monad (Looking β) where
  pure := done
  bind := bind

def peek (p : Nat) : Looking β β := look p done

/-- Look at `n` places from `p` on. -/
def block (p : Nat) : Nat → Looking β (List β)
  | 0 => pure []
  | n + 1 => do
    let b ← peek p
    let bs ← block (p + 1) n
    pure (b :: bs)

/-- What it ends in. -/
def value (mem : Nat → β) : Looking β α → α
  | done a => a
  | look p next => (next (mem p)).value mem

/-- Where it looks, in order. -/
def places (mem : Nat → β) : Looking β α → List Nat
  | done _ => []
  | look p next => p :: (next (mem p)).places mem

section Memory

variable (mem : Nat → β)

@[simp] theorem value_pure (a : α) : (pure a : Looking β α).value mem = a := rfl

@[simp] theorem places_pure (a : α) : (pure a : Looking β α).places mem = [] := rfl

@[simp] theorem value_peek (p : Nat) : (peek p).value mem = mem p := rfl

@[simp] theorem places_peek (p : Nat) : (peek p).places mem = [p] := rfl

@[simp] theorem value_bind (t : Looking β α) (f : α → Looking β γ) :
    (t >>= f).value mem = (f (t.value mem)).value mem := by
  induction t with
  | done a => rfl
  | look p next ih => exact ih (mem p)

@[simp] theorem places_bind (t : Looking β α) (f : α → Looking β γ) :
    (t >>= f).places mem = t.places mem ++ (f (t.value mem)).places mem := by
  induction t with
  | done a => rfl
  | look p next ih => exact congrArg (p :: ·) (ih (mem p))

@[simp] theorem value_ite {c : Prop} [Decidable c] (t u : Looking β α) :
    (if c then t else u).value mem = if c then t.value mem else u.value mem := by
  split <;> rfl

@[simp] theorem places_ite {c : Prop} [Decidable c] (t u : Looking β α) :
    (if c then t else u).places mem = if c then t.places mem else u.places mem := by
  split <;> rfl

@[simp] theorem value_block (p n : Nat) :
    (block p n).value mem = (List.range n).map (fun i => mem (p + i)) := by
  induction n generalizing p with
  | zero => rfl
  | succ n ih =>
    simp only [block, value_bind, value_peek, value_pure, ih, List.range_succ_eq_map,
      List.map_cons, List.map_map, Nat.add_zero]
    refine congrArg (mem p :: ·) (List.map_congr_left (fun i _ => congrArg mem ?_))
    exact Nat.add_right_comm p 1 i

@[simp] theorem places_block (p n : Nat) : (block p n).places mem = List.range' p n := by
  induction n generalizing p with
  | zero => rfl
  | succ n ih =>
    simp only [block, places_bind, places_peek, places_pure, ih, List.append_nil,
      List.range'_succ, List.singleton_append]

theorem value_foldlM (f : α → γ → Looking β α) (l : List γ) (a : α) :
    (l.foldlM f a).value mem = l.foldl (fun a c => (f a c).value mem) a := by
  induction l generalizing a with
  | nil => rfl
  | cons c l ih => rw [List.foldlM_cons, value_bind, ih, List.foldl_cons]

/-! ## Looking at some places only -/

variable (P : Nat → Prop)

/-- Every place that is looked at is one of `P`. -/
def Stays (t : Looking β α) : Prop := ∀ p ∈ t.places mem, P p

variable {mem P} in
theorem stays_pure {a : α} : Stays mem P (pure a : Looking β α) :=
  fun _ hp => absurd hp List.not_mem_nil

theorem stays_peek (p : Nat) : Stays mem P (peek p) ↔ P p := List.forall_mem_singleton

theorem stays_bind (t : Looking β α) (f : α → Looking β γ) :
    Stays mem P (t >>= f) ↔ Stays mem P t ∧ Stays mem P (f (t.value mem)) := by
  rw [Stays, places_bind, List.forall_mem_append]
  rfl

theorem stays_block (p n : Nat) : Stays mem P (block p n) ↔ ∀ q, p ≤ q → q < p + n → P q := by
  rw [Stays, places_block]
  exact ⟨fun h q hp hq => h q (List.mem_range'_1.mpr ⟨hp, hq⟩),
    fun h q hq => h q (List.mem_range'_1.mp hq).1 (List.mem_range'_1.mp hq).2⟩

theorem stays_foldlM {f : α → γ → Looking β α} {l : List γ}
    (h : ∀ a, ∀ c ∈ l, Stays mem P (f a c)) (a : α) : Stays mem P (l.foldlM f a) := by
  induction l generalizing a with
  | nil => exact stays_pure
  | cons c l ih =>
    rw [List.foldlM_cons, stays_bind]
    exact ⟨h a c (List.mem_cons_self ..), ih (fun a c hc => h a c (List.mem_cons_of_mem _ hc)) _⟩

end Memory

variable {mem mem' : Nat → β}

/-- **The value depends on the places alone that are looked at.** -/
theorem value_congr (t : Looking β α) (h : ∀ p ∈ t.places mem, mem p = mem' p) :
    t.value mem = t.value mem' := by
  induction t with
  | done a => rfl
  | look p next ih =>
    obtain ⟨hp, hrest⟩ := List.forall_mem_cons.mp h
    calc (next (mem p)).value mem = (next (mem p)).value mem' := ih (mem p) hrest
      _ = (next (mem' p)).value mem' := by rw [hp]

theorem places_congr (t : Looking β α) (h : ∀ p ∈ t.places mem, mem p = mem' p) :
    t.places mem = t.places mem' := by
  induction t with
  | done a => rfl
  | look p next ih =>
    obtain ⟨hp, hrest⟩ := List.forall_mem_cons.mp h
    calc p :: (next (mem p)).places mem = p :: (next (mem p)).places mem' := by
          rw [ih (mem p) hrest]
      _ = p :: (next (mem' p)).places mem' := by rw [hp]

end Looking
