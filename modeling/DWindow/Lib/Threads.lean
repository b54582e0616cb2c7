import Mathlib.Data.List.Basic

/-!
# Counting threads

A number of threads is a list of the places they are at, and a step of one of them
replaces its entry.  What an invariant needs of such a step is how the numbers of
threads at some kinds of places change: `countP_set_add` says so, and `place_of_pos`
finds a thread when there is one to count.
-/

namespace Threads

variable {π : Type*}

/-- **A thread moves** from `a` to `b`. -/
theorem countP_set_add (kind : π → Bool) : ∀ (threads : List π) (i : Nat) {a : π} (b : π),
    threads[i]? = some a →
    (threads.set i b).countP kind + (kind a).toNat = threads.countP kind + (kind b).toNat := by
  intro threads
  induction threads with
  | nil => intro i a b h; exact absurd h (by simp)
  | cons c threads ih =>
    intro i a b h
    cases i with
    | zero =>
      obtain rfl : c = a := by simpa using h
      rw [List.set_cons_zero, List.countP_cons, List.countP_cons]
      cases kind b <;> cases kind c <;> simp
    | succ i =>
      have := ih i b (by simpa using h)
      rw [List.set_cons_succ, List.countP_cons, List.countP_cons]
      omega

theorem countP_modify_add (kind : π → Bool) (f : π → π) : ∀ (threads : List π) (i : Nat),
    (threads.modify i f).countP kind + (threads[i]?.any kind).toNat =
      threads.countP kind + (threads[i]?.any fun a => kind (f a)).toNat := by
  intro threads
  induction threads with
  | nil => intro i; rw [List.modify_nil]; rfl
  | cons c threads ih =>
    intro i
    cases i with
    | zero =>
      rw [List.modify_zero_cons, List.countP_cons, List.countP_cons, List.getElem?_cons_zero,
        Option.any_some, Option.any_some]
      cases kind (f c) <;> cases kind c <;> simp
    | succ i =>
      have := ih i
      rw [List.modify_succ_cons, List.countP_cons, List.countP_cons, List.getElem?_cons_succ]
      omega

theorem place_of_pos {kind : π → Bool} : ∀ {threads : List π}, 0 < threads.countP kind →
    ∃ (i : Nat) (a : π), threads[i]? = some a ∧ kind a = true := by
  intro threads h
  obtain ⟨a, ha, hkind⟩ := List.countP_pos_iff.mp h
  obtain ⟨i, hi⟩ := List.getElem?_of_mem ha
  exact ⟨i, a, hi, hkind⟩

theorem pos_of_place {kind : π → Bool} {threads : List π} {i : Nat} {a : π}
    (h : threads[i]? = some a) (hkind : kind a = true) : 0 < threads.countP kind :=
  List.countP_pos_iff.mpr ⟨a, List.mem_of_getElem? h, hkind⟩

/-- Of the places that are counted once at most, one thread is at most. -/
theorem place_unique {kind : π → Bool} : ∀ {threads : List π} {i j : Nat} {a b : π},
    threads.countP kind ≤ 1 → threads[i]? = some a → kind a = true → threads[j]? = some b →
    kind b = true → i = j := by
  intro threads
  induction threads with
  | nil => intro i j a b _ hi; exact absurd hi (by simp)
  | cons c threads ih =>
    intro i j a b hle hi ha hj hb
    rw [List.countP_cons] at hle
    have hlater : ∀ {k : Nat} {d : π}, threads[k]? = some d → kind d = true → kind c ≠ true := by
      intro k d hk hd hc
      have := pos_of_place hk hd
      rw [if_pos hc] at hle
      omega
    cases i with
    | zero =>
      obtain rfl : c = a := by simpa using hi
      cases j with
      | zero => rfl
      | succ j => exact absurd ha (hlater (by simpa using hj) hb)
    | succ i =>
      cases j with
      | zero =>
        obtain rfl : c = b := by simpa using hj
        exact absurd hb (hlater (by simpa using hi) ha)
      | succ j =>
        exact congrArg (· + 1) (ih (Nat.le_trans (Nat.le_add_right _ _) hle) (by simpa using hi) ha
          (by simpa using hj) hb)

end Threads
