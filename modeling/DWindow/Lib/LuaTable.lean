import Mathlib.Data.List.TakeWhile
import Mathlib.Data.Option.Basic

/-!
# Lua tables as arrays

The entries of a table at the keys 1, 2, … are a list of slots, and a slot may hold nothing.
The length operator returns any border: a key with an entry, or 0, whose next key has none.
A table `Holds` a list when its entries are that list without a gap; then there is one border
and `table.insert`, `table.remove` and `ipairs` do what one expects of a list.  Once there is
a `Gap`, neither a clearing pass over `ipairs` nor an insertion behind it closes it.
-/

namespace LuaTable

variable {α : Type*}

/-- The entry at key `i + 1`. -/
def slot (t : List (Option α)) (i : Nat) : Option α := t[i]?.join

/-- What the length operator may return. -/
def IsBorder (t : List (Option α)) (n : Nat) : Prop :=
  (n ≠ 0 → (slot t (n - 1)).isSome) ∧ slot t n = none

/-- `table.insert(t, x)`, when the length operator returns `n`. -/
def insertAt (t : List (Option α)) (n : Nat) (x : α) : List (Option α) :=
  t.take n ++ some x :: t.drop (n + 1)

/-- `table.remove(t, 1)`, when the length operator returns `n`: the entries up to `n` move. -/
def removeFirst (t : List (Option α)) : Nat → List (Option α)
  | 0 => t
  | n + 1 => (t.take (n + 1)).tail ++ none :: t.drop (n + 1)

/-- `for k, x in ipairs(t) do if p(x) then t[k] = nil end end`. -/
def clear (p : α → Bool) : List (Option α) → List (Option α)
  | [] => []
  | none :: t => none :: t
  | some x :: t => (if p x then none else some x) :: clear p t

/-- The entries are those of the list, without a gap. -/
def Holds (t : List (Option α)) (l : List α) : Prop := ∃ k, t = l.map some ++ List.replicate k none

/-- An entry stands behind a key that has none. -/
def Gap (t : List (Option α)) : Prop := ∃ i j, i < j ∧ slot t i = none ∧ (slot t j).isSome

/-- What the pass clears is the end of the list. -/
def Ends (p : α → Bool) (l : List α) : Prop := ∀ x ∈ l.dropWhile fun x => !p x, p x = true

instance (p : α → Bool) (l : List α) : Decidable (Ends p l) :=
  inferInstanceAs (Decidable (∀ x ∈ _, _))

/-! ## Slots -/

@[simp] theorem slot_nil (i : Nat) : slot ([] : List (Option α)) i = none := rfl

@[simp] theorem slot_cons_zero (x : Option α) (t : List (Option α)) : slot (x :: t) 0 = x := by
  cases x <;> rfl

@[simp] theorem slot_cons_succ (x : Option α) (t : List (Option α)) (i : Nat) :
    slot (x :: t) (i + 1) = slot t i := rfl

theorem slot_of_length_le {t : List (Option α)} {i : Nat} (h : t.length ≤ i) : slot t i = none := by
  rw [slot, List.getElem?_eq_none h]
  rfl

theorem lt_length_of_slot {t : List (Option α)} {i : Nat} (h : (slot t i).isSome) :
    i < t.length := by
  by_contra hi
  rw [slot_of_length_le (Nat.le_of_not_lt hi)] at h
  cases h

theorem slot_append_left {t u : List (Option α)} {i : Nat} (h : i < t.length) :
    slot (t ++ u) i = slot t i := by
  rw [slot, List.getElem?_append_left h]
  rfl

theorem slot_append_right {t u : List (Option α)} {i : Nat} (h : t.length ≤ i) :
    slot (t ++ u) i = slot u (i - t.length) := by
  rw [slot, List.getElem?_append_right h]
  rfl

theorem slot_replicate (k i : Nat) : slot (List.replicate k (none : Option α)) i = none := by
  rw [slot, List.getElem?_replicate]
  split <;> rfl

theorem exists_border {t : List (Option α)} {j : Nat} (h : (slot t j).isSome) :
    ∃ n, j < n ∧ IsBorder t n := by
  induction hd : t.length - j generalizing j with
  | zero =>
    have hlt := lt_length_of_slot h
    omega
  | succ d ih =>
    by_cases hnext : (slot t (j + 1)).isSome
    · obtain ⟨n, hn, hborder⟩ := ih hnext (by omega)
      exact ⟨n, by omega, hborder⟩
    · exact ⟨j + 1, Nat.lt_succ_self j, fun _ => h, Option.not_isSome_iff_eq_none.mp hnext⟩

/-! ## Tables without a gap -/

section Holds

variable {t : List (Option α)} {l : List α}

theorem holds_nil : Holds ([] : List (Option α)) [] := ⟨0, rfl⟩

theorem Holds.slot_eq (h : Holds t l) (i : Nat) : slot t i = l[i]? := by
  obtain ⟨k, rfl⟩ := h
  by_cases hi : i < l.length
  · rw [slot_append_left (by rwa [List.length_map]), slot, List.getElem?_map,
      List.getElem?_eq_getElem hi]
    rfl
  · rw [slot_append_right (by rw [List.length_map]; omega), slot_replicate,
      List.getElem?_eq_none (by omega)]

/-- **The length operator returns the length.** -/
theorem Holds.border_iff (h : Holds t l) {n : Nat} : IsBorder t n ↔ n = l.length := by
  simp only [IsBorder, h.slot_eq, List.getElem?_eq_none_iff, isSome_getElem?]
  omega

theorem Holds.insertAt (h : Holds t l) (x : α) : Holds (insertAt t l.length x) (l ++ [x]) := by
  obtain ⟨k, rfl⟩ := h
  refine ⟨k - 1, ?_⟩
  have hlen : (l.map some).length = l.length := List.length_map ..
  rw [LuaTable.insertAt, List.take_left' hlen, List.map_append, List.append_assoc,
    List.drop_append, List.drop_of_length_le (by omega), hlen, Nat.add_sub_cancel_left,
    List.drop_replicate]
  rfl

theorem Holds.removeFirst {x : α} (h : Holds t (x :: l)) :
    Holds (removeFirst t (l.length + 1)) l := by
  obtain ⟨k, rfl⟩ := h
  refine ⟨k + 1, ?_⟩
  have hlen : ((x :: l).map some).length = l.length + 1 := by rw [List.length_map, List.length_cons]
  rw [LuaTable.removeFirst, List.take_left' hlen, List.drop_left' hlen]
  rfl

theorem clear_map (p : α → Bool) (l : List α) (k : Nat) :
    clear p (l.map some ++ List.replicate k none) =
      l.map (fun x => if p x then none else some x) ++ List.replicate k none := by
  induction l with
  | nil => cases k <;> rfl
  | cons x l ih => rw [List.map_cons, List.cons_append, clear, ih, List.map_cons, List.cons_append]

theorem Ends.exists_append {p : α → Bool} (h : Ends p l) : ∃ a b, l = a ++ b ∧
    (∀ x ∈ a, p x = false) ∧ (∀ x ∈ b, p x = true) ∧ (l.filter fun x => !p x) = a := by
  refine ⟨l.takeWhile fun x => !p x, l.dropWhile fun x => !p x,
    List.takeWhile_append_dropWhile.symm, fun x hx => ?_, h, ?_⟩
  · exact Bool.not_eq_true' _ ▸ List.mem_takeWhile_imp (p := fun x => !p x) hx
  · have hsplit := List.takeWhile_append_dropWhile (p := fun x => !p x) (l := l)
    calc (l.filter fun x => !p x)
        = ((l.takeWhile fun x => !p x) ++ l.dropWhile fun x => !p x).filter fun x => !p x := by
          rw [hsplit]
      _ = l.takeWhile fun x => !p x := by
          rw [List.filter_append, List.filter_eq_self.mpr fun x hx =>
            List.mem_takeWhile_imp (p := fun x => !p x) hx, List.filter_eq_nil_iff.mpr
            fun x hx => by rw [h x hx]; decide, List.append_nil]

/-- **A pass that clears the end of the list leaves the rest.** -/
theorem Holds.clear (h : Holds t l) {p : α → Bool} (hends : Ends p l) :
    Holds (clear p t) (l.filter fun x => !p x) := by
  obtain ⟨k, rfl⟩ := h
  obtain ⟨a, b, rfl, ha, hb, hfilter⟩ := hends.exists_append
  refine ⟨b.length + k, ?_⟩
  have hkept : a.map (fun x => if p x then none else some x) = a.map some :=
    List.map_congr_left fun x hx => by rw [ha x hx]; rfl
  have hcleared : b.map (fun x => if p x then none else some x) = b.map fun _ => none :=
    List.map_congr_left fun x hx => by rw [hb x hx]; rfl
  rw [clear_map, hfilter, List.map_append, hkept, hcleared, List.map_const', List.append_assoc,
    List.replicate_append_replicate]

end Holds

/-! ## Gaps -/

section Gap

variable {t : List (Option α)} {l : List α}

theorem Gap.cons (h : Gap t) (x : Option α) : Gap (x :: t) := by
  obtain ⟨i, j, hij, hi, hj⟩ := h
  exact ⟨i + 1, j + 1, Nat.succ_lt_succ hij, hi, hj⟩

theorem not_gap_nil : ¬Gap ([] : List (Option α)) := by
  rintro ⟨_, _, -, -, hj⟩
  cases hj

/-- **A pass over `ipairs` does not close a gap.** -/
theorem Gap.clear (h : Gap t) (p : α → Bool) : Gap (clear p t) := by
  induction t with
  | nil => exact absurd h not_gap_nil
  | cons x t ih =>
    cases x with
    | none => exact h
    | some x =>
      rw [LuaTable.clear]
      obtain ⟨i, j, hij, hi, hj⟩ := h
      cases i with
      | zero => cases hi
      | succ i =>
        obtain ⟨j, rfl⟩ : ∃ k, j = k + 1 := ⟨j - 1, by omega⟩
        exact (ih ⟨i, j, by omega, hi, hj⟩).cons _

end Gap

end LuaTable
