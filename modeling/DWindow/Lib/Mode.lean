import Mathlib.Data.Finset.Card
import Mathlib.Data.List.Count
import Mathlib.Data.List.Nodup
import Mathlib.Tactic.NormNum

/-!
# Most common values

A most common value of a list occurs in it no less often than any other.  When the same
numbered values are counted over two sets of places, a most common value over the one is most
common over the other for all values only if the sets are the same, or the one is a single
place out of two of the other (`exists_wrong_mode`).
-/

namespace Mode

open Finset

/-- A most common value. -/
def IsMode {α : Type*} [DecidableEq α] (v : α) (xs : List α) : Prop :=
  v ∈ xs ∧ ∀ w, xs.count w ≤ xs.count v

instance decidableIsMode {α : Type*} [DecidableEq α] (v : α) (xs : List α) :
    Decidable (IsMode v xs) :=
  decidable_of_iff (v ∈ xs ∧ ∀ w ∈ xs, xs.count w ≤ xs.count v) <| by
    refine and_congr_right fun _ => ⟨fun h w => ?_, fun h w _ => h w⟩
    by_cases hw : w ∈ xs
    · exact h w hw
    · rw [List.count_eq_zero_of_not_mem hw]
      exact Nat.zero_le _

theorem isMode_of_length_le {α : Type*} [DecidableEq α] {v : α} {xs : List α} (hv : v ∈ xs)
    (hlen : xs.length ≤ 2) : IsMode v xs := by
  refine ⟨hv, fun w => ?_⟩
  have hpos := List.count_pos_iff.mpr hv
  by_cases hw : w = v
  · rw [hw]
  · obtain ⟨a, b, rfl⟩ := List.append_of_mem hv
    rw [List.length_append, List.length_cons] at hlen
    rw [List.count_append, List.count_cons_of_ne (Ne.symm hw)]
    have ha := a.count_le_length (a := w)
    have hb := b.count_le_length (a := w)
    omega

/-! ## Counting over places -/

/-- How often a value stands at the places of `s`. -/
def occurs (f : Nat → Nat) (s : Finset Nat) (v : Nat) : Nat := #{i ∈ s | f i = v}

/-- Numbers of places to give the one value and the other: `a` places only of the first set,
`m` of both and `d` only of the second. -/
theorem exists_counts {a m d : Nat} (hne : 0 < a + d) (hsecond : 0 < m + d)
    (hone : ¬ (a = 0 ∧ m = 1 ∧ d = 1)) : ∃ k w, k + w ≤ m ∧ w ≤ a + k ∧ m - k - w ≤ a + k ∧
      (k < w ∨ k < m - k - w + d) := by
  obtain ⟨h, rfl | rfl⟩ := m.even_or_odd'
  · by_cases hzero : h = 0
    · exact ⟨0, 0, by omega⟩
    · by_cases ha : a = 0
      · exact ⟨h, 0, by omega⟩
      · exact ⟨h - 1, 1, by omega⟩
  · by_cases ha : a = 0
    · by_cases hd : d = 1
      · exact ⟨h, 1, by omega⟩
      · exact ⟨h + 1, 0, by omega⟩
    · exact ⟨h, 0, by omega⟩

/-- The values 0 at the places of `c` alone and those of `z`, 2 at those of `t`, 1 elsewhere. -/
def assigned (c r z t : Finset Nat) (i : Nat) : Nat :=
  if (i ∈ c ∧ i ∉ r) ∨ i ∈ z then 0 else if i ∈ t then 2 else 1

section Assigned

variable {c r z t : Finset Nat} {i : Nat}

theorem assigned_le : assigned c r z t i ≤ 2 := by
  unfold assigned
  split
  · omega
  · split <;> omega

theorem assigned_zero : assigned c r z t i = 0 ↔ (i ∈ c ∧ i ∉ r) ∨ i ∈ z := by
  unfold assigned
  split
  · next h => exact iff_of_true rfl h
  · next h => split <;> exact iff_of_false (by omega) h

theorem assigned_two : assigned c r z t i = 2 ↔ ¬ ((i ∈ c ∧ i ∉ r) ∨ i ∈ z) ∧ i ∈ t := by
  unfold assigned
  split
  · next h => exact iff_of_false (by omega) fun h' => h'.1 h
  · next h =>
    split
    · next ht => exact iff_of_true rfl ⟨h, ht⟩
    · next ht => exact iff_of_false (by omega) fun h' => ht h'.2

theorem assigned_one : assigned c r z t i = 1 ↔ ¬ ((i ∈ c ∧ i ∉ r) ∨ i ∈ z) ∧ i ∉ t := by
  unfold assigned
  split
  · next h => exact iff_of_false (by omega) fun h' => h'.1 h
  · next h =>
    split
    · next ht => exact iff_of_false (by omega) fun h' => h'.2 ht
    · next ht => exact iff_of_true rfl ⟨h, ht⟩

/-- How often each value occurs, for `z` and `t` apart from each other in both sets. -/
theorem occurs_assigned (hz : z ⊆ c ∩ r) (ht : t ⊆ (c ∩ r) \ z) :
    (occurs (assigned c r z t) c 0 = #(c \ r) + #z ∧ occurs (assigned c r z t) c 2 = #t ∧
      occurs (assigned c r z t) c 1 = #(c ∩ r) - #z - #t) ∧
    occurs (assigned c r z t) r 0 = #z ∧ occurs (assigned c r z t) r 2 = #t ∧
      occurs (assigned c r z t) r 1 = #(c ∩ r) - #z - #t + #(r \ c) := by
  have hzc : ∀ i ∈ z, i ∈ c ∧ i ∈ r := fun i hi => mem_inter.mp (hz hi)
  have htc : ∀ i ∈ t, (i ∈ c ∧ i ∈ r) ∧ i ∉ z := fun i hi => by
    simpa only [mem_sdiff, mem_inter] using ht hi
  have hrest : #((c ∩ r) \ (z ∪ t)) = #(c ∩ r) - #z - #t := by
    rw [card_sdiff_of_subset (union_subset hz (ht.trans sdiff_subset)), card_union_of_disjoint,
      Nat.sub_sub]
    rw [disjoint_right]
    exact fun i hi => (htc i hi).2
  refine ⟨⟨?_, ?_, ?_⟩, ?_, ?_, ?_⟩
  · rw [← card_union_of_disjoint]
    · refine congrArg card (ext fun i => ?_)
      have := hzc i
      simp only [mem_filter, mem_union, mem_sdiff, assigned_zero]
      tauto
    · rw [disjoint_left]
      exact fun i hi hiz => (mem_sdiff.mp hi).2 (hzc i hiz).2
  · refine congrArg card (ext fun i => ?_)
    have := htc i
    simp only [mem_filter, assigned_two]
    tauto
  · rw [← hrest]
    refine congrArg card (ext fun i => ?_)
    simp only [mem_filter, mem_sdiff, mem_inter, mem_union, assigned_one]
    tauto
  · refine congrArg card (ext fun i => ?_)
    have := hzc i
    simp only [mem_filter, assigned_zero]
    tauto
  · refine congrArg card (ext fun i => ?_)
    have := htc i
    simp only [mem_filter, assigned_two]
    tauto
  · rw [← hrest, ← card_union_of_disjoint]
    · refine congrArg card (ext fun i => ?_)
      have h₁ := hzc i
      have h₂ := htc i
      simp only [mem_filter, mem_union, mem_sdiff, mem_inter, assigned_one]
      tauto
    · rw [disjoint_left]
      exact fun i hi hi' => (mem_sdiff.mp hi').2 (mem_inter.mp (mem_sdiff.mp hi).1).1

end Assigned

/-- **A most common value of the one set that is none of the other**: 0 over `c`, but not over
`r`. -/
theorem exists_wrong_mode {c r : Finset Nat} (hr : r.Nonempty) (hne : c ≠ r)
    (hone : ¬ (#c = 1 ∧ #r = 2 ∧ c ⊆ r)) :
    ∃ f : Nat → Nat, (∀ i, f i ≤ 2) ∧ (∀ v, occurs f c v ≤ occurs f c 0) ∧
      ∃ v, v ≤ 2 ∧ occurs f r 0 < occurs f r v := by
  have hc : #(c \ r) + #(c ∩ r) = #c := card_sdiff_add_card_inter c r
  have hr' : #(r \ c) + #(c ∩ r) = #r := by
    rw [inter_comm]
    exact card_sdiff_add_card_inter r c
  have hdiffer : 0 < #(c \ r) + #(r \ c) := by
    by_contra hzero
    have h₁ : c \ r = ∅ := card_eq_zero.mp (by omega)
    have h₂ : r \ c = ∅ := card_eq_zero.mp (by omega)
    exact hne (Subset.antisymm (sdiff_eq_empty_iff_subset.mp h₁) (sdiff_eq_empty_iff_subset.mp h₂))
  have hpos := card_pos.mpr hr
  obtain ⟨k, w, hfit, htwo, hones, hless⟩ := exists_counts (m := #(c ∩ r)) hdiffer (by omega) (by
    rintro ⟨ha, hm, hd⟩
    exact hone ⟨by omega, by omega, sdiff_eq_empty_iff_subset.mp (card_eq_zero.mp ha)⟩)
  obtain ⟨z, hz, rfl⟩ := exists_subset_card_eq (show k ≤ #(c ∩ r) by omega)
  obtain ⟨t, ht, rfl⟩ := exists_subset_card_eq (show w ≤ #((c ∩ r) \ z) by
    rw [card_sdiff_of_subset hz]
    omega)
  obtain ⟨⟨hc0, hc2, hc1⟩, hr0, hr2, hr1⟩ := occurs_assigned hz ht
  refine ⟨assigned c r z t, fun i => assigned_le, fun v => ?_, ?_⟩
  · match v with
    | 0 => exact Nat.le_refl _
    | 1 => rw [hc1, hc0]; exact hones
    | 2 => rw [hc2, hc0]; exact htwo
    | v + 3 =>
      have hnone : occurs (assigned c r z t) c (v + 3) = 0 := by
        rw [occurs, card_eq_zero, filter_eq_empty_iff]
        intro i _ hi
        have hle := @assigned_le c r z t i
        omega
      rw [hnone]
      exact Nat.zero_le _
  · rcases hless with hless | hless
    · exact ⟨2, Nat.le_refl _, by rw [hr0, hr2]; exact hless⟩
    · exact ⟨1, by omega, by rw [hr0, hr1]; exact hless⟩

/-! ## Lists of places -/

theorem count_map_eq_occurs {f : Nat → Nat} {g : Nat → Int} {places : List Nat}
    (hnodup : places.Nodup) (hg : ∀ i ∈ places, g i = f i) (v : Nat) :
    (places.map g).count (v : Int) = occurs f places.toFinset v := by
  have hfilter : (places.map g).count (v : Int) = (places.filter fun i => f i = v).length := by
    rw [List.count, List.countP_map, ← List.countP_eq_length_filter]
    refine List.countP_congr fun i hi => ?_
    simp only [Function.comp_apply, beq_iff_eq, decide_eq_true_eq, hg i hi]
    exact Int.natCast_inj
  rw [hfilter, occurs, ← List.toFinset_card_of_nodup (hnodup.filter _), List.toFinset_filter]
  simp

end Mode
