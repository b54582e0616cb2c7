import Mathlib.Data.List.Basic

/-!
# Groups in brackets

A group is an opening bracket with everything up to the next closing one.  `removeGroups` reads
a line once and leaves the groups out.  A loop that looks for the first bracket of either kind
and cuts from one to the other does the same as long as the brackets come in their order
(`Grouped`); what it does at a closing bracket in front of an opening one is for the loop to
say.
-/

namespace Groups

variable {α : Type*} [DecidableEq α] {o c x : α} {xs a b rest : List α}

/-- A line without its groups; `inside` is whether a group is open. -/
def removeGroups (o c : α) (inside : Bool) : List α → List α
  | [] => []
  | x :: xs =>
    if inside = true then removeGroups o c (x ≠ c) xs
    else if x = o ∧ c ∈ xs then removeGroups o c true xs
    else x :: removeGroups o c false xs

/-- The brackets come in their order up to the last group, or up to a closing bracket that
`ok` holds behind. -/
def Grouped (o c : α) (ok : List α → Prop) (inside : Bool) : List α → Prop
  | [] => True
  | x :: xs =>
    if inside = true then Grouped o c ok (x ≠ c) xs
    else if x = o then c ∈ xs → Grouped o c ok true xs
    else if x = c then ok xs
    else Grouped o c ok false xs

instance decidableGrouped (ok : List α → Prop) [DecidablePred ok] :
    ∀ (inside : Bool) (xs : List α), Decidable (Grouped o c ok inside xs)
  | _, [] => isTrue trivial
  | inside, x :: xs =>
    haveI := fun inside => decidableGrouped ok inside xs
    inferInstanceAs (Decidable (if inside = true then Grouped o c ok (x ≠ c) xs
      else if x = o then c ∈ xs → Grouped o c ok true xs
      else if x = c then ok xs
      else Grouped o c ok false xs))

/-- An opening bracket stands in front of a closing one. -/
def HasGroup (o c : α) : List α → Prop
  | [] => False
  | x :: xs => (x = o ∧ c ∈ xs) ∨ HasGroup o c xs

instance decidableHasGroup : DecidablePred (HasGroup o c)
  | [] => isFalse id
  | x :: xs =>
    haveI := decidableHasGroup xs
    inferInstanceAs (Decidable ((x = o ∧ c ∈ xs) ∨ HasGroup o c xs))

omit [DecidableEq α] in
theorem hasGroup_iff : HasGroup o c xs ↔ ∃ a b rest, xs = a ++ o :: (b ++ c :: rest) := by
  induction xs with
  | nil => simp [HasGroup]
  | cons x xs ih =>
    constructor
    · rintro (⟨rfl, hc⟩ | h)
      · obtain ⟨b, rest, rfl⟩ := List.append_of_mem hc
        exact ⟨[], b, rest, rfl⟩
      · obtain ⟨a, b, rest, rfl⟩ := ih.mp h
        exact ⟨x :: a, b, rest, rfl⟩
    · rintro ⟨a, b, rest, h⟩
      cases a with
      | nil =>
        rw [List.nil_append, List.cons.injEq] at h
        obtain ⟨rfl, rfl⟩ := h
        exact .inl ⟨rfl, by simp⟩
      | cons y a =>
        rw [List.cons_append, List.cons.injEq] at h
        obtain ⟨rfl, rfl⟩ := h
        exact .inr (ih.mpr ⟨a, b, rest, rfl⟩)

omit [DecidableEq α] in
theorem not_hasGroup_of_not_mem (h : o ∉ xs ∨ c ∉ xs) : ¬ HasGroup o c xs := by
  rw [hasGroup_iff]
  rintro ⟨a, b, rest, rfl⟩
  rcases h with h | h
  · exact h (by simp)
  · exact h (by simp)

/-! ## Where the brackets stand -/

theorem bracket_cases (o c : α) (xs : List α) : (o ∉ xs ∧ c ∉ xs) ∨
    ∃ a x rest, xs = a ++ x :: rest ∧ o ∉ a ∧ c ∉ a ∧ (x = o ∨ x = c) := by
  induction xs with
  | nil => exact .inl ⟨List.not_mem_nil, List.not_mem_nil⟩
  | cons y ys ih =>
    by_cases hy : y = o ∨ y = c
    · exact .inr ⟨[], y, ys, rfl, List.not_mem_nil, List.not_mem_nil, hy⟩
    · rw [not_or] at hy
      rcases ih with ⟨ho, hc⟩ | ⟨a, x, rest, rfl, ho, hc, hx⟩
      · exact .inl ⟨by simp [Ne.symm hy.1, ho], by simp [Ne.symm hy.2, hc]⟩
      · exact .inr ⟨y :: a, x, rest, rfl, by simp [Ne.symm hy.1, ho], by simp [Ne.symm hy.2, hc],
          hx⟩

/-- A line lacks a bracket, begins with a group behind a text, or has a closing bracket in front
of the first opening one. -/
theorem group_cases (hoc : o ≠ c) (xs : List α) : (o ∉ xs ∨ c ∉ xs) ∨
    (∃ a b rest, xs = a ++ o :: (b ++ c :: rest) ∧ o ∉ a ∧ c ∉ a ∧ c ∉ b) ∨
      ∃ a rest, xs = a ++ c :: rest ∧ o ∉ a ∧ c ∉ a ∧ o ∈ rest := by
  rcases bracket_cases o c xs with ⟨ho, -⟩ | ⟨a, x, rest, rfl, ho, hc, rfl | rfl⟩
  · exact .inl (.inl ho)
  · by_cases hrest : c ∈ rest
    · obtain ⟨b, rest, rfl, hb⟩ := List.eq_append_cons_of_mem hrest
      exact .inr (.inl ⟨a, b, rest, rfl, ho, hc, hb⟩)
    · exact .inl (.inr (by simp [hc, hrest, hoc.symm]))
  · by_cases hrest : o ∈ rest
    · exact .inr (.inr ⟨a, rest, rfl, ho, hc, hrest⟩)
    · exact .inl (.inl (by simp [ho, hrest, hoc]))

/-! ## Lines taken apart -/

theorem removeGroups_append (ho : o ∉ a) (xs : List α) :
    removeGroups o c false (a ++ xs) = a ++ removeGroups o c false xs := by
  induction a with
  | nil => rfl
  | cons y ys ih =>
    rw [List.mem_cons, not_or] at ho
    rw [List.cons_append, removeGroups, if_neg (by decide), if_neg (fun h => ho.1 h.1.symm),
      ih ho.2]
    rfl

theorem removeGroups_inside (hc : c ∉ b) (rest : List α) :
    removeGroups o c true (b ++ c :: rest) = removeGroups o c false rest := by
  induction b with
  | nil => simp [removeGroups]
  | cons y ys ih =>
    rw [List.mem_cons, not_or] at hc
    rw [List.cons_append, removeGroups, if_pos rfl, decide_eq_true (Ne.symm hc.1), ih hc.2]

theorem removeGroups_group (ho : o ∉ a) (hc : c ∉ b) (rest : List α) :
    removeGroups o c false (a ++ o :: (b ++ c :: rest)) = a ++ removeGroups o c false rest := by
  rw [removeGroups_append ho, removeGroups, if_neg (by decide), if_pos ⟨rfl, by simp⟩,
    removeGroups_inside hc]

theorem removeGroups_of_not_hasGroup (h : ¬ HasGroup o c xs) :
    removeGroups o c false xs = xs := by
  induction xs with
  | nil => rfl
  | cons x xs ih =>
    rw [HasGroup, not_or] at h
    rw [removeGroups, if_neg (by decide), if_neg h.1, ih h.2]

theorem length_removeGroups_le : ∀ (inside : Bool),
    (removeGroups o c inside xs).length ≤ xs.length := by
  induction xs with
  | nil => intro inside; exact Nat.le_refl 0
  | cons x xs ih =>
    intro inside
    rw [removeGroups]
    split
    · exact Nat.le_succ_of_le (ih _)
    · split
      · exact Nat.le_succ_of_le (ih _)
      · exact Nat.succ_le_succ (ih _)

theorem mem_of_mem_removeGroups {y : α} : ∀ {inside : Bool},
    y ∈ removeGroups o c inside xs → y ∈ xs := by
  induction xs with
  | nil => intro inside h; exact h
  | cons x xs ih =>
    intro inside h
    rw [removeGroups] at h
    split at h
    · exact List.mem_cons_of_mem _ (ih h)
    · split at h
      · exact List.mem_cons_of_mem _ (ih h)
      · rcases List.mem_cons.mp h with rfl | h
        · exact List.mem_cons_self ..
        · exact List.mem_cons_of_mem _ (ih h)

/-- **No group is left.** -/
theorem not_hasGroup_removeGroups : ∀ (inside : Bool),
    ¬ HasGroup o c (removeGroups o c inside xs) := by
  induction xs with
  | nil => intro inside h; exact h
  | cons x xs ih =>
    intro inside
    rw [removeGroups]
    split
    · exact ih _
    · split
      · exact ih _
      · next h =>
        rintro (⟨rfl, hc⟩ | hrest)
        · exact h ⟨rfl, mem_of_mem_removeGroups hc⟩
        · exact ih _ hrest

variable {ok : List α → Prop}

theorem grouped_append (ho : o ∉ a) (hc : c ∉ a) (xs : List α) :
    Grouped o c ok false (a ++ xs) ↔ Grouped o c ok false xs := by
  induction a with
  | nil => exact Iff.rfl
  | cons y ys ih =>
    rw [List.mem_cons, not_or] at ho hc
    rw [List.cons_append, Grouped, if_neg (by decide), if_neg (Ne.symm ho.1),
      if_neg (Ne.symm hc.1), ih ho.2 hc.2]

theorem grouped_inside (hc : c ∉ b) (rest : List α) :
    Grouped o c ok true (b ++ c :: rest) ↔ Grouped o c ok false rest := by
  induction b with
  | nil => simp [Grouped]
  | cons y ys ih =>
    rw [List.mem_cons, not_or] at hc
    rw [List.cons_append, Grouped, if_pos rfl, decide_eq_true (Ne.symm hc.1), ih hc.2]

theorem grouped_group (ho : o ∉ a) (hc : c ∉ a) (hb : c ∉ b) (rest : List α) :
    Grouped o c ok false (a ++ o :: (b ++ c :: rest)) ↔ Grouped o c ok false (a ++ rest) := by
  rw [grouped_append ho hc, grouped_append ho hc, Grouped, if_neg (by decide), if_pos rfl,
    imp_iff_right (by simp), grouped_inside hb]

theorem grouped_close (hoc : o ≠ c) (ho : o ∉ a) (hc : c ∉ a) (rest : List α) :
    Grouped o c ok false (a ++ c :: rest) ↔ ok rest := by
  rw [grouped_append ho hc, Grouped, if_neg (by decide), if_neg hoc.symm, if_pos rfl]

theorem grouped_of_not_mem (hoc : o ≠ c) (hok : ∀ ys, o ∉ ys → ok ys) (h : o ∉ xs ∨ c ∉ xs) :
    Grouped o c ok false xs := by
  rcases bracket_cases o c xs with ⟨ho, hc⟩ | ⟨a, x, rest, rfl, ho, hc, rfl | rfl⟩
  · have hrest : Grouped o c ok false (xs ++ []) := (grouped_append ho hc []).mpr trivial
    rwa [List.append_nil] at hrest
  · rw [grouped_append ho hc, Grouped, if_neg (by decide), if_pos rfl]
    intro hrest
    rcases h with h | h
    · exact absurd (by simp) h
    · exact absurd (by simp [hrest]) h
  · rw [grouped_close hoc ho hc]
    rcases h with h | h
    · exact hok rest fun hrest => h (by simp [hrest])
    · exact absurd (by simp) h

end Groups
