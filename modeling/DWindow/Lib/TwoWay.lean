import Mathlib.Data.List.AList

/-!
# Two maps that are each other's inverse

A map and a map back are kept side by side and updated by hand.  They stay inverse to each
other when a pair of a new key and a new value goes into both.
-/

namespace TwoWay

variable {α β : Type*} [DecidableEq α]

theorem lookup_insert_of_some {forth : AList fun _ : α => β} {a x : α} {b y : β}
    (ha : forth.lookup a = none) (hx : forth.lookup x = some y) :
    (forth.insert a b).lookup x = some y := by
  have hne : x ≠ a := by
    rintro rfl
    rw [ha] at hx
    cases hx
  rw [AList.lookup_insert_ne hne, hx]

variable [DecidableEq β]

/-- What the one map says, the other says backwards. -/
def Inverse (forth : AList fun _ : α => β) (back : AList fun _ : β => α) : Prop :=
  ∀ a b, forth.lookup a = some b ↔ back.lookup b = some a

theorem inverse_empty : Inverse (∅ : AList fun _ : α => β) (∅ : AList fun _ : β => α) := by
  intro a b
  rw [AList.lookup_empty, AList.lookup_empty]
  exact iff_of_false (Option.some_ne_none b).symm (Option.some_ne_none a).symm

variable {forth : AList fun _ : α => β} {back : AList fun _ : β => α}

/-- **A new pair** keeps the maps inverse. -/
theorem Inverse.insert (h : Inverse forth back) {a : α} {b : β} (ha : forth.lookup a = none)
    (hb : back.lookup b = none) : Inverse (forth.insert a b) (back.insert b a) := by
  intro x y
  by_cases hx : x = a
  · subst hx
    rw [AList.lookup_insert]
    by_cases hy : y = b
    · subst hy
      rw [AList.lookup_insert]
      exact iff_of_true rfl rfl
    · rw [AList.lookup_insert_ne hy, ← h x y, ha]
      exact iff_of_false (fun he => hy (Option.some.inj he).symm) (Option.some_ne_none y).symm
  · rw [AList.lookup_insert_ne hx]
    by_cases hy : y = b
    · subst hy
      rw [AList.lookup_insert, h x y, hb]
      exact iff_of_false (Option.some_ne_none x).symm (fun he => hx (Option.some.inj he).symm)
    · rw [AList.lookup_insert_ne hy]
      exact h x y

theorem Inverse.injective (h : Inverse forth back) {a a' : α} {b : β}
    (ha : forth.lookup a = some b) (ha' : forth.lookup a' = some b) : a = a' :=
  Option.some.inj (((h a b).mp ha).symm.trans ((h a' b).mp ha'))

end TwoWay
