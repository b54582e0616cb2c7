import Mathlib.Data.List.Basic
import Mathlib.Data.Int.Basic
import Mathlib.Tactic.Linarith

/-!
# Slices of an indexed sequence

A sequence without an end, a remote file or a tape, is a function `Int → α`.
`slice g a b` is the list of its values at `a, …, b - 1`, empty when `b ≤ a`.
Two neighbouring slices join (`slice_append`), and taking or dropping from the
front of a slice gives a slice again.  `slice_ext` is the way in: a list of the
right length with the right entries is a slice.
-/

namespace Slice

variable {α : Type*}

/-- The values of `g` at `a, …, b - 1`. -/
def slice (g : Int → α) (a b : Int) : List α :=
  (List.range (b - a).toNat).map (fun k : Nat => g (a + k))

@[simp] theorem length_slice (g : Int → α) (a b : Int) :
    (slice g a b).length = (b - a).toNat := by
  simp [slice]

theorem getElem?_slice (g : Int → α) {a b : Int} {k : Nat} (h : a + k < b) :
    (slice g a b)[k]? = some (g (a + k)) := by
  rw [slice, List.getElem?_map, List.getElem?_range (by omega)]
  rfl

theorem slice_of_le (g : Int → α) {a b : Int} (h : b ≤ a) : slice g a b = [] := by
  rw [slice, Int.toNat_of_nonpos (by omega)]
  rfl

theorem slice_ext {g : Int → α} {a b : Int} {l : List α} (hlen : l.length = (b - a).toNat)
    (hget : ∀ k : Nat, a + k < b → l[k]? = some (g (a + k))) : l = slice g a b := by
  apply List.ext_getElem?
  intro k
  by_cases hk : a + k < b
  · rw [hget k hk, getElem?_slice g hk]
  · rw [List.getElem?_eq_none (by omega), List.getElem?_eq_none (by rw [length_slice]; omega)]

/-- **Neighbouring slices join.** -/
theorem slice_append (g : Int → α) {a b c : Int} (hab : a ≤ b) (hbc : b ≤ c) :
    slice g a b ++ slice g b c = slice g a c := by
  refine slice_ext ?_ ?_
  · rw [List.length_append, length_slice, length_slice]
    omega
  · intro k hk
    by_cases hkb : a + k < b
    · rw [List.getElem?_append_left (by rw [length_slice]; omega), getElem?_slice g hkb]
    · rw [List.getElem?_append_right (by rw [length_slice]; omega), length_slice,
        getElem?_slice g (by omega)]
      congr 2
      omega

theorem take_slice (g : Int → α) {a b : Int} {n : Nat} (h : a + n ≤ b) :
    (slice g a b).take n = slice g a (a + n) := by
  refine slice_ext ?_ ?_
  · rw [List.length_take, length_slice]
    omega
  · intro k hk
    rw [List.getElem?_take_of_lt (by omega), getElem?_slice g (by omega)]

end Slice
