import Mathlib.Data.List.Basic
import Mathlib.Tactic.Linarith
import Mathlib.Tactic.Ring

/-!
# Working on a buffer block by block

`mapBlocks n f k l` replaces the first `k` blocks of `n` elements of `l` by
their images under `f`, the loop `for (i = 0; i < k; i++) f(p + i * n)`.  When
`f` keeps the length of a block this acts on each block by itself
(`mapBlocks_append`), so a window of whole blocks can be cut out before or after
(`window_mapBlocks`), and undone by the inverse of `f` (`mapBlocks_inverse`).

`absorb` runs through the whole blocks of a stream; however the stream is cut, what has been
absorbed and what is left come out the same (`absorb_append`).
-/

namespace Blocks

variable {α : Type*}

/-- Replace the first `k` blocks of length `n`. -/
def mapBlocks (n : Nat) (f : List α → List α) : Nat → List α → List α
  | 0, l => l
  | k + 1, l => f (l.take n) ++ mapBlocks n f k (l.drop n)

/-- `f` maps blocks of length `n` to blocks of length `n`. -/
def KeepsLength (n : Nat) (f : List α → List α) : Prop :=
  ∀ b, b.length = n → (f b).length = n

/-- The `m` elements from position `a` on. -/
def window (l : List α) (a m : Nat) : List α := (l.drop a).take m

theorem length_window {l : List α} {a m : Nat} (h : a + m ≤ l.length) :
    (window l a m).length = m := by
  rw [window, List.length_take, List.length_drop]
  omega

theorem window_append_window (l : List α) (a m m' : Nat) :
    window l a m ++ window l (a + m) m' = window l a (m + m') := by
  rw [window, window, window, List.take_add, List.drop_drop]

theorem window_window {l : List α} {a b m m' : Nat} (h : b + m' ≤ m) :
    window (window l a m) b m' = window l (a + b) m' := by
  rw [window, window, window, List.drop_take, List.take_take, List.drop_drop,
    min_eq_left (by omega)]

theorem window_append_left {l l' : List α} {a m : Nat} (h : a + m ≤ l.length) :
    window (l ++ l') a m = window l a m := by
  rw [window, window, List.drop_append_of_le_length (by omega),
    List.take_append_of_le_length (by rw [List.length_drop]; omega)]

theorem window_append_right {l l' : List α} {a m : Nat} (h : l.length ≤ a) :
    window (l ++ l') a m = window l' (a - l.length) m := by
  rw [window, window, List.drop_append, List.drop_of_length_le h, List.nil_append]

/-- **A field of a record** with fields of known lengths. -/
theorem window_field : ∀ {fs : List (List α)} {ls : List Nat} (_ : fs.map List.length = ls)
    (i : Nat), window fs.flatten (ls.take i).sum (ls.getD i 0) = fs.getD i [] := by
  intro fs
  induction fs with
  | nil =>
    rintro ls rfl i
    rw [List.flatten_nil, window, List.drop_nil, List.take_nil, List.getD_nil]
  | cons f fs ih =>
    rintro ls rfl i
    cases i with
    | zero => exact List.take_left' rfl
    | succ i =>
      rw [List.map_cons, List.take_succ_cons, List.sum_cons, List.getD_cons_succ,
        List.getD_cons_succ, List.flatten_cons, window_append_right (Nat.le_add_right _ _),
        Nat.add_sub_cancel_left]
      exact ih rfl i

variable {n : Nat} {f g : List α → List α}

theorem length_mapBlocks (hf : KeepsLength n f) : ∀ (k : Nat) (l : List α),
    k * n ≤ l.length → (mapBlocks n f k l).length = l.length := by
  intro k
  induction k with
  | zero => intro l _; rfl
  | succ k ih =>
    intro l hl
    rw [Nat.succ_mul] at hl
    rw [mapBlocks, List.length_append, hf _ (by rw [List.length_take]; omega),
      ih (l.drop n) (by rw [List.length_drop]; omega), List.length_drop]
    omega

theorem mapBlocks_append : ∀ (j k : Nat) (l l' : List α), l.length = j * n →
    mapBlocks n f (j + k) (l ++ l') = mapBlocks n f j l ++ mapBlocks n f k l' := by
  intro j
  induction j with
  | zero =>
    intro k l l' hl
    rw [Nat.zero_mul] at hl
    rw [List.length_eq_zero_iff.mp hl, Nat.zero_add, List.nil_append]
    rfl
  | succ j ih =>
    intro k l l' hl
    rw [Nat.succ_mul] at hl
    rw [Nat.succ_add, mapBlocks, mapBlocks, List.take_append_of_le_length (by omega),
      List.drop_append_of_le_length (by omega),
      ih k (l.drop n) l' (by rw [List.length_drop]; omega), List.append_assoc]

theorem mapBlocks_inverse (hf : KeepsLength n f) (hg : ∀ b, b.length = n → g (f b) = b) :
    ∀ (k : Nat) (l : List α), k * n ≤ l.length →
      mapBlocks n g k (mapBlocks n f k l) = l := by
  intro k
  induction k with
  | zero => intro l _; rfl
  | succ k ih =>
    intro l hl
    rw [Nat.succ_mul] at hl
    have hlen : (l.take n).length = n := by rw [List.length_take]; omega
    have hfl : (f (l.take n)).length = n := hf _ hlen
    rw [mapBlocks, mapBlocks, List.take_append_of_le_length (by omega),
      List.drop_append_of_le_length (by omega), List.take_of_length_le (by omega),
      List.drop_of_length_le (by omega), List.nil_append, hg _ hlen,
      ih (l.drop n) (by rw [List.length_drop]; omega), List.take_append_drop]

/-- **A window of whole blocks may be cut out first.** -/
theorem window_mapBlocks (hf : KeepsLength n f) {l : List α} {N : Nat} (hl : l.length = N * n)
    {j k : Nat} (hjk : j + k ≤ N) :
    window (mapBlocks n f N l) (j * n) (k * n) = mapBlocks n f k (window l (j * n) (k * n)) := by
  obtain ⟨m, rfl⟩ : ∃ m, N = j + (k + m) := ⟨N - (j + k), by omega⟩
  rw [Nat.add_mul, Nat.add_mul] at hl
  have hA : (l.take (j * n)).length = j * n := by rw [List.length_take]; omega
  have hB : (window l (j * n) (k * n)).length = k * n := length_window (by omega)
  have hsplit :
      l = l.take (j * n) ++ (window l (j * n) (k * n) ++ (l.drop (j * n)).drop (k * n)) := by
    rw [window, List.take_append_drop, List.take_append_drop]
  have hmapA := length_mapBlocks hf j _ (le_of_eq hA.symm)
  have hmapB := length_mapBlocks hf k _ (le_of_eq hB.symm)
  conv_lhs => rw [hsplit]
  rw [mapBlocks_append j (k + m) _ _ hA, mapBlocks_append k m _ _ hB,
    window_append_right (by omega), hmapA, hA, Nat.sub_self, window_append_left (by omega),
    window, List.drop_zero, List.take_of_length_le (by omega)]

/-! ## A stream of blocks -/

section

variable {σ : Type*} {step : σ → List α → σ}

/-- The first `k` blocks of length `n`, one after the other. -/
def absorbN (n : Nat) (step : σ → List α → σ) : Nat → σ → List α → σ × List α
  | 0, s, l => (s, l)
  | k + 1, s, l => absorbN n step k (step s (l.take n)) (l.drop n)

/-- The state behind the whole blocks of a stream, and what is left of it. -/
def absorb (n : Nat) (step : σ → List α → σ) (s : σ) (l : List α) : σ × List α :=
  absorbN n step (l.length / n) s l

theorem absorb_of_lt {l : List α} (h : l.length < n) (s : σ) : absorb n step s l = (s, l) := by
  rw [absorb, Nat.div_eq_of_lt h, absorbN]

/-- A block is taken off. -/
theorem absorb_of_le {l : List α} (hn : 0 < n) (h : n ≤ l.length) (s : σ) :
    absorb n step s l = absorb n step (step s (l.take n)) (l.drop n) := by
  rw [absorb, Nat.div_eq_sub_div hn h, absorbN, absorb, List.length_drop]

theorem absorb_block_append {b : List α} (hn : 0 < n) (hb : b.length = n) (s : σ) (l : List α) :
    absorb n step s (b ++ l) = absorb n step (step s b) l := by
  have hle : n ≤ (b ++ l).length := by
    rw [List.length_append]
    omega
  rw [absorb_of_le hn hle, List.take_left' hb, List.drop_left' hb]

theorem absorb_block {b : List α} (hn : 0 < n) (hb : b.length = n) (s : σ) :
    absorb n step s b = (step s b, []) := by
  have h : absorb n step s (b ++ []) = absorb n step (step s b) [] :=
    absorb_block_append hn hb s []
  rwa [List.append_nil, absorb_of_lt (l := []) hn] at h

/-- **A stream in two parts** is absorbed part by part. -/
theorem absorb_append (hn : 0 < n) (s : σ) (l l' : List α) : absorb n step s (l ++ l') =
    absorb n step (absorb n step s l).1 ((absorb n step s l).2 ++ l') := by
  induction hlen : l.length using Nat.strong_induction_on generalizing s l with
  | _ m ih =>
    subst hlen
    rcases Nat.lt_or_ge l.length n with h | h
    · rw [absorb_of_lt h s]
    · have hdrop : (l.drop n).length < l.length := by
        rw [List.length_drop]
        omega
      have happ : n ≤ (l ++ l').length := by
        rw [List.length_append]
        omega
      rw [absorb_of_le hn happ, absorb_of_le hn h, List.take_append_of_le_length h,
        List.drop_append_of_le_length h, ih _ hdrop _ _ rfl]

end

end Blocks
