import Mathlib.Algebra.BigOperators.Group.List.Basic
import Mathlib.Data.List.Range
import Mathlib.Data.List.Rotate
import Mathlib.Data.Nat.ModEq
import Mathlib.Tactic.Linarith

/-!
# Filling a buffer

A buffer is a list, and what is written to a place of it replaces what stood there.
`foldl_writeAt` is the buffer that a loop leaves which writes blocks of one length one
behind the other, and `getD_fill` what a loop leaves that writes single places in any order.

A ring is a buffer that is read from a place on and round its end, `buf.rotate p`:
`rotate_fill` is what a loop leaves there that writes it round the end.
-/

namespace Buffer

variable {α : Type*}

/-- Write `bs` at place `p`. -/
def writeAt (buf : List α) (p : Nat) (bs : List α) : List α :=
  buf.take p ++ bs ++ buf.drop (p + bs.length)

theorem length_writeAt {buf bs : List α} {p : Nat} (h : p + bs.length ≤ buf.length) :
    (writeAt buf p bs).length = buf.length := by
  simp only [writeAt, List.length_append, List.length_take, List.length_drop]
  omega

theorem take_writeAt {buf : List α} {p q : Nat} (hq : q ≤ p) (hp : p ≤ buf.length)
    (bs : List α) : (writeAt buf p bs).take q = buf.take q := by
  rw [writeAt, List.append_assoc, List.take_append_of_le_length (by rw [List.length_take]; omega),
    List.take_take, min_eq_left hq]

theorem drop_writeAt {buf bs : List α} {p q : Nat} (hq : p + bs.length ≤ q)
    (hp : p ≤ buf.length) : (writeAt buf p bs).drop q = buf.drop q := by
  have hfront : (buf.take p ++ bs).length = p + bs.length := by
    rw [List.length_append, List.length_take, min_eq_left hp]
  rw [writeAt, List.drop_append, List.drop_of_length_le (by omega), List.nil_append,
    List.drop_drop, hfront]
  congr 1
  omega

/-- **Blocks written one behind the other**: what stood in front of the first, the blocks, and
what stood behind the last. -/
theorem foldl_writeAt {n : Nat} {g : Nat → List α} : ∀ (k : Nat) (buf : List α),
    (∀ i, 1 ≤ i → i ≤ k → (g i).length = n) → n * (k + 1) ≤ buf.length →
    (List.range' 1 k).foldl (fun buf i => writeAt buf (n * i) (g i)) buf =
      buf.take n ++ (List.range' 1 k).flatMap g ++ buf.drop (n * (k + 1)) := by
  intro k
  induction k with
  | zero =>
    intro buf _ _
    simp
  | succ k ih =>
    intro buf hg hbuf
    have hroom : n * (k + 1 + 1) = n * (k + 1) + n := Nat.mul_succ n (k + 1)
    have hlast : (g (k + 1)).length = n := hg (k + 1) (by omega) (Nat.le_refl _)
    rw [List.range'_1_concat, Nat.add_comm 1 k, List.foldl_append, List.flatMap_append,
      ih buf (fun i h1 hk => hg i h1 (by omega)) (by omega)]
    have hblocks : ((List.range' 1 k).flatMap g).length = n * k := by
      have hlens : (List.range' 1 k).map (fun i => (g i).length) =
          (List.range' 1 k).map fun _ => n := by
        refine List.map_congr_left fun i hi => ?_
        rw [List.mem_range'_1] at hi
        exact hg i hi.1 (by omega)
      rw [List.length_flatMap, hlens, List.map_const', List.sum_replicate, List.length_range',
        Nat.nsmul_eq_mul, Nat.mul_comm]
    have hfront : (buf.take n ++ (List.range' 1 k).flatMap g).length = n * (k + 1) := by
      have hsucc : n * (k + 1) = n * k + n := Nat.mul_succ n k
      rw [List.length_append, List.length_take, hblocks, min_eq_left (by omega), hsucc]
      exact Nat.add_comm _ _
    rw [List.foldl_cons, List.foldl_nil, writeAt, hlast,
      List.take_left' hfront, List.drop_append, List.drop_of_length_le (by omega),
      List.nil_append, List.drop_drop, hfront, hroom, Nat.add_sub_cancel_left]
    simp only [List.flatMap_cons, List.flatMap_nil, List.append_nil, List.append_assoc]

theorem flatMap_inj {n : Nat} {g g' : Nat → List α} : ∀ {l : List Nat},
    (∀ i ∈ l, (g i).length = n ∧ (g' i).length = n) →
    (l.flatMap g = l.flatMap g' ↔ ∀ i ∈ l, g i = g' i) := by
  intro l
  induction l with
  | nil => intro _; exact iff_of_true rfl (fun i hi => absurd hi List.not_mem_nil)
  | cons i l ih =>
    intro h
    rw [List.forall_mem_cons] at h
    rw [List.flatMap_cons, List.flatMap_cons, List.forall_mem_cons, ← ih h.2]
    exact ⟨fun he => List.append_inj he (h.1.1.trans h.1.2.symm), fun he => he.1 ▸ he.2 ▸ rfl⟩

/-! ## Tables -/

/-- The loop that writes `val i` to place `key i`. -/
def fill (key : Nat → Nat) (val : Nat → α) (n : Nat) (table : List α) : List α :=
  (List.range n).foldl (fun table i => table.set (key i) (val i)) table

theorem fill_succ (key : Nat → Nat) (val : Nat → α) (n : Nat) (table : List α) :
    fill key val (n + 1) table = (fill key val n table).set (key n) (val n) := by
  rw [fill, List.range_succ, List.foldl_append]
  rfl

theorem length_fill (key : Nat → Nat) (val : Nat → α) (n : Nat) (table : List α) :
    (fill key val n table).length = table.length := by
  induction n with
  | zero => rfl
  | succ n ih => rw [fill_succ, List.length_set, ih]

/-- **What is written last** to a place is found there. -/
theorem getD_fill {f : Nat → Nat} {g : Nat → α} {l : List α} {i n : Nat} (hi : i < n)
    (hplace : f i < l.length) (hlast : ∀ j, i < j → j < n → f j ≠ f i) (d : α) :
    (fill f g n l).getD (f i) d = g i := by
  induction n with
  | zero => exact absurd hi (Nat.not_lt_zero i)
  | succ n ih =>
    rw [fill_succ, List.getD_eq_getElem?_getD, List.getElem?_set]
    rcases Nat.lt_succ_iff_lt_or_eq.mp hi with hin | rfl
    · rw [if_neg (hlast n hin (Nat.lt_succ_self n)), ← List.getD_eq_getElem?_getD]
      exact ih hin fun j hij hj => hlast j hij (Nat.lt_succ_of_lt hj)
    · rw [if_pos rfl, if_pos (by rwa [length_fill]), Option.getD_some]

theorem map_getD_range (l : List α) (d : α) : ∀ {n : Nat}, n ≤ l.length →
    (List.range n).map (fun i => l.getD i d) = l.take n := by
  intro n
  induction n with
  | zero => intro _; rfl
  | succ n ih =>
    intro h
    rw [List.range_succ, List.map_append, ih (by omega), List.map_cons, List.map_nil,
      List.take_add_one, List.getD_eq_getElem?_getD, List.getElem?_eq_getElem (by omega),
      Option.toList_some, Option.getD_some]

/-! ## Rings -/

/-- Up to the end of the buffer, the ring is what stands there. -/
theorem take_rotate {buf : List α} {p n : Nat} (h : p + n ≤ buf.length) :
    (buf.rotate p).take n = (buf.drop p).take n := by
  rw [List.rotate_eq_drop_append_take (by omega),
    List.take_append_of_le_length (by rw [List.length_drop]; omega)]

theorem rotate_set (buf : List α) {i : Nat} (hi : i < buf.length) (p : Nat) (x : α) :
    (buf.set ((p + i) % buf.length) x).rotate p = (buf.rotate p).set i x := by
  refine List.ext_getElem (by simp) fun j hj hj' => ?_
  rw [List.length_set, List.length_rotate] at hj'
  have hplace : (p + i) % buf.length = (j + p) % buf.length ↔ i = j := by
    rw [Nat.add_comm j p]
    refine ⟨fun h => ?_, fun h => h ▸ rfl⟩
    have hmod : i ≡ j [MOD buf.length] := Nat.ModEq.add_left_cancel' p h
    rwa [Nat.ModEq, Nat.mod_eq_of_lt hi, Nat.mod_eq_of_lt hj'] at hmod
  simp only [List.getElem_rotate, List.getElem_set, List.length_set, hplace]

theorem rotate_writeAt {buf bs : List α} {p : Nat} (h : p + bs.length ≤ buf.length) :
    (writeAt buf p bs).rotate p = bs ++ (buf.rotate p).drop bs.length := by
  have hp : (buf.take p).length = p := by rw [List.length_take, min_eq_left (by omega)]
  have hb : bs.length ≤ (buf.drop p).length := by rw [List.length_drop]; omega
  rw [List.rotate_eq_drop_append_take (by rw [length_writeAt h]; omega),
    List.rotate_eq_drop_append_take (by omega), take_writeAt (Nat.le_refl p) (by omega), writeAt,
    List.append_assoc, List.drop_left' hp, List.drop_append_of_le_length hb, List.drop_drop,
    List.append_assoc]

/-- What is written in two pieces, the second to the front of the buffer. -/
theorem rotate_writeAt_round {buf bs : List α} {p : Nat} (hp : p ≤ buf.length)
    (hbs : bs.length ≤ buf.length) (h : buf.length ≤ p + bs.length) :
    (writeAt (writeAt buf p (bs.take (buf.length - p))) 0 (bs.drop (buf.length - p))).rotate p =
      bs ++ (buf.rotate p).drop bs.length := by
  have hpiece : (bs.take (buf.length - p)).length = buf.length - p := by
    rw [List.length_take, min_eq_left (by omega)]
  have hrest : (bs.drop (buf.length - p)).length = p + bs.length - buf.length := by
    rw [List.length_drop]; omega
  have hfirst : writeAt buf p (bs.take (buf.length - p)) =
      buf.take p ++ bs.take (buf.length - p) := by
    rw [writeAt, List.drop_of_length_le (by rw [hpiece]; omega), List.append_nil]
  have htake : (buf.take p).length = p := by rw [List.length_take, min_eq_left hp]
  have hfront : (bs.drop (buf.length - p) ++
      (buf.take p).drop (p + bs.length - buf.length)).length = p := by
    rw [List.length_append, hrest, List.length_drop, htake]; omega
  have hwhole : writeAt (writeAt buf p (bs.take (buf.length - p))) 0 (bs.drop (buf.length - p)) =
      bs.drop (buf.length - p) ++ (buf.take p).drop (p + bs.length - buf.length) ++
        bs.take (buf.length - p) := by
    rw [hfirst, writeAt, List.take_zero, List.nil_append, hrest, Nat.zero_add,
      List.drop_append_of_le_length (by rw [htake]; omega), List.append_assoc]
  have hdrop : (buf.drop p).length = buf.length - p := List.length_drop
  rw [hwhole, List.rotate_eq_drop_append_take (by rw [List.length_append, hfront]; omega),
    List.drop_left' hfront, List.take_left' hfront, ← List.append_assoc, List.take_append_drop,
    List.rotate_eq_drop_append_take hp, List.drop_append, hdrop,
    List.drop_of_length_le (show (buf.drop p).length ≤ bs.length by omega), List.nil_append,
    show bs.length - (buf.length - p) = p + bs.length - buf.length by omega]

/-- **A loop round the end**: what it writes stands behind the first `s` entries of the
ring. -/
theorem rotate_fill (buf : List α) (p s : Nat) (val : Nat → α) : ∀ {n : Nat},
    s + n ≤ buf.length →
    (fill (fun i => (p + (s + i)) % buf.length) val n buf).rotate p =
      (buf.rotate p).take s ++ (List.range n).map val ++ (buf.rotate p).drop (s + n) := by
  intro n
  induction n with
  | zero => intro _; exact ((List.append_nil _).symm ▸ (List.take_append_drop s _).symm)
  | succ n ih =>
    intro h
    have hfront : ((buf.rotate p).take s ++ (List.range n).map val).length = s + n := by
      rw [List.length_append, List.length_take, List.length_rotate, List.length_map,
        List.length_range, min_eq_left (by omega)]
    have hnext : s + n < (buf.rotate p).length := by rw [List.length_rotate]; omega
    have hset := rotate_set (fill (fun i => (p + (s + i)) % buf.length) val n buf)
      (i := s + n) (by rw [length_fill]; omega) p (val n)
    rw [length_fill] at hset
    rw [fill_succ, hset, ih (by omega), List.set_append_right _ _ (by rw [hfront]), hfront,
      Nat.sub_self, List.drop_eq_getElem_cons hnext, List.set_cons_zero, List.range_succ,
      List.map_append, List.map_cons, List.map_nil, List.append_assoc, List.append_assoc,
      List.append_assoc, List.singleton_append, Nat.add_assoc]

end Buffer
