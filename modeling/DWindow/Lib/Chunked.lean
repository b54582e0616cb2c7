import Mathlib.Data.List.Basic

/-!
# A stream in pieces

A stream that comes in pieces, as a list of lists: each read gets at most what is left of the first
piece.  `drop n` is what is left when `n` elements have been read, however the reads were made:
`drop_add` joins reads, and `flatten_drop` says what is left of the stream.  `CutInside` says that a
piece ends strictly between two places, so that no read from the one gets as far as the other
(`length_first`).
-/

namespace Chunked

variable {α : Type*}

/-- What is left of the pieces behind the first `n` elements. -/
def drop : Nat → List (List α) → List (List α)
  | _, [] => []
  | n, c :: cs => if c.length ≤ n then drop (n - c.length) cs else c.drop n :: cs

/-- The first piece, empty when there is none. -/
def first : List (List α) → List α
  | [] => []
  | c :: _ => c

/-- A piece ends strictly between the places `p` and `q`. -/
def CutInside (chunks : List (List α)) (p q : Nat) : Prop :=
  ∃ l r, chunks = l ++ r ∧ p < l.flatten.length ∧ l.flatten.length < q

def Pieces (chunks : List (List α)) : Prop := ∀ c ∈ chunks, c ≠ []

theorem Pieces.drop : ∀ {chunks : List (List α)} (n : Nat), Pieces chunks → Pieces (drop n chunks)
  | [], _, _ => by
    rw [Chunked.drop]
    exact List.forall_mem_nil _
  | c :: cs, n, h => by
    have hcs : Pieces cs := fun d hd => h d (List.mem_cons_of_mem _ hd)
    rw [Chunked.drop]
    split
    · exact Pieces.drop _ hcs
    · next hlt =>
      rintro d (_ | ⟨_, hd⟩)
      · exact fun hnil => hlt (List.drop_eq_nil_iff.mp hnil)
      · exact hcs d hd

theorem drop_zero : ∀ {chunks : List (List α)}, Pieces chunks → drop 0 chunks = chunks
  | [], _ => rfl
  | c :: cs, h => by
    have hc : ¬c.length ≤ 0 := by
      have := List.length_pos_iff.mpr (h c (List.mem_cons_self ..))
      omega
    rw [drop, if_neg hc, List.drop_zero]

theorem flatten_drop : ∀ (n : Nat) (chunks : List (List α)),
    (drop n chunks).flatten = chunks.flatten.drop n
  | _, [] => by simp [drop]
  | n, c :: cs => by
    rw [drop]
    split
    · next hle =>
      rw [flatten_drop (n - c.length) cs, List.flatten_cons, List.drop_append,
        List.drop_eq_nil_of_le hle, List.nil_append]
    · next hlt =>
      rw [List.flatten_cons, List.flatten_cons, List.drop_append_of_le_length (by omega)]

/-- **Reads join**: what is left does not depend on how the elements were read. -/
theorem drop_add : ∀ (m n : Nat) (chunks : List (List α)),
    drop (m + n) chunks = drop n (drop m chunks)
  | _, _, [] => by simp [drop]
  | m, n, c :: cs => by
    rw [drop, drop]
    by_cases hm : c.length ≤ m
    · rw [if_pos (by omega), if_pos hm, ← drop_add (m - c.length) n cs]
      congr 1
      omega
    · rw [if_neg hm, drop, List.length_drop]
      by_cases hmn : c.length ≤ m + n
      · rw [if_pos hmn, if_pos (by omega)]
        congr 1
        omega
      · rw [if_neg hmn, if_neg (by omega), List.drop_drop]

/-- **An element of the stream** stands in a piece. -/
theorem exists_piece {a : α} {rest : List α} : ∀ {chunks : List (List α)} {pre : List α},
    chunks.flatten = pre ++ a :: rest → ∃ done front back todo,
      chunks = done ++ (front ++ a :: back) :: todo ∧ pre = done.flatten ++ front
  | [], pre, h => by simp at h
  | c :: cs, pre, h => by
    rw [List.flatten_cons] at h
    obtain ⟨t, rfl, ht⟩ | ⟨t, rfl, ht⟩ := List.append_eq_append_iff.mp h
    · obtain ⟨done, front, back, todo, hcs, rfl⟩ := exists_piece ht
      exact ⟨c :: done, front, back, todo, by rw [hcs]; rfl, by
        rw [List.flatten_cons, List.append_assoc]⟩
    · cases t with
      | nil =>
        have ht' : cs.flatten = [] ++ a :: rest := ht.symm
        obtain ⟨done, front, back, todo, hcs, hnil⟩ := exists_piece ht'
        refine ⟨(pre ++ []) :: done, front, back, todo, by rw [hcs]; rfl, ?_⟩
        rw [List.flatten_cons, List.append_assoc, ← hnil, List.append_nil, List.append_nil]
      | cons x t =>
        obtain ⟨rfl, -⟩ := List.cons.inj ht
        exact ⟨[], pre, t, cs, rfl, rfl⟩

theorem not_cutInside_nil (p q : Nat) : ¬CutInside ([] : List (List α)) p q := by
  rintro ⟨l, r, h, hp, -⟩
  obtain ⟨rfl, rfl⟩ := List.append_eq_nil_iff.mp h.symm
  exact absurd hp (Nat.not_lt_zero p)

theorem cutInside_cons {c : List α} {cs : List (List α)} {p q : Nat} :
    CutInside (c :: cs) p q ↔
      ∃ l r, cs = l ++ r ∧ p < c.length + l.flatten.length ∧ c.length + l.flatten.length < q := by
  constructor
  · rintro ⟨l, r, h, hp, hq⟩
    cases l with
    | nil => exact absurd hp (Nat.not_lt_zero p)
    | cons d l =>
      obtain ⟨rfl, rfl⟩ := List.cons.inj h
      rw [List.flatten_cons, List.length_append] at hp hq
      exact ⟨l, r, rfl, hp, hq⟩
  · rintro ⟨l, r, rfl, hp, hq⟩
    refine ⟨c :: l, r, rfl, ?_, ?_⟩
    all_goals rwa [List.flatten_cons, List.length_append]

/-- **Places behind what has been read** are cut as they were. -/
theorem cutInside_drop : ∀ {chunks : List (List α)} (n p q : Nat), n ≤ chunks.flatten.length →
    (CutInside (drop n chunks) p q ↔ CutInside chunks (n + p) (n + q))
  | [], n, p, q, _ => by
    rw [drop]
    exact iff_of_false (not_cutInside_nil p q) (not_cutInside_nil _ _)
  | c :: cs, n, p, q, hn => by
    rw [List.flatten_cons, List.length_append] at hn
    rw [drop, cutInside_cons]
    by_cases hle : c.length ≤ n
    · rw [if_pos hle, cutInside_drop (n - c.length) p q (by omega)]
      refine exists_congr fun l => exists_congr fun r => and_congr_right fun _ => ?_
      omega
    · rw [if_neg hle, cutInside_cons]
      refine exists_congr fun l => exists_congr fun r => and_congr_right fun _ => ?_
      rw [List.length_drop]
      omega

/-- **A read of `n` elements gets all of them** exactly when no piece ends inside. -/
theorem length_first {chunks : List (List α)} {n : Nat} (hpieces : Pieces chunks)
    (hn : n ≤ chunks.flatten.length) : n ≤ (first chunks).length ↔ ¬CutInside chunks 0 n := by
  cases chunks with
  | nil => exact iff_of_true hn (not_cutInside_nil 0 n)
  | cons c cs =>
    rw [cutInside_cons]
    change n ≤ c.length ↔ _
    constructor
    · rintro hle ⟨l, r, -, -, hlt⟩
      omega
    · intro hnot
      by_contra hgt
      have hc := List.length_pos_iff.mpr (hpieces c (List.mem_cons_self ..))
      exact hnot ⟨[], cs, rfl, by simpa using hc, by simpa using hgt⟩

end Chunked
