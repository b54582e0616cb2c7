import DWindow.Mvc.Delimeter

/-!
# Start codes

What a stream is made of, apart from any buffer: it is cut in front of each start
code, the search going on behind the first three bytes of the one before.  A list
of NAL units is `Chained` if cutting their concatenation gives them back.  Against
this the search of `read_a_nal` is held, which sees one window of the stream at a
time.
-/

namespace DWindow.Mvc

def nextStartCode : List UInt8 → Option Nat
  | [] => none
  | b :: l => if isStartCode (b :: l) then some 0 else (nextStartCode l).map (· + 1)

/-- The length of the unit at the front of a stream. -/
def nalLength (l : List UInt8) : Nat :=
  ((nextStartCode (l.drop 3)).map (3 + ·)).getD l.length

/-- The units of a stream, of at most `fuel` of them. -/
def nalsLoop : Nat → List UInt8 → List (List UInt8)
  | 0, _ => []
  | fuel + 1, l =>
    if l = [] then [] else l.take (nalLength l) :: nalsLoop fuel (l.drop (nalLength l))

/-- The NAL units of a stream. -/
def nals (l : List UInt8) : List (List UInt8) := nalsLoop l.length l

theorem isStartCode_iff {l : List UInt8} :
    isStartCode l = true ↔ (∃ r, l = 0 :: 0 :: 0 :: 1 :: r) ∨ ∃ r, l = 0 :: 0 :: 1 :: r := by
  constructor
  · intro h
    unfold isStartCode at h
    split at h
    · next r => exact .inl ⟨r, rfl⟩
    · next r => exact .inr ⟨r, rfl⟩
    · simp at h
  · rintro (⟨r, rfl⟩ | ⟨r, rfl⟩) <;> rfl

theorem isStartCode_append {l : List UInt8} (r : List UInt8) (h : isStartCode l = true) :
    isStartCode (l ++ r) = true := by
  rcases isStartCode_iff.mp h with ⟨t, rfl⟩ | ⟨t, rfl⟩ <;> rfl

theorem isStartCode_length {l : List UInt8} (h : isStartCode l = true) : 3 ≤ l.length := by
  rcases isStartCode_iff.mp h with ⟨t, rfl⟩ | ⟨t, rfl⟩ <;> simp

theorem isStartCode_take {l : List UInt8} {k : Nat} (hk : 4 ≤ k) :
    isStartCode (l.take k) = isStartCode l := by
  by_cases h : isStartCode l = true
  · rw [h]
    obtain ⟨k, rfl⟩ := Nat.exists_eq_add_of_le' hk
    rcases isStartCode_iff.mp h with ⟨r, rfl⟩ | ⟨r, rfl⟩ <;> rfl
  · rw [Bool.eq_false_iff.mpr h, Bool.eq_false_iff]
    intro h'
    exact h (by simpa using isStartCode_append (l.drop k) h')

/-- The search of `read_a_nal` finds the first start code, if it is among its
places. -/
theorem findStartCode_eq (n i : Nat) (l : List UInt8) :
    findStartCode n i l = ((nextStartCode l).filter (fun j => decide (j < n))).map (i + ·) := by
  induction n generalizing i l with
  | zero => cases nextStartCode l <;> simp [findStartCode]
  | succ n ih =>
    cases l with
    | nil => simp [findStartCode, isStartCode, nextStartCode, ih]
    | cons b l =>
      rw [findStartCode, nextStartCode]
      by_cases h : isStartCode (b :: l) = true
      · simp [h]
      · rw [if_neg h, if_neg h, List.tail_cons, ih]
        cases nextStartCode l with
        | none => rfl
        | some j =>
          by_cases hj : j < n
          · simp [Option.filter, hj]
            omega
          · simp [Option.filter, hj]

/-- A window shows every start code that lies in its first bytes. -/
theorem nextStartCode_take (l : List UInt8) (k : Nat) :
    (nextStartCode (l.take k)).filter (fun j => decide (j + 4 ≤ k)) =
      (nextStartCode l).filter (fun j => decide (j + 4 ≤ k)) := by
  induction l generalizing k with
  | nil => simp
  | cons b l ih =>
    by_cases hk : 4 ≤ k
    · obtain ⟨k, rfl⟩ : ∃ m, k = m + 1 := ⟨k - 1, by omega⟩
      have hcode : isStartCode (b :: l.take k) = isStartCode (b :: l) := by
        rw [← List.take_succ_cons, isStartCode_take hk]
      rw [List.take_succ_cons, nextStartCode, nextStartCode, hcode]
      split
      · rfl
      · have shift (o : Option Nat) : (o.map (· + 1)).filter (fun j => decide (j + 4 ≤ k + 1)) =
            (o.filter (fun j => decide (j + 4 ≤ k))).map (· + 1) := by
          cases o with
          | none => rfl
          | some j => by_cases hj : j + 4 ≤ k <;> simp [Option.filter, hj]
        rw [shift, shift, ih]
    · have (o : Option Nat) : o.filter (fun j => decide (j + 4 ≤ k)) = none := by
        cases o with
        | none => rfl
        | some j => simp [Option.filter]; omega
      rw [this, this]

theorem nextStartCode_some {l : List UInt8} {j : Nat} (h : nextStartCode l = some j) :
    j < l.length ∧ isStartCode (l.drop j) = true := by
  induction l generalizing j with
  | nil => simp [nextStartCode] at h
  | cons b l ih =>
    rw [nextStartCode] at h
    split at h
    · next hcode =>
      obtain rfl : 0 = j := by simpa using h
      exact ⟨by simp, hcode⟩
    · obtain ⟨i, hi, rfl⟩ := Option.map_eq_some_iff.mp h
      obtain ⟨hlt, hcode⟩ := ih hi
      exact ⟨by simpa using hlt, hcode⟩

/-- The units of a stream one after another: each begins with a start code and
ends where the search finds the next one, with a byte behind it. -/
def Chained : List (List UInt8) → Prop
  | [] => True
  | n :: ns => isStartCode n = true ∧ 4 ≤ (n ++ ns.flatten).length ∧
      nextStartCode ((n ++ ns.flatten).drop 3) =
        (if ns = [] then none else some (n.length - 3)) ∧
      Chained ns

theorem nalLength_pos {l : List UInt8} (h : l ≠ []) : 0 < nalLength l := by
  have := List.length_pos_iff.mpr h
  unfold nalLength
  cases nextStartCode (l.drop 3) with
  | none => exact this
  | some j => exact Nat.lt_of_lt_of_le (by decide) (Nat.le_add_right 3 j)

/-- No start code at the very end. -/
def Followed (l : List UInt8) : Prop := ¬ [0, 0, 1] <:+ l

theorem Followed.drop {l : List UInt8} (h : Followed l) (k : Nat) : Followed (l.drop k) :=
  fun hs => h (hs.trans (List.drop_suffix k l))

theorem Followed.length {l : List UInt8} (h : Followed l) (hs : isStartCode l = true) :
    4 ≤ l.length := by
  rcases isStartCode_iff.mp hs with ⟨r, rfl⟩ | ⟨r, rfl⟩
  · simp
  · cases r with
    | nil => exact absurd (List.suffix_refl _) h
    | cons b r => simp

theorem isStartCode_nal {l : List UInt8} (h : isStartCode l = true) :
    isStartCode (l.take (nalLength l)) = true := by
  have hcut {j : Nat} (hj : nextStartCode (l.drop 3) = some j) :
      isStartCode (l.take (3 + j)) = true := by
    rcases isStartCode_iff.mp h with ⟨r, rfl⟩ | ⟨r, rfl⟩
    · -- the place behind three zeros is no start code
      obtain ⟨j, rfl⟩ : ∃ m, j = m + 1 := by
        rcases j with _ | j
        · have := (nextStartCode_some hj).2
          simp [isStartCode] at this
        · exact ⟨j, rfl⟩
      rw [show 3 + (j + 1) = j + 1 + 1 + 1 + 1 by omega]
      rfl
    · rw [show 3 + j = j + 1 + 1 + 1 by omega]
      rfl
  unfold nalLength
  cases hj : nextStartCode (l.drop 3) with
  | none => simpa using h
  | some j => simpa using hcut hj

theorem nalsLoop_spec (fuel : Nat) {l : List UInt8} (hs : l ≠ [] → isStartCode l = true)
    (hf : Followed l) (hfuel : l.length ≤ fuel) :
    (nalsLoop fuel l).flatten = l ∧ Chained (nalsLoop fuel l) := by
  induction fuel generalizing l with
  | zero =>
    obtain rfl : l = [] := List.length_eq_zero_iff.mp (by omega)
    exact ⟨rfl, trivial⟩
  | succ fuel ih =>
    rw [nalsLoop]
    by_cases hl : l = []
    · simp [hl, Chained]
    · rw [if_neg hl]
      have hpos := nalLength_pos hl
      have hnext : l.drop (nalLength l) ≠ [] → isStartCode (l.drop (nalLength l)) = true := by
        intro hne
        unfold nalLength at hne ⊢
        cases hj : nextStartCode (l.drop 3) with
        | none => simp [hj] at hne
        | some j => simpa [hj] using (nextStartCode_some hj).2
      obtain ⟨hflat, hchain⟩ := ih hnext (hf.drop _) (by rw [List.length_drop]; omega)
      have hwhole : l.take (nalLength l) ++ (nalsLoop fuel (l.drop (nalLength l))).flatten = l := by
        rw [hflat, List.take_append_drop]
      refine ⟨by rw [List.flatten_cons, hwhole], isStartCode_nal (hs hl), ?_, ?_, hchain⟩
      · rw [hwhole]
        exact hf.length (hs hl)
      · rw [hwhole]
        cases hj : nextStartCode (l.drop 3) with
        | none =>
          have : l.drop (nalLength l) = [] := by simp [nalLength, hj]
          rw [if_pos]
          rw [this]
          cases fuel <;> simp [nalsLoop]
        | some j =>
          have hlt := (nextStartCode_some hj).1
          rw [List.length_drop] at hlt
          have hlen : nalLength l = 3 + j := by simp [nalLength, hj]
          rw [if_neg]
          · rw [List.length_take, hlen]
            congr 1
            omega
          · intro hnil
            rw [hnil, List.flatten_nil] at hflat
            have := congrArg List.length hflat
            rw [List.length_drop, List.length_nil] at this
            omega

/-- A stream that begins with a start code is the chain of its units. -/
theorem nals_spec {l : List UInt8} (hs : isStartCode l = true) (hf : Followed l) :
    (nals l).flatten = l ∧ Chained (nals l) :=
  nalsLoop_spec l.length (fun _ => hs) hf (Nat.le_refl _)

theorem Chained.tail {n : List UInt8} {ns : List (List UInt8)} (h : Chained (n :: ns)) :
    Chained ns := h.2.2.2

/-- Every unit of a chain but the last has four bytes behind it at least. -/
theorem Chained.length_tail {ns : List (List UInt8)} (h : Chained ns) (hns : ns ≠ []) :
    4 ≤ ns.flatten.length := by
  cases ns with
  | nil => exact absurd rfl hns
  | cons n ns => exact h.2.1

/-- `read_a_nal` where each start code has a byte behind it.  The search ends three
bytes before the end of the window. -/
theorem readANal_eq {rest : List UInt8} (hlen : 3 ≤ rest.length)
    (hroom : ∀ j, nextStartCode (rest.drop 3) = some j → j + 7 ≤ rest.length) :
    readANal rest = some ((((nextStartCode (rest.drop 3)).filter
      (fun j => decide (j + 7 ≤ maxNalSize))).map (3 + ·)).getD (min maxNalSize rest.length)) := by
  have hmax : 7 ≤ maxNalSize := by decide
  have htake := nextStartCode_take (rest.drop 3) (maxNalSize - 3)
  have hplaces (o : Option Nat) : o.filter (fun j => decide (j + 4 ≤ maxNalSize - 3)) =
      o.filter (fun j => decide (j + 7 ≤ maxNalSize)) := by
    congr 1
    funext j
    exact decide_eq_decide.mpr (by omega)
  rw [hplaces, hplaces] at htake
  have hread : (rest.take maxNalSize).length = min maxNalSize rest.length := List.length_take
  unfold readANal
  rw [if_neg (by omega), if_neg (by omega), findStartCode_eq, List.drop_take, hread, ← htake]
  congr 3
  by_cases hbig : maxNalSize ≤ rest.length
  · congr 1
    funext j
    rw [Nat.min_eq_left hbig]
    exact decide_eq_decide.mpr (by omega)
  · have hall : (rest.drop 3).take (maxNalSize - 3) = rest.drop 3 :=
      List.take_of_length_le (by rw [List.length_drop]; omega)
    rw [hall, Nat.min_eq_right (by omega)]
    cases hj : nextStartCode (rest.drop 3) with
    | none => rfl
    | some j =>
      have := hroom j hj
      rw [Option.filter_some, Option.filter_some, if_pos (decide_eq_true (by omega)),
        if_pos (decide_eq_true (by omega))]

/-- `read_a_nal` on a chain: the unit must leave room in the window for a start code
and a byte. -/
theorem readANal_chained {n : List UInt8} {ns : List (List UInt8)} (h : Chained (n :: ns)) :
    readANal (n ++ ns.flatten) = some
      (if ns = [] then min maxNalSize n.length
        else if n.length + 4 ≤ maxNalSize then n.length else maxNalSize) := by
  have hn : 3 ≤ n.length := isStartCode_length h.1
  obtain ⟨-, hlen, hnext, htail⟩ := h
  by_cases hns : ns = []
  · rw [if_pos hns] at hnext
    rw [readANal_eq (by omega) (by simp [hnext]), hnext, if_pos hns]
    simp [hns]
  · have htail := htail.length_tail hns
    rw [if_neg hns] at hnext
    rw [List.length_append] at hlen
    rw [readANal_eq (by rw [List.length_append]; omega), hnext, if_neg hns, List.length_append,
      Option.filter_some]
    · by_cases hfit : n.length + 4 ≤ maxNalSize
      · rw [if_pos hfit, if_pos (decide_eq_true (by omega)), Option.map_some, Option.getD_some]
        congr 1
        omega
      · rw [if_neg hfit, if_neg (by rw [decide_eq_true_eq]; omega), Option.map_none,
          Option.getD_none]
        congr 1
        omega
    · intro j hj
      rw [hnext] at hj
      cases hj
      rw [List.length_append]
      omega

/-- A unit with a start code of four bytes and no other start code. -/
def FourCoded (n : List UInt8) : Prop :=
  ∃ r, n = 0 :: 0 :: 0 :: 1 :: r ∧ nextStartCode r = none

/-- No start code begins in `a` and ends in the zeros behind it. -/
theorem not_isStartCode_append {a : List UInt8} (r : List UInt8) (ha : a ≠ [])
    (h : isStartCode a ≠ true) : isStartCode (a ++ 0 :: 0 :: 0 :: 1 :: r) ≠ true := by
  rcases a with _ | ⟨b, _ | ⟨c, _ | ⟨d, _ | ⟨e, a⟩⟩⟩⟩
  · exact absurd rfl ha
  · simp [isStartCode]
  · simp [isStartCode]
  · intro h'
    rcases isStartCode_iff.mp h' with ⟨t, ht⟩ | ⟨t, ht⟩
    · simp at ht
    · simp only [List.cons_append, List.nil_append, List.cons.injEq] at ht
      obtain ⟨rfl, rfl, rfl, -⟩ := ht
      exact h rfl
  · intro h'
    rw [← isStartCode_take (k := 4) (Nat.le_refl 4)] at h' h
    exact h h'

theorem nextStartCode_append {a : List UInt8} (r : List UInt8) (h : nextStartCode a = none) :
    nextStartCode (a ++ 0 :: 0 :: 0 :: 1 :: r) = some a.length := by
  induction a with
  | nil => rfl
  | cons b a ih =>
    rw [nextStartCode] at h
    split at h
    · cases h
    · next hcode =>
      have hcode' := not_isStartCode_append r (by simp) hcode
      rw [List.cons_append] at hcode' ⊢
      rw [nextStartCode, if_neg hcode', ih (Option.map_eq_none_iff.mp h)]
      rfl

/-- Units with start codes of four bytes can stand one after another. -/
theorem chained_of_fourCoded {ns : List (List UInt8)} (h : ∀ n ∈ ns, FourCoded n) :
    Chained ns := by
  induction ns with
  | nil => trivial
  | cons n ns ih =>
    obtain ⟨r, rfl, hr⟩ := h n (by simp)
    have hnone : nextStartCode (1 :: r) = none := by
      rw [nextStartCode, if_neg (by simp [isStartCode]), hr]
      rfl
    refine ⟨rfl, by simp, ?_, ih (fun m hm => h m (by simp [hm]))⟩
    cases ns with
    | nil => simpa using hnone
    | cons m ns =>
      obtain ⟨t, rfl, -⟩ := h m (by simp)
      exact nextStartCode_append _ hnone

/-- More bytes bring no later first start code. -/
theorem nextStartCode_extend {a : List UInt8} (b : List UInt8) {j : Nat}
    (h : nextStartCode a = some j) : ∃ i ≤ j, nextStartCode (a ++ b) = some i := by
  induction a generalizing j with
  | nil => simp [nextStartCode] at h
  | cons c a ih =>
    rw [nextStartCode] at h
    rw [List.cons_append, nextStartCode]
    split at h
    · next hcode =>
      rw [if_pos (by simpa using isStartCode_append b hcode)]
      exact ⟨0, Nat.zero_le _, rfl⟩
    · obtain ⟨k, hk, rfl⟩ := Option.map_eq_some_iff.mp h
      obtain ⟨i, hi, hi'⟩ := ih hk
      split
      · exact ⟨0, Nat.zero_le _, rfl⟩
      · exact ⟨i + 1, by omega, by rw [hi']; rfl⟩

/-- What a unit of a chain holds behind its start code has none. -/
theorem Chained.no_code {n : List UInt8} {ns : List (List UInt8)} (h : Chained (n :: ns)) :
    nextStartCode (n.drop 3) = none := by
  have hn : 3 ≤ n.length := isStartCode_length h.1
  cases hj : nextStartCode (n.drop 3) with
  | none => rfl
  | some j =>
    obtain ⟨i, hi, hi'⟩ := nextStartCode_extend ns.flatten hj
    have hlt := (nextStartCode_some hj).1
    rw [← List.drop_append_of_le_length hn, h.2.2.1] at hi'
    rw [List.length_drop] at hlt
    split at hi'
    · cases hi'
    · cases hi'
      omega

end DWindow.Mvc
