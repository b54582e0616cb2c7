import Mathlib.Data.Nat.Digits.Lemmas

/-!
# Decimal numerals in wide text

`printf` and `scanf` on wide strings, as far as non-negative integers go.
A wide character is its UTF-16 code unit.  `decimal n` is what `%d` prints and
`padded w n` what `%0wd` prints.
-/

namespace Decimal

def digitChar (d : Nat) : UInt16 := UInt16.ofNat (48 + d)

/-- `%d` of a non-negative number. -/
def decimal (n : Nat) : List UInt16 :=
  if n = 0 then [digitChar 0] else (Nat.digits 10 n).reverse.map digitChar

/-- `%0wd` of a non-negative number. -/
def padded (w n : Nat) : List UInt16 :=
  List.replicate (w - (decimal n).length) (digitChar 0) ++ decimal n

def isDigit (c : UInt16) : Bool := 48 ≤ c && c ≤ 57

def value (digits : List UInt16) : Nat := digits.foldl (fun n c => 10 * n + (c.toNat - 48)) 0

def isSpace (c : UInt16) : Bool := c == 32 || (9 ≤ c && c ≤ 13)

/-- An optional sign: whether it is a minus, and what follows. -/
def scanSign : List UInt16 → Bool × List UInt16
  | [] => (false, [])
  | c :: cs => if c = 45 then (true, cs) else if c = 43 then (false, cs) else (false, c :: cs)

/-- `%d`: the number in front, behind white space and with a sign, and what
follows it. -/
def scanInt (str : List UInt16) : Option (Int × List UInt16) :=
  let (negative, rest) := scanSign (str.dropWhile isSpace)
  let digits := rest.takeWhile isDigit
  if digits = [] then none
  else some (if negative then -(value digits : Int) else value digits, rest.dropWhile isDigit)

/-! ## What a printed number is worth -/

theorem toNat_digitChar : ∀ d < 10, (digitChar d).toNat - 48 = d := by decide

theorem isDigit_digitChar : ∀ d < 10, isDigit (digitChar d) = true := by decide

theorem value_append (xs ys : List UInt16) :
    value (xs ++ ys) = ys.foldl (fun n c => 10 * n + (c.toNat - 48)) (value xs) := by
  rw [value, List.foldl_append]
  rfl

theorem value_reverse_map : ∀ ds : List Nat, (∀ d ∈ ds, d < 10) →
    value (ds.reverse.map digitChar) = Nat.ofDigits 10 ds := by
  intro ds
  induction ds with
  | nil => intro _; rfl
  | cons d ds ih =>
    intro h
    have hd := toNat_digitChar d (h d (List.mem_cons_self ..))
    rw [List.reverse_cons, List.map_append, value_append,
      ih (fun e he => h e (List.mem_cons_of_mem _ he)), Nat.ofDigits_cons]
    simp only [List.map_cons, List.map_nil, List.foldl_cons, List.foldl_nil, hd]
    exact Nat.add_comm _ _

/-- **The digits of `%d` are worth the number.** -/
theorem value_decimal (n : Nat) : value (decimal n) = n := by
  rw [decimal]
  split
  · next h => rw [h]; decide
  · rw [value_reverse_map _ (fun d hd => Nat.digits_lt_base (by omega) hd), Nat.ofDigits_digits]

theorem value_padded (w n : Nat) : value (padded w n) = n := by
  have hzeros : ∀ k, value (List.replicate k (digitChar 0)) = 0 := by
    intro k
    induction k with
    | zero => rfl
    | succ k ih => rw [List.replicate_succ', value_append, ih]; decide
  rw [padded, value_append, hzeros]
  exact value_decimal n

theorem padded_injective (w : Nat) : Function.Injective (padded w) := by
  intro m n h
  rw [← value_padded w m, h, value_padded]

theorem isDigit_of_mem_decimal {c : UInt16} {n : Nat} (h : c ∈ decimal n) : isDigit c = true := by
  rw [decimal] at h
  split at h
  · rw [List.mem_singleton.mp h]
    decide
  · obtain ⟨d, hd, rfl⟩ := List.mem_map.mp h
    exact isDigit_digitChar d (Nat.digits_lt_base (by omega) (List.mem_reverse.mp hd))

theorem isDigit_of_mem_padded {c : UInt16} {w n : Nat} (h : c ∈ padded w n) :
    isDigit c = true := by
  rcases List.mem_append.mp h with h | h
  · rw [List.eq_of_mem_replicate h]
    decide
  · exact isDigit_of_mem_decimal h

example : padded 3 7 = [48, 48, 55] := by decide

theorem decimal_ne_nil (n : Nat) : decimal n ≠ [] := by
  unfold decimal
  split
  · exact List.cons_ne_nil _ _
  · next h =>
    rw [ne_eq, List.map_eq_nil_iff, List.reverse_eq_nil_iff]
    exact Nat.digits_ne_nil_iff_ne_zero.mpr h

theorem padded_ne_nil (w n : Nat) : padded w n ≠ [] := by
  unfold padded
  exact List.append_ne_nil_of_right_ne_nil _ (decimal_ne_nil n)

theorem length_decimal_le {n k : Nat} (hk : 0 < k) (h : n < 10 ^ k) :
    (decimal n).length ≤ k := by
  unfold decimal
  split
  · exact hk
  · rw [List.length_map, List.length_reverse]
    exact (Nat.digits_length_le_iff (by omega) n).mpr h

theorem length_padded_le {w n k : Nat} (hk : 0 < k) (hw : w ≤ k) (h : n < 10 ^ k) :
    (padded w n).length ≤ k := by
  have hle := length_decimal_le hk h
  rw [padded, List.length_append, List.length_replicate]
  omega

theorem length_padded {w n : Nat} (hw : 0 < w) (h : n < 10 ^ w) : (padded w n).length = w := by
  have hle := length_decimal_le hw h
  rw [padded, List.length_append, List.length_replicate]
  omega

/-! ## Scanning what was printed -/

theorem takeWhile_isDigit_append {digits rest : List UInt16}
    (hdigits : ∀ c ∈ digits, isDigit c = true) (hrest : ∀ c ∈ rest.head?, isDigit c = false) :
    (digits ++ rest).takeWhile isDigit = digits ∧ (digits ++ rest).dropWhile isDigit = rest := by
  rw [List.takeWhile_append_of_pos hdigits, List.dropWhile_append_of_pos hdigits]
  cases rest with
  | nil => exact ⟨List.append_nil _, rfl⟩
  | cons c cs =>
    have hc : isDigit c = false := hrest c rfl
    rw [List.takeWhile_cons_of_neg (by rw [hc]; decide),
      List.dropWhile_cons_of_neg (by rw [hc]; decide), List.append_nil]
    exact ⟨rfl, rfl⟩

theorem not_isSpace_of_isDigit {c : UInt16} (h : isDigit c = true) :
    isSpace c = false ∧ c ≠ 45 ∧ c ≠ 43 := by
  rw [isDigit, Bool.and_eq_true, decide_eq_true_eq, decide_eq_true_eq] at h
  have h48 : 48 ≤ c.toNat := h.1
  refine ⟨?_, ?_, ?_⟩
  · rw [isSpace, Bool.or_eq_false_iff, Bool.and_eq_false_iff, beq_eq_false_iff_ne,
      decide_eq_false_iff_not, decide_eq_false_iff_not]
    refine ⟨?_, Or.inr ?_⟩
    · rintro rfl
      exact absurd h48 (by decide)
    · intro hle
      have h13 : c.toNat ≤ 13 := hle
      omega
  · rintro rfl
    exact absurd h48 (by decide)
  · rintro rfl
    exact absurd h48 (by decide)

/-- A number as it is written: one digit or more. -/
def Numeral (str : List UInt16) : Prop := str ≠ [] ∧ ∀ c ∈ str, isDigit c = true

instance (str : List UInt16) : Decidable (Numeral str) :=
  @instDecidableAnd _ _ inferInstance (List.decidableBAll _ str)

theorem numeral_padded (w n : Nat) : Numeral (padded w n) :=
  ⟨padded_ne_nil w n, fun _ hc => isDigit_of_mem_padded hc⟩

theorem Numeral.append {xs ys : List UInt16} (hx : Numeral xs) (hy : Numeral ys) :
    Numeral (xs ++ ys) := by
  refine ⟨List.append_ne_nil_of_left_ne_nil hx.1 _, fun c hc => ?_⟩
  rcases List.mem_append.mp hc with hc | hc
  · exact hx.2 c hc
  · exact hy.2 c hc

theorem Numeral.not_mem {c : UInt16} {str : List UInt16} (h : Numeral str)
    (hc : isDigit c = false) : c ∉ str := by
  intro hmem
  rw [h.2 c hmem] at hc
  cases hc

/-- A number is less than the power of ten with as many zeros as it has digits. -/
theorem Numeral.value_lt {str : List UInt16} (h : Numeral str) : value str < 10 ^ str.length := by
  have hall : ∀ str : List UInt16, (∀ c ∈ str, isDigit c = true) →
      value str < 10 ^ str.length := by
    intro str
    induction str using List.reverseRecOn with
    | nil => intro _; decide
    | append_singleton str c ih =>
      intro hdigits
      rw [List.forall_mem_append, List.forall_mem_singleton, isDigit, Bool.and_eq_true,
        decide_eq_true_eq, decide_eq_true_eq] at hdigits
      have hc : c.toNat ≤ 57 := hdigits.2.2
      have hless := ih hdigits.1
      rw [value_append, List.foldl_cons, List.foldl_nil, List.length_append,
        List.length_singleton, pow_succ]
      omega
  exact hall str h.2

/-- **`%d` reads a number**, up to a character that is no digit. -/
theorem scanInt_numeral {digits rest : List UInt16} (h : Numeral digits)
    (hrest : ∀ c ∈ rest.head?, isDigit c = false) :
    scanInt (digits ++ rest) = some ((value digits : Int), rest) := by
  obtain ⟨htake, hdrop⟩ := takeWhile_isDigit_append h.2 hrest
  obtain ⟨c, cs, hcs⟩ := List.exists_cons_of_ne_nil h.1
  have hc : isDigit c = true := h.2 c (by rw [hcs]; exact List.mem_cons_self ..)
  obtain ⟨hspace, hminus, hplus⟩ := not_isSpace_of_isDigit hc
  have hfront : (digits ++ rest).dropWhile isSpace = digits ++ rest := by
    rw [hcs, List.cons_append, List.dropWhile_cons_of_neg (by rw [hspace]; decide)]
  have hsign : scanSign (digits ++ rest) = (false, digits ++ rest) := by
    rw [hcs, List.cons_append, scanSign, if_neg hminus, if_neg hplus]
  unfold scanInt
  rw [hfront, hsign]
  dsimp only
  rw [htake, hdrop, if_neg h.1]
  rfl

/-- **`%d` reads what `%0wd` printed**, up to a character that is no digit. -/
theorem scanInt_padded (w n : Nat) {rest : List UInt16}
    (hrest : ∀ c ∈ rest.head?, isDigit c = false) :
    scanInt (padded w n ++ rest) = some ((n : Int), rest) := by
  rw [scanInt_numeral (numeral_padded w n) hrest, value_padded]

/-- What stands behind a character that is no part of a number changes none in front of it. -/
theorem scanInt_append {c : UInt16} (hdigit : isDigit c = false) (hspace : isSpace c = false)
    (hminus : c ≠ 45) (hplus : c ≠ 43) (str rest : List UInt16) :
    (scanInt (str ++ c :: rest)).map Prod.fst = (scanInt str).map Prod.fst := by
  have hfront : (str ++ c :: rest).dropWhile isSpace = str.dropWhile isSpace ++ c :: rest := by
    rw [List.dropWhile_append]
    split
    · next hempty =>
      rw [List.isEmpty_iff.mp hempty, List.nil_append,
        List.dropWhile_cons_of_neg (by rw [hspace]; decide)]
    · rfl
  have hsign : ∀ xs : List UInt16, scanSign (xs ++ c :: rest) =
      ((scanSign xs).1, (scanSign xs).2 ++ c :: rest) := by
    intro xs
    cases xs with
    | nil =>
      show scanSign (c :: rest) = (false, c :: rest)
      rw [scanSign, if_neg hminus, if_neg hplus]
    | cons x xs =>
      rw [List.cons_append, scanSign, scanSign]
      split
      · rfl
      · split
        · rfl
        · rfl
  have htake : ∀ xs : List UInt16, (xs ++ c :: rest).takeWhile isDigit = xs.takeWhile isDigit := by
    intro xs
    rw [List.takeWhile_append]
    split
    · next hall =>
      rw [List.takeWhile_cons_of_neg (by rw [hdigit]; decide), List.append_nil,
        (List.takeWhile_prefix isDigit).eq_of_length hall]
    · rfl
  unfold scanInt
  rw [hfront, hsign]
  dsimp only
  rw [htake]
  split
  · rfl
  · rfl

theorem scanInt_minus (w n : Nat) {rest : List UInt16}
    (hrest : ∀ c ∈ rest.head?, isDigit c = false) :
    scanInt (45 :: (padded w n ++ rest)) = some (-(n : Int), rest) := by
  obtain ⟨htake, hdrop⟩ := takeWhile_isDigit_append (fun c hc => isDigit_of_mem_padded hc) hrest
  unfold scanInt
  rw [List.dropWhile_cons_of_neg (by decide), scanSign, if_pos rfl]
  dsimp only
  rw [htake, hdrop, if_neg (padded_ne_nil w n), value_padded]
  rfl

end Decimal
