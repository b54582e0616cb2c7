import DWindow.Checksum.Divide

/-!
# The digits of a division

The words of a quotient one by one: what `BigNumberDivide` and `BigNumberDividedw` have in front
of them in each step of their loops, what `BigNumberDivideHelper` estimates from the leading
words, and what is written to `q[j]`.

* `divideLoop_digits`, `dividedwLoop_digits`: the digits of the steps are the words of the
  quotient.
* `divideSteps_exact`, `dividedwSteps_exact`: each of them is the quotient of its window.
* `bigNumberDivide_spec`: a division, with its steps.
-/

namespace DWindow.Checksum

open Words LongDivision

/-! ## A step -/

/-- A step: the leading words `t`, that of the divisor, the words of the window below `t[1]`,
those of the divisor, the estimate after its tests and `q[j]`. -/
structure DigitStep where
  t : DWORD × DWORD
  lead : DWORD
  window : List DWORD
  divisor : List DWORD
  estimate : DWORD
  digit : DWORD

def DigitStep.dividend (s : DigitStep) : ℕ :=
  value s.window + radix ^ s.window.length * s.t.2.toNat

/-- The high half that `BigNumberDivideHelper` finds, with what is left. -/
def DigitStep.high (s : DigitStep) : DWORD × DWORD :=
  divideHalf (divideTop s.t.2 s.lead).2 s.lead (hiHalf s.lead) (loHalf s.lead) (hiHalf s.t.1)

def DigitStep.low (s : DigitStep) : DWORD × DWORD :=
  divideHalf s.high.2 s.lead (hiHalf s.lead) (loHalf s.lead) (loHalf s.t.1)

/-- What `BigNumberDivideHelper` has to find. -/
structure DigitStep.Helped (s : DigitStep) : Prop where
  high : s.high.1.toNat = (s.t.2.toNat * 65536 + (hiHalf s.t.1).toNat) / s.lead.toNat
  low : s.low.1.toNat = (s.high.2.toNat * 65536 + (loHalf s.t.1).toNat) / s.lead.toNat
  ret : (bigNumberDivideHelper s.t s.lead).1 = 0
  quotient : (bigNumberDivideHelper s.t s.lead).2.1.toNat = pair s.t / s.lead.toNat
  remainder : (bigNumberDivideHelper s.t s.lead).2.2.toNat = pair s.t % s.lead.toNat

/-- A step that is right: a quotient of leading words that does not fit into a word is answered
as such, the estimate is at most one too large, and the digit is the quotient of the window. -/
structure DigitStep.Exact (s : DigitStep) : Prop where
  helped : s.t.2 ≠ s.lead → s.Helped
  overflow : s.t.2 = s.lead → (bigNumberDivideHelper s.t s.lead).1 = 1
  le : s.dividend / value s.divisor ≤ s.estimate.toNat
  le_succ : s.estimate.toNat ≤ s.dividend / value s.divisor + 1
  digit : s.digit.toNat = s.dividend / value s.divisor

/-- The halves are right where the divisor has its high bit set. -/
theorem DigitStep.helped_of_lt {s : DigitStep} (hn : radix ≤ 2 * s.lead.toNat)
    (h : s.t.2 < s.lead) : s.Helped := by
  have hlt := UInt32.lt_iff_toNat_lt.1 h
  obtain ⟨hret, hquot, hrem⟩ := bigNumberDivideHelper_of_lt hn h
  have hhigh := divideHalf_eq (u := hiHalf s.t.1) (toNat_halves s.lead) hn (toNat_loHalf_lt _)
    (toNat_hiHalf_lt _) hlt
  have hs : s.high =
      divideHalf s.t.2 s.lead (hiHalf s.lead) (loHalf s.lead) (hiHalf s.t.1) := by
    rw [DigitStep.high, divideTop_of_lt h]
  rw [← hs] at hhigh
  have hrest : s.high.2.toNat < s.lead.toNat := by
    rw [hhigh.2]
    exact Nat.mod_lt _ (by omega)
  exact ⟨hhigh.1, (divideHalf_eq (toNat_halves s.lead) hn (toNat_loHalf_lt _) (toNat_loHalf_lt _)
    hrest).1, hret, hquot, hrem⟩

/-! ## A divisor of several words -/

/-- The steps of `divideLoop`. -/
def divideSteps (n : ℕ) (v : List DWORD) : ℕ → List DWORD → DWORD → List DigitStep
  | 0, _, _ => []
  | j + 1, uu, t1 =>
    let t := (uu.getD (j + n - 1) 0, t1)
    let qhat := estimateWord t (v.getD (n - 1) 0) (v.getD (n - 2) 0) (uu.getD (j + n - 2) 0)
    match divideWindow t1 ((uu.drop j).take n) (v.take n) qhat with
    | (ww, qj) =>
      ⟨t, v.getD (n - 1) 0, (uu.drop j).take n, v.take n, qhat, qj⟩ ::
        divideSteps n v j (uu.take j ++ ww ++ uu.drop (j + n))
          ((uu.take j ++ ww ++ uu.drop (j + n)).getD (j + n - 1) 0)

/-- **The digits** are what the loop leaves in `q`, the last one first. -/
theorem divideLoop_digits (n : ℕ) (v : List DWORD) :
    ∀ {c : ℕ} {q : List DWORD} (uu : List DWORD) (t : DWORD), c ≤ q.length →
      (divideLoop n v c q uu t).1 =
        ((divideSteps n v c uu t).map DigitStep.digit).reverse ++ q.drop c
  | 0, _, _, _, _ => rfl
  | j + 1, q, uu, t, hq => by
    rw [divideLoop, divideSteps]
    generalize divideWindow t _ _ _ = p
    obtain ⟨ww, qj⟩ := p
    dsimp only
    have hset : (q.set j qj).drop j = qj :: q.drop (j + 1) := by
      rw [List.drop_eq_getElem_cons (by rw [List.length_set]; omega), List.getElem_set_self,
        List.drop_set_of_lt (Nat.lt_succ_self j)]
    rw [divideLoop_digits n v _ _ (by rw [List.length_set]; omega), hset, List.map_cons,
      List.reverse_cons, ← List.append_cons]

/-- **Each digit is exact**, from a window whose upper words are less than the divisor. -/
theorem divideSteps_exact {n : ℕ} (h2 : 2 ≤ n) {v : List DWORD} (hv : n ≤ v.length)
    (hn : radix ≤ 2 * (v.getD (n - 1) 0).toNat) : ∀ {c : ℕ} (uu : List DWORD) {t : DWORD},
    n ≤ uu.length → c + n ≤ uu.length + 1 → windowValue uu c (n - 1) t < value (v.take n) →
    ∀ s ∈ divideSteps n v c uu t, s.Exact
  | 0, _, _, _, _, _ => by
    rw [divideSteps]
    exact List.forall_mem_nil _
  | j + 1, uu, t, hu, hc, hlt => by
    have hpos : 0 < value (v.take n) := by omega
    obtain ⟨k, rfl⟩ : ∃ k, n = k + 1 := ⟨n - 1, by omega⟩
    rw [Nat.add_sub_cancel] at hlt hn
    have hj : j < uu.length := by omega
    obtain ⟨ht, hle, hsucc, hww, hrem, hqj⟩ :=
      divideStep_eq h2 hv hn (show j + (k + 1) ≤ uu.length by omega) hlt rfl
    rw [divideSteps, show j + (k + 1) - 1 = j + (k + 1 - 1) from rfl,
      show j + (k + 1) - 2 = j + (k + 1 - 2) by omega, Nat.add_sub_cancel]
    dsimp only
    have hhelped := @DigitStep.helped_of_lt
    generalize hqhat : estimateWord _ _ _ _ = qhat at hle hsucc hww hrem hqj ⊢
    generalize divideWindow t _ _ qhat = p at hww hrem hqj ⊢
    obtain ⟨ww, qj⟩ := p
    dsimp only at hww hrem hqj ⊢
    have hwlen : ((uu.drop j).take (k + 1)).length = k + 1 := by
      rw [List.length_take, List.length_drop]
      omega
    have hcut := windowValue_append hj.le hww (uu.drop (j + (k + 1)))
    have hlength : (uu.take j ++ ww ++ uu.drop (j + (k + 1))).length = uu.length := by
      rw [List.length_append, List.length_append, List.length_take_of_le hj.le, hww,
        List.length_drop]
      omega
    rintro s (_ | ⟨_, hs⟩)
    · have hwindow : DigitStep.dividend ⟨(uu.getD (j + k) 0, t), v.getD k 0,
          (uu.drop j).take (k + 1), v.take (k + 1), qhat, qj⟩ = windowValue uu j (k + 1) t := by
        rw [DigitStep.dividend, hwlen, windowValue]
      refine ⟨fun hne => hhelped hn ?_, fun heq => bigNumberDivideHelper_of_eq hn heq, ?_, ?_, ?_⟩
      · exact UInt32.lt_iff_toNat_lt.2 (lt_of_le_of_ne ht (mt UInt32.toNat_inj.1 hne))
      · rwa [hwindow]
      · rwa [hwindow]
      · rwa [hwindow]
    · refine divideSteps_exact h2 hv hn _ (by omega) (by omega) ?_ s hs
      rw [Nat.add_sub_cancel, hcut, hrem]
      exact Nat.mod_lt _ hpos

/-! ## A divisor of one word -/

/-- The steps of `dividedwLoop`, which divides the last word first. -/
def dividedwSteps (v : DWORD) : List DWORD → DWORD → List DigitStep
  | [], _ => []
  | u :: us, r =>
    let t := (u, (dividedwLoop v us r).2)
    let qj := (bigNumberDivideHelper t v).2.1
    dividedwSteps v us r ++ [⟨t, v, [u], [v], qj, qj⟩]

theorem dividedwLoop_digits (v : DWORD) : ∀ (us : List DWORD) (r : DWORD),
    (dividedwLoop v us r).1 = ((dividedwSteps v us r).map DigitStep.digit).reverse
  | [], _ => rfl
  | u :: us, r => by
    rw [dividedwLoop, dividedwSteps]
    simp only [List.map_append, List.reverse_append, List.map_cons, List.map_nil,
      List.reverse_singleton, List.singleton_append, dividedwLoop_digits v us r]

theorem dividedwSteps_exact {v : DWORD} (hn : radix ≤ 2 * v.toNat) :
    ∀ (us : List DWORD) {r : DWORD}, r < v → ∀ s ∈ dividedwSteps v us r, s.Exact
  | [], _, _ => by
    rw [dividedwSteps]
    exact List.forall_mem_nil _
  | u :: us, r, hr => by
    obtain ⟨-, hlt, -⟩ := dividedwLoop_eq hn us hr
    have hquot := (bigNumberDivideHelper_of_lt (u := (u, (dividedwLoop v us r).2)) hn hlt).2.1
    have hone : ∀ d : DWORD, value [d] = d.toNat := fun d => by
      rw [value_cons, value_nil, Nat.mul_zero, Nat.add_zero]
    rw [dividedwSteps]
    intro s hs
    obtain hs | hs := List.mem_append.1 hs
    · exact dividedwSteps_exact hn us hr s hs
    · rw [List.mem_singleton] at hs
      have hwindow : s.dividend / value s.divisor =
          pair (u, (dividedwLoop v us r).2) / v.toNat := by
        rw [hs, DigitStep.dividend, hone, hone, List.length_singleton, pow_one, pair]
      refine ⟨fun _ => DigitStep.helped_of_lt (by rwa [hs]) (by rwa [hs]), fun heq => ?_, ?_, ?_,
        ?_⟩
      · rw [hs] at heq
        dsimp only at heq
        exact absurd hlt (by rw [heq]; exact UInt32.lt_irrefl _)
      · rw [hwindow, ← hquot, hs]
      · rw [hwindow, ← hquot, hs]
        exact Nat.le_succ _
      · rw [hwindow, ← hquot, hs]

/-! ## A number by a number -/

/-- The steps of `BigNumberDividedw`. -/
def wordSteps (q u : List DWORD) (v : DWORD) : List DigitStep :=
  if u.length = 0 then []
  else if v = 0 then []
  else dividedwSteps (v <<< UInt32.ofNat (highBit v)) (bigNumberShiftLeft q u (highBit v)).1
    (bigNumberShiftLeft q u (highBit v)).2

def normalSteps (u v : List DWORD) (n m : ℕ) : List DigitStep :=
  let shift := highBit (v.getD (n - 1) 0)
  let vs := (bigNumberShiftLeft (v.take n) (v.take n) shift).1 ++ v.drop n
  let us := bigNumberShiftLeft (List.replicate (n + m) 0) (u.take (n + m)) shift
  divideSteps n vs (m + 1) (us.1 ++ List.replicate (u.length - (n + m)) 0) us.2

/-- The steps of `BigNumberDivide`; there are none where it knows the quotient beforehand. -/
def digitSteps (u v : List DWORD) : List DigitStep :=
  let n := bigNumberSizeof v v.length
  let m : Int := bigNumberSizeof u u.length - n
  if n = 0 then []
  else if n = 1 then wordSteps (List.replicate u.length 0) u (v.getD 0 0)
  else if m < 0 then []
  else if m = 0 ∧ bigNumberCompare u v n ≤ 0 then []
  else normalSteps u v n m.toNat

theorem wordSteps_exact (q u : List DWORD) (v : DWORD) : ∀ s ∈ wordSteps q u v, s.Exact := by
  rw [wordSteps]
  by_cases hu : u.length = 0
  · rw [if_pos hu]
    exact List.forall_mem_nil _
  · by_cases hv : v = 0
    · rw [if_neg hu, if_pos hv]
      exact List.forall_mem_nil _
    · rw [if_neg hu, if_neg hv]
      obtain ⟨hn, hr, -⟩ := dividedw_start q u hv
      exact dividedwSteps_exact hn _ hr

theorem bigNumberDividedw_digits {q u : List DWORD} {v : DWORD} (h : wordSteps q u v ≠ []) :
    (bigNumberDividedw q u v).1 = ((wordSteps q u v).map DigitStep.digit).reverse := by
  rw [wordSteps] at h ⊢
  rw [bigNumberDividedw]
  by_cases hu : u.length = 0
  · exact absurd (if_pos hu) h
  · by_cases hv : v = 0
    · rw [if_neg hu, if_pos hv] at h
      exact absurd rfl h
    · rw [if_neg hu, if_neg hv, if_neg hu, if_neg hv, ← dividedwLoop_digits]

theorem normalSteps_exact {u v : List DWORD} {n m : ℕ} (h2 : 2 ≤ n) (hv : n ≤ v.length)
    (hlast : v.getD (n - 1) 0 ≠ 0) (hvalue : value (v.take n) = value v)
    (hu : n + m ≤ u.length) : ∀ s ∈ normalSteps u v n m, s.Exact := by
  have hstart := fun us overflow =>
    @divideNormal_start u v _ us n m overflow (by omega) hv hlast hvalue hu rfl
  rw [normalSteps]
  generalize bigNumberShiftLeft (List.replicate (n + m) 0) (u.take (n + m))
    (highBit (v.getD (n - 1) 0)) = p at hstart ⊢
  obtain ⟨us, overflow⟩ := p
  obtain ⟨hvsle, hn, huulen, hwindow⟩ := hstart us overflow rfl
  exact divideSteps_exact h2 hvsle hn (us ++ List.replicate (u.length - (n + m)) 0) (by omega)
    (by omega) hwindow

theorem divideNormal_digits {u v : List DWORD} {n m : ℕ} (hm : m < u.length) :
    (divideNormal u v n m).q = ((normalSteps u v n m).map DigitStep.digit).reverse ++
      List.replicate (u.length - (m + 1)) 0 := by
  have hdigits : ∀ vs us t, (divideLoop n vs (m + 1) (List.replicate u.length 0) us t).1 =
      ((divideSteps n vs (m + 1) us t).map DigitStep.digit).reverse ++
        List.replicate (u.length - (m + 1)) 0 := by
    intro vs us t
    rw [divideLoop_digits n vs us t (by rwa [List.length_replicate]), List.drop_replicate]
  rw [divideNormal, normalSteps]
  dsimp only
  rw [← hdigits]

theorem bigNumberDivide_nil {v : List DWORD} (hv : 0 < value v) :
    bigNumberDivide [] v = ⟨0, [], [], v⟩ := by
  have hn0 := bigNumberSizeof_pos hv
  have hsize : bigNumberSizeof ([] : List DWORD) ([] : List DWORD).length = 0 := rfl
  rw [bigNumberDivide, hsize]
  generalize bigNumberSizeof v v.length = n at hn0
  rw [if_neg hn0]
  by_cases hn1 : n = 1
  · rw [if_pos hn1]
    rfl
  · rw [if_neg hn1, if_pos (by omega)]
    rfl

theorem digitSteps_exact {u v : List DWORD} (hv : 0 < value v) :
    ∀ s ∈ digitSteps u v, s.Exact := by
  have hn0 := bigNumberSizeof_pos hv
  have hvalue := value_take_bigNumberSizeof (a := v) (le_refl v.length)
  have hvle := bigNumberSizeof_le v v.length
  have hule := bigNumberSizeof_le u u.length
  have hlast := getD_bigNumberSizeof v hn0
  rw [List.take_length] at hvalue
  rw [digitSteps]
  generalize bigNumberSizeof v v.length = n at *
  generalize bigNumberSizeof u u.length = size at *
  rw [if_neg hn0]
  split_ifs with hn1 hm hcmp
  · exact wordSteps_exact _ _ _
  · exact List.forall_mem_nil _
  · exact List.forall_mem_nil _
  · exact normalSteps_exact (by omega) hvle hlast hvalue (by omega)

theorem bigNumberDivide_digits {u v : List DWORD} (h : digitSteps u v ≠ []) :
    ∃ k, (bigNumberDivide u v).q =
      ((digitSteps u v).map DigitStep.digit).reverse ++ List.replicate k 0 := by
  have hule := bigNumberSizeof_le u u.length
  rw [digitSteps] at h ⊢
  rw [bigNumberDivide]
  dsimp only at h ⊢
  generalize bigNumberSizeof v v.length = n at *
  generalize bigNumberSizeof u u.length = size at *
  split_ifs at h with hn0 hn1 hm hcmp
  · exact absurd rfl h
  · rw [if_neg hn0, if_pos hn1, if_neg hn0, if_pos hn1]
    dsimp only
    rw [bigNumberDividedw_digits h]
    exact ⟨0, (List.append_nil _).symm⟩
  · exact absurd rfl h
  · exact absurd rfl h
  · rw [if_neg hn0, if_neg hn1, if_neg hm, if_neg (fun hless => hcmp ⟨hless.1, hless.2.le⟩),
      if_neg (fun hequal => hcmp ⟨hequal.1, hequal.2.le⟩), if_neg hn0, if_neg hn1, if_neg hm,
      if_neg hcmp]
    exact ⟨_, divideNormal_digits (by omega)⟩

/-- **A division** of a number of any size: the quotient, a remainder less than the divisor, and
the divisor as it was; in every step the estimate is corrected to the exact digit, and the digits
are the words of the quotient. -/
theorem bigNumberDivide_spec (u v : List DWORD) (hv : value v ≠ 0) :
    (bigNumberDivide u v).Right u v ∧
      value u = value (bigNumberDivide u v).q * value v + value (bigNumberDivide u v).r ∧
      value (bigNumberDivide u v).r < value v ∧ (bigNumberDivide u v).v = v ∧
      (∀ s ∈ digitSteps u v, s.Exact) ∧
      (digitSteps u v ≠ [] → ∃ k, (bigNumberDivide u v).q =
        ((digitSteps u v).map DigitStep.digit).reverse ++ List.replicate k 0) := by
  have hpos := Nat.pos_of_ne_zero hv
  have hright : (bigNumberDivide u v).Right u v := by
    rcases u with - | ⟨d, ds⟩
    · rw [bigNumberDivide_nil hpos]
      exact ⟨rfl, rfl, rfl, (Nat.zero_div _).symm, (Nat.zero_mod _).symm, rfl⟩
    · exact bigNumberDivide_right (List.cons_ne_nil d ds) hpos
  refine ⟨hright, ?_, ?_, hright.v, ?_, ?_⟩
  · rw [hright.value_q, hright.value_r, Nat.mul_comm, Nat.div_add_mod]
  · rw [hright.value_r]
    exact Nat.mod_lt _ hpos
  · exact digitSteps_exact hpos
  · exact bigNumberDivide_digits

/-- Three words by two. -/
theorem bigNumberDivide_spec_two :
    value [7, 5, 3] = value (bigNumberDivide [7, 5, 3] [2, 1]).q * value [2, 1] +
        value (bigNumberDivide [7, 5, 3] [2, 1]).r ∧
      (bigNumberDivide [7, 5, 3] [2, 1]).v = [2, 1] ∧
      ((digitSteps [7, 5, 3] [2, 1]).map DigitStep.digit = [2, 4294967295]) ∧
      ∀ s ∈ digitSteps [7, 5, 3] [2, 1], s.Exact := by
  have hspec := bigNumberDivide_spec [7, 5, 3] [2, 1] (by decide)
  exact ⟨hspec.2.1, hspec.2.2.2.1, by decide, hspec.2.2.2.2.1⟩

end DWindow.Checksum
