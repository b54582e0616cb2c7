import DWindow.Checksum.DivideHelper

/-!
# Division

`BigNumberDivide` of `basicRSA.cpp` is the long division of two numbers.  Both are shifted so
that the high bit of the divisor is set; a word of the quotient is estimated from the leading
words, and what is left stands in the words of the remainder, from which the next is taken.

* `toNat_estimateWord`: the estimate is the quotient of the leading words.
* `divideWindow_eq`: a word of the quotient.
* `divideLoop_eq`: all of them.
* `bigNumberDivide_eq`: the quotient, the remainder, and the divisor as it was.
-/

namespace DWindow.Checksum

open Words LongDivision

/-! ## An estimate -/

def bigNumberQhatTooBigHelper (qhat rhat vn2 ujn2 : DWORD) : Bool :=
  let t := bigNumberMultiplyHelper qhat vn2
  if t.2 < rhat then false
  else if t.2 > rhat then true
  else t.1 > ujn2

theorem bigNumberQhatTooBigHelper_iff (qhat rhat vn2 ujn2 : DWORD) :
    bigNumberQhatTooBigHelper qhat rhat vn2 ujn2 = true ↔
      rhat.toNat * radix + ujn2.toNat < qhat.toNat * vn2.toNat := by
  have hpair := pair_bigNumberMultiplyHelper qhat vn2
  rw [← hpair, pair, bigNumberQhatTooBigHelper]
  generalize bigNumberMultiplyHelper qhat vn2 = t
  obtain ⟨t0, t1⟩ := t
  have ht0 := toNat_lt t0
  have hu := toNat_lt ujn2
  simp only [gt_iff_lt, UInt32.lt_iff_toNat_lt]
  by_cases hlt : t1.toNat < rhat.toNat
  · have := above_lt (y := ujn2.toNat) ht0 hlt
    rw [if_pos hlt]
    simp only [Bool.false_eq_true, false_iff, Nat.mul_comm rhat.toNat]
    omega
  · by_cases hgt : rhat.toNat < t1.toNat
    · have := above_lt (y := t0.toNat) hu hgt
      rw [if_neg hlt, if_pos hgt]
      simp only [true_iff, Nat.mul_comm rhat.toNat]
      omega
    · have heq : t1.toNat = rhat.toNat := by omega
      rw [if_neg hlt, if_neg hgt, heq, decide_eq_true_iff, Nat.mul_comm]
      omega

/-- The estimate after its tests: `rhat` is what is left over, and `qhatOK` says that it does
not fit into a word. -/
def testWord (qhat rhat : DWORD) (qhatOK : Bool) (vn1 vn2 ujn2 : DWORD) : DWORD :=
  if qhat ≠ 0 ∧ qhatOK = false ∧ bigNumberQhatTooBigHelper qhat rhat vn2 ujn2 = true then
    if ¬ rhat + vn1 < vn1 ∧
        bigNumberQhatTooBigHelper (qhat - 1) (rhat + vn1) vn2 ujn2 = true then qhat - 1 - 1
    else qhat - 1
  else qhat

/-- `qhat` from the leading words of the dividend and of the divisor. -/
def estimateWord (t : DWORD × DWORD) (vn1 vn2 ujn2 : DWORD) : DWORD :=
  match bigNumberDivideHelper t vn1 with
  | (overflow, qhat, rhat) =>
    if overflow ≠ 0 then
      testWord maximumNr (t.1 + vn1) (t.1 + vn1 < vn1) vn1 vn2 ujn2
    else testWord qhat rhat false vn1 vn2 ujn2

section

variable {vn1 vn2 ujn2 : DWORD}

theorem toNat_testWord {q r : DWORD} {N : ℕ} (hN : N = q.toNat * vn1.toNat + r.toNat) :
    (testWord q r false vn1 vn2 ujn2).toNat =
      tested (N * radix + ujn2.toNat) (vn1.toNat * radix + vn2.toNat)
        (tested (N * radix + ujn2.toNat) (vn1.toNat * radix + vn2.toNat) q.toNat) := by
  have hfirst : (q ≠ 0 ∧ false = false ∧ bigNumberQhatTooBigHelper q r vn2 ujn2 = true) ↔
      N * radix + ujn2.toNat < q.toNat * (vn1.toNat * radix + vn2.toNat) := by
    rw [bigNumberQhatTooBigHelper_iff, ← test_iff hN]
    refine ⟨fun h => h.2.2, fun h => ⟨?_, rfl, h⟩⟩
    rintro rfl
    rw [toNat_zero, Nat.zero_mul] at h
    omega
  rw [testWord]
  by_cases hlt : N * radix + ujn2.toNat < q.toNat * (vn1.toNat * radix + vn2.toNat)
  · have hq0 : q ≠ 0 := (hfirst.2 hlt).1
    have hq1 : (q - 1).toNat = q.toNat - 1 := toNat_sub_one hq0
    have hqlt := toNat_lt q
    have hvn2 := toNat_lt vn2
    obtain ⟨p, hp⟩ : ∃ p, q.toNat = p + 1 := ⟨q.toNat - 1, by have := toNat_pos hq0; omega⟩
    have hN1 : N = (q.toNat - 1) * vn1.toNat + (r.toNat + vn1.toNat) := by
      rw [hN, hp, Nat.add_sub_cancel]
      ring
    have hsecond : (¬ r + vn1 < vn1 ∧
        bigNumberQhatTooBigHelper (q - 1) (r + vn1) vn2 ujn2 = true) ↔
        N * radix + ujn2.toNat < (q.toNat - 1) * (vn1.toNat * radix + vn2.toNat) := by
      rw [bigNumberQhatTooBigHelper_iff, ← test_iff hN1, hq1]
      by_cases hwrap : r + vn1 < vn1
      · -- more than a word is left over, so the estimate is right
        have hsum := toNat_add_of_lt hwrap
        have hnot : ¬ (r.toNat + vn1.toNat) * radix + ujn2.toNat <
            (q.toNat - 1) * vn2.toNat :=
          test_of_le (by omega) (Nat.mul_le_mul (by omega) hvn2.le)
        exact ⟨fun h => absurd hwrap h.1, fun h => absurd h hnot⟩
      · rw [toNat_add_of_not_lt hwrap]
        exact and_iff_right hwrap
    rw [if_pos (hfirst.2 hlt), tested, tested, if_pos hlt]
    by_cases hlt1 : N * radix + ujn2.toNat <
        (q.toNat - 1) * (vn1.toNat * radix + vn2.toNat)
    · have hq1' : q - 1 ≠ 0 := by
        intro h0
        rw [← hq1, h0, toNat_zero, Nat.zero_mul] at hlt1
        omega
      rw [if_pos (hsecond.2 hlt1), if_pos hlt1, toNat_sub_one hq1', hq1]
    · rw [if_neg (mt hsecond.1 hlt1), if_neg hlt1, hq1]
  · rw [if_neg (mt hfirst.1 hlt), tested, tested, if_neg hlt, if_neg hlt]

/-- An estimate is at most two too large, since the divisor has its high bit set. -/
theorem estimate_le {q : DWORD} {N : ℕ} (hn : radix ≤ 2 * vn1.toNat)
    (hq : q.toNat * vn1.toNat ≤ N) :
    q.toNat ≤ (N * radix + ujn2.toNat) / (vn1.toNat * radix + vn2.toNat) + 2 := by
  have hpos := radix_pos
  have hle : q.toNat * vn2.toNat ≤ radix * radix :=
    Nat.mul_le_mul (toNat_lt q).le (toNat_lt vn2).le
  have htwo : radix * radix ≤ 2 * (vn1.toNat * radix + vn2.toNat) := by
    have := Nat.mul_le_mul_right radix hn
    rw [Nat.mul_assoc] at this
    omega
  have hV : 0 < vn1.toNat * radix + vn2.toNat := by
    have := Nat.mul_pos hpos hpos
    omega
  exact le_digits_add_two hV hq (hle.trans htwo)

/-- **The estimate** is the quotient of the leading words, or the last word. -/
theorem toNat_estimateWord {t : DWORD × DWORD} (hn : radix ≤ 2 * vn1.toNat)
    (ht : t.2.toNat ≤ vn1.toNat) :
    (estimateWord t vn1 vn2 ujn2).toNat =
      min (radix - 1)
        ((pair t * radix + ujn2.toNat) / (vn1.toNat * radix + vn2.toNat)) := by
  have hpos := radix_pos
  have hvn1 : 0 < vn1.toNat := by omega
  have hV : 0 < vn1.toNat * radix + vn2.toNat := by
    have := Nat.mul_pos hvn1 hpos
    omega
  rw [estimateWord]
  obtain hlt | heq := Nat.lt_or_eq_of_le ht
  · obtain ⟨hover, hq, hr⟩ := bigNumberDivideHelper_of_lt hn (UInt32.lt_iff_toNat_lt.2 hlt)
    generalize bigNumberDivideHelper t vn1 = p at hover hq hr ⊢
    obtain ⟨overflow, q, r⟩ := p
    dsimp only at hover hq hr ⊢
    have hN : pair t = q.toNat * vn1.toNat + r.toNat := by
      rw [hq, hr, Nat.mul_comm, Nat.div_add_mod]
    have hle : (pair t * radix + ujn2.toNat) / (vn1.toNat * radix + vn2.toNat) ≤ q.toNat := by
      rw [hq]
      exact digits_le hvn1 (toNat_lt ujn2)
    rw [if_neg (not_not.2 hover), toNat_testWord hN]
    apply corrected_min hV ((min_le_right _ _).trans hle) (Nat.le_sub_one_of_lt (toNat_lt q))
    apply estimate_le hn
    omega
  · have hover := bigNumberDivideHelper_of_eq hn (UInt32.toNat_inj.1 heq)
    generalize bigNumberDivideHelper t vn1 = p at hover ⊢
    obtain ⟨overflow, q, r⟩ := p
    dsimp only at hover ⊢
    have hmax : maximumNr.toNat = radix - 1 := toNat_max
    -- the last word is estimated, and what is left over may not fit
    have hN : pair t = maximumNr.toNat * vn1.toNat + (t.1.toNat + vn1.toNat) := by
      obtain ⟨p, hp⟩ : ∃ p, radix = p + 1 := ⟨radix - 1, by omega⟩
      rw [pair, heq, hmax, hp, Nat.add_sub_cancel]
      ring
    have htwo : maximumNr.toNat ≤
        (pair t * radix + ujn2.toNat) / (vn1.toNat * radix + vn2.toNat) + 2 := by
      apply estimate_le hn
      omega
    have hone : (1 : DWORD) ≠ 0 := by decide
    rw [hover, if_pos hone]
    by_cases hwrap : t.1 + vn1 < vn1
    · have hsum := toNat_add_of_lt hwrap
      have hnot : ¬ (t.1.toNat + vn1.toNat) * radix + ujn2.toNat <
          maximumNr.toNat * vn2.toNat :=
        test_of_le (by omega) (Nat.mul_le_mul (toNat_lt _).le (toNat_lt _).le)
      rw [test_iff hN, Nat.not_lt] at hnot
      have hdiv := (Nat.le_div_iff_mul_le hV).2 hnot
      rw [testWord, if_neg (by simp [hwrap]), hmax]
      rw [hmax] at hdiv
      exact (min_eq_left hdiv).symm
    · have hsum := toNat_add_of_not_lt hwrap
      rw [← hsum] at hN
      rw [decide_eq_false hwrap, toNat_testWord hN, hmax]
      rw [hmax] at htwo
      exact corrected_min hV (min_le_left _ _) le_rfl htwo

end

/-! ## A word of the quotient -/

/-- What is done with `qhat`: the multiple is subtracted, and added back once where it was too
large.  It is left with the words of `ww` and with `q[j]`. -/
def divideWindow (t1 : DWORD) (w v : List DWORD) (qhat : DWORD) : List DWORD × DWORD :=
  match bigNumberMultSub t1 w v qhat with
  | (ww, overflow) => if overflow ≠ 0 then ((bigNumberAdd ww v).1, qhat - 1) else (ww, qhat)

/-- **A word of the quotient**, from an estimate that is at most one too large. -/
theorem divideWindow_eq {t1 qhat : DWORD} {w v : List DWORD} (hlen : w.length = v.length)
    (hpos : 0 < value v)
    (hle : (value w + radix ^ w.length * t1.toNat) / value v ≤ qhat.toNat)
    (hsucc : qhat.toNat ≤ (value w + radix ^ w.length * t1.toNat) / value v + 1) :
    (divideWindow t1 w v qhat).1.length = w.length ∧
      value (divideWindow t1 w v qhat).1 =
        (value w + radix ^ w.length * t1.toNat) % value v ∧
      (divideWindow t1 w v qhat).2.toNat =
        (value w + radix ^ w.length * t1.toNat) / value v := by
  have hv := value_lt v
  rw [← hlen] at hv
  have hlength := length_bigNumberMultSub t1 qhat hlen
  have hdm := Nat.div_add_mod (value w + radix ^ w.length * t1.toNat) (value v)
  have hmod := Nat.mod_lt (value w + radix ^ w.length * t1.toNat) hpos
  have hsub := @bigNumberMultSub_of_le t1 qhat w v hlen
  have hsub' := @bigNumberMultSub_of_lt t1 qhat w v hlen
  rw [divideWindow]
  generalize bigNumberMultSub t1 w v qhat = p at hlength hsub hsub' ⊢
  obtain ⟨ww, overflow⟩ := p
  dsimp only at hlength hsub hsub' ⊢
  generalize value w + radix ^ w.length * t1.toNat = W at *
  obtain heq | heq : qhat.toNat = W / value v ∨ qhat.toNat = W / value v + 1 := by omega
  · rw [heq, Nat.mul_comm] at hsub
    obtain ⟨hover, hvalue⟩ := hsub (by omega) (by omega)
    rw [if_neg (not_not.2 hover)]
    refine ⟨hlength, ?_, heq⟩
    dsimp only
    omega
  · have hmul : qhat.toNat * value v = value v * (W / value v) + value v := by
      rw [heq]
      ring
    rw [hmul] at hsub'
    obtain ⟨hover, hvalue⟩ := hsub' (by omega) (by omega)
    have hq0 : qhat ≠ 0 := by
      rintro rfl
      rw [toNat_zero] at heq
      exact absurd heq (Nat.succ_ne_zero _).symm
    obtain ⟨hlength', hadd⟩ := bigNumberAdd_eq (hlength.trans hlen)
    have hww := value_lt (bigNumberAdd ww v).1
    rw [hlength', hlength] at hww
    rw [hlength] at hadd
    -- the sum wraps once
    have hone : (bigNumberAdd ww v).2.toNat = 1 :=
      above_unique hww (hmod.trans hv) (by rw [Nat.mul_one]; omega)
    rw [hone, Nat.mul_one] at hadd
    rw [if_pos hover]
    refine ⟨hlength'.trans hlength, by dsimp only; omega, ?_⟩
    dsimp only
    rw [toNat_sub_one hq0, heq, Nat.add_sub_cancel]

/-! ## The loop -/

/-- The loop over `j`, with `j` steps left, on `q`, `uu` and `t[0]`. -/
def divideLoop (n : ℕ) (v : List DWORD) : ℕ → List DWORD → List DWORD → DWORD →
    List DWORD × List DWORD
  | 0, q, uu, _ => (q, uu)
  | j + 1, q, uu, t1 =>
    match divideWindow t1 ((uu.drop j).take n) (v.take n)
      (estimateWord (uu.getD (j + n - 1) 0, t1) (v.getD (n - 1) 0) (v.getD (n - 2) 0)
        (uu.getD (j + n - 2) 0)) with
    | (ww, qj) =>
      divideLoop n v j (q.set j qj) (uu.take j ++ ww ++ uu.drop (j + n))
        ((uu.take j ++ ww ++ uu.drop (j + n)).getD (j + n - 1) 0)

theorem value_take_lead (ds : List DWORD) {n : ℕ} (h2 : 2 ≤ n) (h : n ≤ ds.length) :
    value (ds.take n) =
      ((ds.getD (n - 1) 0).toNat * radix + (ds.getD (n - 2) 0).toNat) * radix ^ (n - 2) +
        value (ds.take (n - 2)) := by
  obtain ⟨k, rfl⟩ := Nat.exists_eq_add_of_le' h2
  rw [value_take_succ ds (show k + 1 < ds.length by omega),
    value_take_succ ds (show k < ds.length by omega), Nat.add_sub_cancel,
    show k + 2 - 1 = k + 1 from rfl, pow_succ]
  ring

/-- **The estimate of a step** is the word of the quotient, or one more. -/
theorem estimateWord_spec {n : ℕ} (h2 : 2 ≤ n) {w v : List DWORD} (hw : n ≤ w.length)
    (hv : n ≤ v.length) (hn : radix ≤ 2 * (v.getD (n - 1) 0).toNat) {t1 : DWORD}
    (hlt : (value (w.take n) + radix ^ n * t1.toNat) / value (v.take n) < radix)
    (ht : t1.toNat ≤ (v.getD (n - 1) 0).toNat) {qhat : DWORD}
    (hq : qhat = estimateWord (w.getD (n - 1) 0, t1) (v.getD (n - 1) 0) (v.getD (n - 2) 0)
      (w.getD (n - 2) 0)) :
    (value (w.take n) + radix ^ n * t1.toNat) / value (v.take n) ≤ qhat.toNat ∧
      qhat.toNat ≤ (value (w.take n) + radix ^ n * t1.toNat) / value (v.take n) + 1 := by
  have hpos := radix_pos
  have hestimate := @toNat_estimateWord _ (v.getD (n - 2) 0) (w.getD (n - 2) 0)
    (w.getD (n - 1) 0, t1) hn ht
  rw [← hq, pair] at hestimate
  dsimp only at hestimate
  have hP : 0 < radix ^ (n - 2) := Nat.pow_pos hpos
  have hpow : radix ^ n = radix * radix * radix ^ (n - 2) := by
    obtain ⟨k, rfl⟩ := Nat.exists_eq_add_of_le' h2
    rw [Nat.add_sub_cancel, pow_succ, pow_succ]
    ring
  have hW : value (w.take n) + radix ^ n * t1.toNat =
      (((w.getD (n - 1) 0).toNat + radix * t1.toNat) * radix + (w.getD (n - 2) 0).toNat) *
        radix ^ (n - 2) + value (w.take (n - 2)) := by
    rw [value_take_lead w h2 hw, hpow]
    ring
  have hvn1 : 0 < (v.getD (n - 1) 0).toNat := by omega
  have hV : radix ≤ (v.getD (n - 1) 0).toNat * radix + (v.getD (n - 2) 0).toNat :=
    (Nat.le_mul_of_pos_left radix hvn1).trans (Nat.le_add_right _ _)
  rw [hW, value_take_lead v h2 hv] at hlt ⊢
  rw [hestimate]
  exact ⟨digit_le (hpos.trans_le hV) hP (value_take_lt w _) hlt,
    le_digit_succ hV (value_take_lt v _)⟩

theorem getD_drop (ds : List DWORD) (i k : ℕ) : (ds.drop i).getD k 0 = ds.getD (i + k) 0 := by
  simp only [List.getD_eq_getElem?_getD, List.getElem?_drop]

/-- What stands at the window at `j`, with the word above it. -/
def windowValue (uu : List DWORD) (j k : ℕ) (t : DWORD) : ℕ :=
  value ((uu.drop j).take k) + radix ^ k * t.toNat

theorem windowValue_succ {uu : List DWORD} {j k : ℕ} (t : DWORD) (h : j < uu.length) :
    windowValue uu j (k + 1) t = (uu.getD j 0).toNat + radix * windowValue uu (j + 1) k t := by
  rw [windowValue, windowValue, List.drop_eq_getElem_cons h, List.take_succ_cons, value_cons,
    List.getD_eq_getElem _ _ h, pow_succ]
  ring

theorem value_take_add_window {uu : List DWORD} {j k : ℕ} (t : DWORD) (h : j < uu.length) :
    value (uu.take (j + 1)) + radix ^ (j + 1) * windowValue uu (j + 1) k t =
      value (uu.take j) + radix ^ j * windowValue uu j (k + 1) t := by
  rw [windowValue_succ t h, value_take_succ uu h, pow_succ]
  ring

theorem windowValue_append {uu ww : List DWORD} {j k : ℕ} (h : j ≤ uu.length)
    (hww : ww.length = k + 1) (rest : List DWORD) :
    windowValue (uu.take j ++ ww ++ rest) j k ((uu.take j ++ ww ++ rest).getD (j + k) 0) =
      value ww := by
  have hdrop : (uu.take j ++ ww ++ rest).drop j = ww ++ rest := by
    rw [List.append_assoc, List.drop_left' (List.length_take_of_le h)]
  have hget : (uu.take j ++ ww ++ rest).getD (j + k) 0 = ww.getD k 0 := by
    rw [← getD_drop, hdrop, List.getD_append _ _ _ _ (by omega)]
  have hvalue := value_take_succ ww (show k < ww.length by omega)
  rw [← hww, List.take_length] at hvalue
  rw [windowValue, hget, hdrop, List.take_append_of_le_length (by omega), hvalue]

/-- **A step**, where the words of the window that are above it are less than the divisor: the
estimate is at most one too large, and the word of the quotient is exact. -/
theorem divideStep_eq {k : ℕ} (h2 : 2 ≤ k + 1) {v : List DWORD} (hv : k + 1 ≤ v.length)
    (hn : radix ≤ 2 * (v.getD k 0).toNat) {uu : List DWORD} {j : ℕ} {t qhat : DWORD}
    (hu : j + (k + 1) ≤ uu.length) (hlt : windowValue uu (j + 1) k t < value (v.take (k + 1)))
    (hq : qhat = estimateWord (uu.getD (j + k) 0, t) (v.getD k 0) (v.getD (k + 1 - 2) 0)
      (uu.getD (j + (k + 1 - 2)) 0)) :
    t.toNat ≤ (v.getD k 0).toNat ∧
      windowValue uu j (k + 1) t / value (v.take (k + 1)) ≤ qhat.toNat ∧
      qhat.toNat ≤ windowValue uu j (k + 1) t / value (v.take (k + 1)) + 1 ∧
      (divideWindow t ((uu.drop j).take (k + 1)) (v.take (k + 1)) qhat).1.length = k + 1 ∧
      value (divideWindow t ((uu.drop j).take (k + 1)) (v.take (k + 1)) qhat).1 =
        windowValue uu j (k + 1) t % value (v.take (k + 1)) ∧
      (divideWindow t ((uu.drop j).take (k + 1)) (v.take (k + 1)) qhat).2.toNat =
        windowValue uu j (k + 1) t / value (v.take (k + 1)) := by
  have hpos : 0 < value (v.take (k + 1)) := by omega
  have hj : j < uu.length := by omega
  have hwindow := windowValue_succ (k := k) t hj
  have hword := toNat_lt (uu.getD j 0)
  -- the word above the window is not above that of the divisor
  have ht : t.toNat ≤ (v.getD k 0).toNat := by
    by_contra hgt
    have hlead := value_take_succ v (show k < v.length by omega)
    have := above_lt (y := value ((uu.drop (j + 1)).take k)) (value_take_lt v k)
      (Nat.lt_of_not_le hgt)
    rw [windowValue] at hlt
    omega
  have hquot : windowValue uu j (k + 1) t / value (v.take (k + 1)) < radix := by
    rw [Nat.div_lt_iff_lt_mul hpos, hwindow]
    calc (uu.getD j 0).toNat + radix * windowValue uu (j + 1) k t
        < radix * (windowValue uu (j + 1) k t + 1) := by rw [Nat.mul_succ]; omega
      _ ≤ radix * value (v.take (k + 1)) := Nat.mul_le_mul_left radix hlt
  obtain ⟨hle, hsucc⟩ := estimateWord_spec h2 (w := uu.drop j)
    (by rw [List.length_drop]; omega) hv hn hquot ht rfl
  rw [getD_drop, getD_drop, Nat.add_sub_cancel, ← hq] at hle hsucc
  have hwlen : ((uu.drop j).take (k + 1)).length = k + 1 := by
    rw [List.length_take, List.length_drop]
    omega
  have hvlen : (v.take (k + 1)).length = k + 1 := List.length_take_of_le hv
  have hstep := divideWindow_eq (hwlen.trans hvlen.symm) hpos (by rw [hwlen]; exact hle)
    (by rw [hwlen]; exact hsucc)
  rw [hwlen] at hstep
  exact ⟨ht, hle, hsucc, hstep⟩

/-- **The long division**, from a window whose upper words are less than the divisor. -/
theorem divideLoop_eq {n : ℕ} (h2 : 2 ≤ n) {v : List DWORD} (hv : n ≤ v.length)
    (hn : radix ≤ 2 * (v.getD (n - 1) 0).toNat) : ∀ {c : ℕ} (q uu : List DWORD) {t : DWORD},
    n ≤ uu.length → c + n ≤ uu.length + 1 → c ≤ q.length →
    windowValue uu c (n - 1) t < value (v.take n) → (c = 0 → t = uu.getD (n - 1) 0) →
    (divideLoop n v c q uu t).1.length = q.length ∧
      (divideLoop n v c q uu t).2.length = uu.length ∧
      (divideLoop n v c q uu t).1.drop c = q.drop c ∧
      (divideLoop n v c q uu t).2.drop (c + n - 1) = uu.drop (c + n - 1) ∧
      value ((divideLoop n v c q uu t).1.take c) =
        (value (uu.take c) + radix ^ c * windowValue uu c (n - 1) t) / value (v.take n) ∧
      value ((divideLoop n v c q uu t).2.take n) =
        (value (uu.take c) + radix ^ c * windowValue uu c (n - 1) t) % value (v.take n)
  | 0, q, uu, t, hu, _, _, hlt, ht => by
    have hvalue := value_take_succ uu (show n - 1 < uu.length by omega)
    rw [Nat.sub_add_cancel (by omega), ← ht rfl] at hvalue
    have hwindow : windowValue uu 0 (n - 1) t = value (uu.take n) := hvalue.symm
    rw [hwindow] at hlt ⊢
    simp only [divideLoop, List.take_zero, value_nil, pow_zero, Nat.one_mul, Nat.zero_add,
      true_and]
    exact ⟨(Nat.div_eq_of_lt hlt).symm, (Nat.mod_eq_of_lt hlt).symm⟩
  | j + 1, q, uu, t, hu, hc, hq, hlt, _ => by
    have hpos : 0 < value (v.take n) := by omega
    obtain ⟨k, rfl⟩ : ∃ k, n = k + 1 := ⟨n - 1, by omega⟩
    rw [Nat.add_sub_cancel] at hlt ⊢
    have hj : j < uu.length := by omega
    have hstep := divideStep_eq h2 hv hn (show j + (k + 1) ≤ uu.length by omega) hlt rfl
    rw [divideLoop, show j + (k + 1) - 1 = j + (k + 1 - 1) from rfl,
      show j + (k + 1) - 2 = j + (k + 1 - 2) by omega, Nat.add_sub_cancel]
    obtain ⟨-, -, -, hstep⟩ := hstep
    generalize divideWindow t _ _ _ = p at hstep ⊢
    obtain ⟨ww, qj⟩ := p
    dsimp only at hstep ⊢
    obtain ⟨hww, hrem, hqj⟩ := hstep
    -- the array after the step
    have hcut := windowValue_append hj.le hww (uu.drop (j + (k + 1)))
    have htake : (uu.take j ++ ww ++ uu.drop (j + (k + 1))).take j = uu.take j := by
      rw [List.append_assoc, List.take_left' (List.length_take_of_le hj.le)]
    have hdrop : (uu.take j ++ ww ++ uu.drop (j + (k + 1))).drop (j + (k + 1)) =
        uu.drop (j + (k + 1)) := by
      apply List.drop_left'
      rw [List.length_append, List.length_take_of_le hj.le, hww]
    have hlength : (uu.take j ++ ww ++ uu.drop (j + (k + 1))).length = uu.length := by
      rw [List.length_append, List.length_append, List.length_take_of_le hj.le, hww,
        List.length_drop]
      omega
    generalize uu.take j ++ ww ++ uu.drop (j + (k + 1)) = uu2 at hcut htake hdrop hlength ⊢
    have hrest := divideLoop_eq h2 hv hn (c := j) (q.set j qj) uu2
      (t := uu2.getD (j + k) 0) (by omega) (by omega) (by rw [List.length_set]; omega)
      (by rw [Nat.add_sub_cancel, hcut, hrem]; exact Nat.mod_lt _ hpos)
      (fun h0 => by rw [h0, Nat.zero_add, Nat.add_sub_cancel])
    rw [Nat.add_sub_cancel, hcut, hrem, htake, hlength, List.length_set] at hrest
    obtain ⟨hqlen, hulen, hqdrop, hudrop, hqvalue, huvalue⟩ := hrest
    have hall : value (uu.take (j + 1)) + radix ^ (j + 1) * windowValue uu (j + 1) k t =
        value (uu.take j) + radix ^ j * (windowValue uu j (k + 1) t % value (v.take (k + 1))) +
          value (v.take (k + 1)) * (radix ^ j * qj.toNat) := by
      have hdm := Nat.div_add_mod (windowValue uu j (k + 1) t) (value (v.take (k + 1)))
      rw [← hqj] at hdm
      rw [value_take_add_window t hj]
      linear_combination radix ^ j * hdm.symm
    have hqget : (divideLoop (k + 1) v j (q.set j qj) uu2 (uu2.getD (j + k) 0)).1.getD j 0 =
        qj := by
      have hget := getD_drop (divideLoop (k + 1) v j (q.set j qj) uu2 (uu2.getD (j + k) 0)).1 j 0
      rw [hqdrop, getD_drop, Nat.add_zero] at hget
      rw [← hget, List.getD_eq_getElem _ _ (by rw [List.length_set]; omega),
        List.getElem_set_self]
    rw [hall, Nat.add_mul_div_left _ _ hpos, Nat.add_mul_mod_self_left]
    refine ⟨hqlen, hulen, ?_, ?_, ?_, huvalue⟩
    · rw [← List.drop_drop, hqdrop, List.drop_drop, List.drop_set_of_lt (Nat.lt_succ_self j)]
    · have hnext := congrArg (List.drop 1) hudrop
      rw [List.drop_drop, List.drop_drop] at hnext
      rw [show j + 1 + (k + 1) - 1 = j + (k + 1) by omega, ← hdrop]
      exact hnext
    · rw [value_take_succ _ (by omega), hqvalue, hqget]

/-! ## A number by a number -/

/-- What `BigNumberDivide` answers and leaves in its arrays. -/
structure Division where
  ret : Int
  q : List DWORD
  r : List DWORD
  v : List DWORD

/-- The long division of `n + m` words by `n`. -/
def divideNormal (u v : List DWORD) (n m : ℕ) : Division :=
  let shift := highBit (v.getD (n - 1) 0)
  let vs := (bigNumberShiftLeft (v.take n) (v.take n) shift).1 ++ v.drop n
  let us := bigNumberShiftLeft (List.replicate (n + m) 0) (u.take (n + m)) shift
  match divideLoop n vs (m + 1) (List.replicate u.length 0)
    (us.1 ++ List.replicate (u.length - (n + m)) 0) us.2 with
  | (q, uu) =>
    { ret := 0
      q := q
      r := (bigNumberShiftRight (uu.take n) (uu.take n) shift).1 ++
        (List.replicate m 0 ++ uu.drop (m + n))
      v := (bigNumberShiftRight (vs.take n) (vs.take n) shift).1 ++ vs.drop n }

def bigNumberDivide (u v : List DWORD) : Division :=
  let n := bigNumberSizeof v v.length
  let m : Int := bigNumberSizeof u u.length - n
  let zero := List.replicate u.length 0
  if n = 0 then ⟨-1, zero, zero, v⟩
  else if n = 1 then
    match bigNumberDividedw zero u (v.getD 0 0) with
    | (q, r) => ⟨0, q, zero.set 0 r, v⟩
  else if m < 0 then ⟨0, zero, u, v⟩
  else if m = 0 ∧ bigNumberCompare u v n < 0 then ⟨0, zero, u, v⟩
  else if m = 0 ∧ bigNumberCompare u v n = 0 then ⟨0, zero.set 0 1, zero, v⟩
  else divideNormal u v n m.toNat

structure Division.Right (d : Division) (u v : List DWORD) : Prop where
  ret : d.ret = 0
  length_q : d.q.length = u.length
  length_r : d.r.length = u.length
  value_q : value d.q = value u / value v
  value_r : value d.r = value u % value v
  v : d.v = v

/-- The divisor, shifted so that its high bit is set, still has its size. -/
theorem shiftLeft_divisor {v : List DWORD} {n : ℕ} (hpos : 0 < n) (hv : n ≤ v.length)
    (hlast : v.getD (n - 1) 0 ≠ 0) {vs : List DWORD}
    (hvs : vs = (bigNumberShiftLeft (v.take n) (v.take n) (highBit (v.getD (n - 1) 0))).1) :
    vs.length = n ∧ value vs = value (v.take n) * 2 ^ highBit (v.getD (n - 1) 0) ∧
      radix ≤ 2 * (vs.getD (n - 1) 0).toNat := by
  obtain ⟨hshift, hn, hlt⟩ := highBit_spec hlast
  obtain ⟨hlen, hvalue, -⟩ := bigNumberShiftLeft_eq (v.take n) (v.take n) hshift
  rw [← hvs, List.length_take_of_le hv] at hlen hvalue
  obtain ⟨k, rfl⟩ : ∃ k, n = k + 1 := ⟨n - 1, by omega⟩
  rw [Nat.add_sub_cancel] at *
  have hlead := value_take_succ v hv
  have hlow := value_take_lt v k
  have hpow : 2 ^ (32 - highBit (v.getD k 0)) * 2 ^ highBit (v.getD k 0) = radix := by
    rw [← pow_add, Nat.sub_add_cancel hshift.le]
    rfl
  generalize (bigNumberShiftLeft (v.take (k + 1)) (v.take (k + 1)) (highBit (v.getD k 0))).2 = c
    at hvalue
  generalize (v.getD k 0).toNat = w at hn hlt hlead
  generalize highBit (v.getD k 0) = s at *
  -- no bit leaves the highest word
  have hroom : value (v.take (k + 1)) * 2 ^ s < radix ^ (k + 1) := by
    have hw : w < 2 ^ (32 - s) := by
      apply Nat.lt_of_mul_lt_mul_right (a := 2 ^ s)
      rw [hpow]
      exact hlt
    calc value (v.take (k + 1)) * 2 ^ s < radix ^ k * (w + 1) * 2 ^ s := by
          apply Nat.mul_lt_mul_of_pos_right _ (Nat.two_pow_pos s)
          rw [hlead, Nat.mul_succ]
          omega
      _ ≤ radix ^ k * (2 ^ (32 - s) * 2 ^ s) := by
          rw [Nat.mul_assoc]
          exact Nat.mul_le_mul_left _ (Nat.mul_le_mul_right _ hw)
      _ = radix ^ (k + 1) := by rw [hpow, pow_succ]
  have hc : c.toNat = 0 := by
    by_contra hne
    have := Nat.le_mul_of_pos_right (radix ^ (k + 1)) (Nat.pos_of_ne_zero hne)
    omega
  rw [hc, Nat.mul_zero, Nat.add_zero] at hvalue
  refine ⟨hlen, hvalue, ?_⟩
  have htop := value_take_succ vs (show k < vs.length by omega)
  have hlow' := value_take_lt vs k
  rw [← hlen, List.take_length] at htop
  have hle : w * 2 ^ s ≤ (vs.getD k 0).toNat := by
    apply Nat.le_of_lt_succ
    apply Nat.lt_of_mul_lt_mul_left (a := radix ^ k)
    calc radix ^ k * (w * 2 ^ s) ≤ value (v.take (k + 1)) * 2 ^ s := by
          rw [hlead, Nat.add_mul, Nat.mul_assoc]
          exact Nat.le_add_left _ _
      _ < radix ^ k * ((vs.getD k 0).toNat + 1) := by
          rw [← hvalue, htop, Nat.mul_succ]
          omega
  omega

/-- The first window of a division: all words are below it or in it. -/
theorem windowValue_start {us : List DWORD} {n m : ℕ} (h : us.length = n + 1 + m) (k : ℕ)
    (t : DWORD) :
    windowValue (us ++ List.replicate k 0) (m + 1) n t =
      value (us.drop (m + 1)) + radix ^ n * t.toNat := by
  rw [windowValue, List.drop_append_of_le_length (by omega), List.take_left']
  rw [List.length_drop]
  omega

/-- **How the long division starts**: the divisor has its high bit set, and the first window holds
less than it. -/
theorem divideNormal_start {u v vs us : List DWORD} {n m : ℕ} {overflow : DWORD} (hpos : 0 < n)
    (hv : n ≤ v.length) (hlast : v.getD (n - 1) 0 ≠ 0) (hvalue : value (v.take n) = value v)
    (hu : n + m ≤ u.length)
    (hvs : vs = (bigNumberShiftLeft (v.take n) (v.take n) (highBit (v.getD (n - 1) 0))).1)
    (hus : bigNumberShiftLeft (List.replicate (n + m) 0) (u.take (n + m))
      (highBit (v.getD (n - 1) 0)) = (us, overflow)) :
    n ≤ (vs ++ v.drop n).length ∧ radix ≤ 2 * ((vs ++ v.drop n).getD (n - 1) 0).toNat ∧
      (us ++ List.replicate (u.length - (n + m)) 0).length = u.length ∧
      windowValue (us ++ List.replicate (u.length - (n + m)) 0) (m + 1) (n - 1) overflow <
        value ((vs ++ v.drop n).take n) := by
  obtain ⟨hshift, -, -⟩ := highBit_spec hlast
  obtain ⟨hvslen, hvsvalue, hn⟩ := shiftLeft_divisor hpos hv hlast hvs
  obtain ⟨huslen, -, hover⟩ :=
    bigNumberShiftLeft_eq (List.replicate (n + m) 0) (u.take (n + m)) hshift
  rw [hus, List.length_take_of_le hu] at huslen
  rw [hus] at hover
  rw [hvalue] at hvsvalue
  dsimp only at huslen hover
  generalize highBit (v.getD (n - 1) 0) = s at hvsvalue hover
  obtain ⟨k, rfl⟩ : ∃ k, n = k + 1 := ⟨n - 1, by omega⟩
  have hstart := windowValue_start (by omega : us.length = k + 1 + m)
    (u.length - (k + 1 + m)) overflow
  refine ⟨by rw [List.length_append]; omega, ?_, ?_, ?_⟩
  · rwa [List.getD_append _ _ _ _ (by omega)]
  · rw [List.length_append, List.length_replicate]
    omega
  · have hlow := value_lt (us.drop (m + 1))
    rw [List.length_drop, show us.length - (m + 1) = k by omega] at hlow
    rw [List.take_left' hvslen, Nat.add_sub_cancel, hstart, hvsvalue]
    calc value (us.drop (m + 1)) + radix ^ k * overflow.toNat
        < radix ^ k * (overflow.toNat + 1) := by rw [Nat.mul_succ]; omega
      _ ≤ radix ^ k * 2 ^ s := Nat.mul_le_mul_left _ hover
      _ ≤ value v * 2 ^ s := by
        apply Nat.mul_le_mul_right
        have hlead := value_take_succ v (show k < v.length by omega)
        rw [hvalue] at hlead
        rw [hlead]
        exact (Nat.le_mul_of_pos_right _ (toNat_pos hlast)).trans (Nat.le_add_left _ _)

theorem divideNormal_right {u v : List DWORD} {n m : ℕ} (h2 : 2 ≤ n) (hv : n ≤ v.length)
    (hlast : v.getD (n - 1) 0 ≠ 0) (hvalue : value (v.take n) = value v) (hu : n + m ≤ u.length)
    (huvalue : value (u.take (n + m)) = value u) : (divideNormal u v n m).Right u v := by
  obtain ⟨hshift, -, -⟩ := highBit_spec hlast
  obtain ⟨hvslen, hvsvalue, -⟩ := shiftLeft_divisor (by omega) hv hlast rfl
  obtain ⟨huslen, husvalue, -⟩ :=
    bigNumberShiftLeft_eq (List.replicate (n + m) 0) (u.take (n + m)) hshift
  rw [List.length_take_of_le hu] at huslen husvalue
  rw [hvalue] at hvsvalue
  rw [huvalue] at husvalue
  have hpos : 0 < value v := by
    have hlead := value_take_succ v (show n - 1 < v.length by omega)
    rw [Nat.sub_add_cancel (by omega), hvalue] at hlead
    have := Nat.mul_pos (Nat.pow_pos (n := n - 1) radix_pos) (toNat_pos hlast)
    omega
  have hpow := Nat.two_pow_pos (highBit (v.getD (n - 1) 0))
  have hstart := fun us overflow =>
    @divideNormal_start u v _ us n m overflow (by omega) hv hlast hvalue hu rfl
  rw [divideNormal]
  dsimp only
  generalize (bigNumberShiftLeft (v.take n) (v.take n) (highBit (v.getD (n - 1) 0))).1 = vs
    at hvslen hvsvalue hstart ⊢
  generalize bigNumberShiftLeft (List.replicate (n + m) 0) (u.take (n + m))
    (highBit (v.getD (n - 1) 0)) = p at huslen husvalue hstart ⊢
  obtain ⟨us, overflow⟩ := p
  dsimp only at huslen husvalue ⊢
  obtain ⟨hvsle, hn, huulen, hwindow⟩ := hstart us overflow rfl
  generalize highBit (v.getD (n - 1) 0) = s at hshift hvsvalue husvalue hpow ⊢
  obtain ⟨k, rfl⟩ : ∃ k, n = k + 1 := ⟨n - 1, by omega⟩
  have hvstake : (vs ++ v.drop (k + 1)).take (k + 1) = vs := List.take_left' hvslen
  have hvsdrop : (vs ++ v.drop (k + 1)).drop (k + 1) = v.drop (k + 1) := List.drop_left' hvslen
  have hstart := windowValue_start (by omega : us.length = k + 1 + m)
    (u.length - (k + 1 + m)) overflow
  have hloop := divideLoop_eq h2 (v := vs ++ v.drop (k + 1)) (c := m + 1)
    hvsle hn (List.replicate u.length 0) _
    (by omega) (by omega)
    (by rw [List.length_replicate]; omega) hwindow (absurd · (Nat.succ_ne_zero m))
  have hall : value ((us ++ List.replicate (u.length - (k + 1 + m)) 0).take (m + 1)) +
      radix ^ (m + 1) * windowValue (us ++ List.replicate (u.length - (k + 1 + m)) 0) (m + 1) k
        overflow = value u * 2 ^ s := by
    have hsplit := value_take_add_drop us (show m + 1 ≤ us.length by omega)
    have hexp : radix ^ (k + 1 + m) = radix ^ (m + 1) * radix ^ k := by
      rw [← pow_add]
      congr 1
      omega
    rw [hexp] at husvalue
    rw [hstart, List.take_append_of_le_length (by omega)]
    linear_combination husvalue - hsplit
  rw [hvstake, Nat.add_sub_cancel, hall, hvsvalue, Nat.mul_div_mul_right _ _ hpow,
    Nat.mul_mod_mul_right, huulen, List.length_replicate] at hloop
  rw [hvstake, hvsdrop]
  generalize divideLoop (k + 1) (vs ++ v.drop (k + 1)) (m + 1) (List.replicate u.length 0)
    (us ++ List.replicate (u.length - (k + 1 + m)) 0) overflow = d at hloop ⊢
  obtain ⟨q, uu⟩ := d
  dsimp only at hloop ⊢
  obtain ⟨hqlen, hulen, hqdrop, hudrop, hqvalue, hrvalue⟩ := hloop
  have hrtake : (uu.take (k + 1)).length = k + 1 := List.length_take_of_le (by omega)
  obtain ⟨hrlen, hrshift⟩ := bigNumberShiftRight_eq (uu.take (k + 1)) (uu.take (k + 1)) hshift
  obtain ⟨hvlen, hvshift⟩ := bigNumberShiftRight_eq vs vs hshift
  have hzero : value (uu.drop (m + (k + 1))) = 0 := by
    rw [show m + (k + 1) = m + 1 + (k + 1) - 1 by omega, hudrop, List.drop_append,
      List.drop_eq_nil_of_le (by omega), List.nil_append, List.drop_replicate, value_replicate]
  refine ⟨rfl, hqlen, ?_, ?_, ?_, ?_⟩
  · rw [List.length_append, hrlen, hrtake, List.length_append, List.length_replicate,
      List.length_drop]
    omega
  · rw [value_take_add_drop q (show m + 1 ≤ q.length by omega), hqvalue, hqdrop,
      List.drop_replicate, value_replicate, Nat.mul_zero, Nat.add_zero]
  · rw [value_append, value_append, value_replicate, hzero, hrshift, hrvalue,
      Nat.mul_div_cancel _ hpow]
    simp
  · -- the bits that were shifted in are shifted out
    have hback : (bigNumberShiftRight vs vs s).1 = v.take (k + 1) := by
      apply eq_of_value_eq
      · rw [hvlen, hvslen, List.length_take_of_le hv]
      · rw [hvshift, hvsvalue, Nat.mul_div_cancel _ hpow, hvalue]
    rw [hback, List.take_append_drop]

theorem bigNumberSizeof_pos {v : List DWORD} (hv : 0 < value v) :
    bigNumberSizeof v v.length ≠ 0 := by
  intro h0
  have hvalue := value_take_bigNumberSizeof (a := v) (le_refl v.length)
  rw [h0, List.take_zero, List.take_length, value_nil] at hvalue
  omega

/-- Of two numbers of different sizes, that with more words is the larger. -/
theorem value_lt_of_size {v : List DWORD} (hv : bigNumberSizeof v v.length ≠ 0) :
    radix ^ (bigNumberSizeof v v.length - 1) ≤ value v := by
  have hvalue := value_take_bigNumberSizeof (a := v) (le_refl v.length)
  have hle := bigNumberSizeof_le v v.length
  have hlast := toNat_pos (getD_bigNumberSizeof v hv)
  obtain ⟨k, hk⟩ : ∃ k, bigNumberSizeof v v.length = k + 1 :=
    ⟨bigNumberSizeof v v.length - 1, by omega⟩
  rw [hk, Nat.add_sub_cancel] at hlast ⊢
  rw [hk, List.take_length, value_take_succ v (by omega)] at hvalue
  rw [← hvalue]
  exact (Nat.le_mul_of_pos_right _ hlast).trans (Nat.le_add_left _ _)

theorem value_lt_size (u : List DWORD) : value u < radix ^ bigNumberSizeof u u.length := by
  have hvalue := value_take_bigNumberSizeof (a := u) (le_refl u.length)
  rw [List.take_length] at hvalue
  rw [← hvalue]
  exact value_take_lt u _

/-- **A division** of numbers of any sizes. -/
theorem bigNumberDivide_right {u v : List DWORD} (hu : u ≠ []) (hv : 0 < value v) :
    (bigNumberDivide u v).Right u v := by
  have hn0 := bigNumberSizeof_pos hv
  have hvalue := value_take_bigNumberSizeof (a := v) (le_refl v.length)
  have huvalue := value_take_bigNumberSizeof (a := u) (le_refl u.length)
  have hvle := bigNumberSizeof_le v v.length
  have hule := bigNumberSizeof_le u u.length
  have hvlow := value_lt_of_size hn0
  have hlast := getD_bigNumberSizeof v hn0
  have hult := value_lt_size u
  have hcompare := @bigNumberCompare_eq u v (bigNumberSizeof v v.length)
  rw [List.take_length] at hvalue huvalue
  rw [bigNumberDivide]
  dsimp only
  generalize bigNumberSizeof v v.length = n at *
  generalize bigNumberSizeof u u.length = size at *
  have hless : value u < value v → Division.Right ⟨0, List.replicate u.length 0, u, v⟩ u v :=
    fun hlt => ⟨rfl, List.length_replicate, rfl,
      by rw [value_replicate, Nat.div_eq_of_lt hlt], (Nat.mod_eq_of_lt hlt).symm, rfl⟩
  rw [if_neg hn0]
  by_cases hn1 : n = 1
  · -- a divisor of one word
    subst hn1
    have hword : value v = (v.getD 0 0).toNat := by
      rw [← hvalue, value_take_succ v (by omega), List.take_zero, value_nil, pow_zero]
      omega
    obtain ⟨hlen, hq, hr⟩ := bigNumberDividedw_eq (q := List.replicate u.length 0) hu hlast
    rw [if_pos rfl]
    generalize bigNumberDividedw (List.replicate u.length 0) u (v.getD 0 0) = p at hlen hq hr ⊢
    obtain ⟨q, r⟩ := p
    dsimp only at hlen hq hr ⊢
    rw [← hword] at hq hr
    obtain ⟨k, hk⟩ : ∃ k, u.length = k + 1 :=
      Nat.exists_eq_succ_of_ne_zero (mt List.eq_nil_of_length_eq_zero hu)
    refine ⟨rfl, hlen, by simp, hq, ?_, rfl⟩
    rw [hk, List.replicate_succ, List.set_cons_zero, value_cons, value_replicate, Nat.mul_zero,
      Nat.add_zero, hr]
  · rw [if_neg hn1]
    by_cases hm : (size : Int) - n < 0
    · -- fewer words than the divisor
      rw [if_pos hm]
      refine hless (hult.trans_le (le_trans ?_ hvlow))
      exact Nat.pow_le_pow_right radix_pos (by omega)
    · rw [if_neg hm]
      by_cases hm0 : (size : Int) - n = 0
      · have hsize : size = n := by omega
        subst hsize
        rw [hcompare hule hvle, huvalue, hvalue]
        obtain hlt | heq | hgt := Nat.lt_trichotomy (value u) (value v)
        · rw [if_pos ⟨hm0, by rw [if_neg hlt.le.not_gt, if_pos hlt]; omega⟩]
          exact hless hlt
        · have hcmp : ¬ value v < value u ∧ ¬ value u < value v := by omega
          rw [if_neg hcmp.1, if_neg hcmp.2, if_neg (by simp), if_pos ⟨hm0, rfl⟩]
          obtain ⟨k, hk⟩ : ∃ k, u.length = k + 1 :=
            Nat.exists_eq_succ_of_ne_zero (mt List.eq_nil_of_length_eq_zero hu)
          refine ⟨rfl, by simp, by simp, ?_, ?_, rfl⟩
          · rw [hk, List.replicate_succ, List.set_cons_zero, value_cons, value_replicate,
              toNat_one, Nat.mul_zero, Nat.add_zero, heq, Nat.div_self hv]
          · rw [value_replicate, heq, Nat.mod_self]
        · rw [if_pos hgt, if_neg (by simp), if_neg (by simp)]
          exact divideNormal_right (by omega) hvle hlast hvalue (by omega)
            (by rw [show size + ((size : Int) - size).toNat = size by omega, huvalue])
      · rw [if_neg (fun h => hm0 h.1), if_neg (fun h => hm0 h.1)]
        have hnm : n + ((size : Int) - n).toNat = size := by omega
        exact divideNormal_right (by omega) hvle hlast hvalue (by omega)
          (by rw [hnm, huvalue])

end DWindow.Checksum
