import DWindow.Srt.Ass
import DWindow.Srt.Printed

/-!
# Times that are written and read again

`save_as_ass` writes hundredths of a second, `handle_line` puts a zero in front of an hour of
one digit and one behind the time, and `time_to_decimal` takes three digits behind the point
for milliseconds.  What comes back is the time without its last digit.
-/

namespace DWindow.Srt

open CInt Decimal WString

def decimalToTimeAss (decimal : Int) : List UInt16 :=
  printInt 0 (decimal.tdiv 3600000) ++ 58 ::
    (printInt 2 ((decimal.tmod 3600000).tdiv 60000) ++ 58 ::
      (printInt 2 ((decimal.tmod 60000).tdiv 1000) ++ 46 ::
        printInt 2 ((decimal.tmod 1000).tdiv 10)))

theorem decimalToTimeAss_natCast (k : Nat) :
    decimalToTimeAss k = clock 46 (padded 0 (k / 3600000)) (padded 2 (k % 3600000 / 60000))
      (padded 2 (k % 60000 / 1000)) (padded 2 (k % 1000 / 10)) := by
  have h₁ : (k : Int).tdiv 3600000 = ((k / 3600000 : Nat) : Int) := rfl
  have h₂ : ((k : Int).tmod 3600000).tdiv 60000 = ((k % 3600000 / 60000 : Nat) : Int) := rfl
  have h₃ : ((k : Int).tmod 60000).tdiv 1000 = ((k % 60000 / 1000 : Nat) : Int) := rfl
  have h₄ : ((k : Int).tmod 1000).tdiv 10 = ((k % 1000 / 10 : Nat) : Int) := rfl
  rw [decimalToTimeAss, h₁, h₂, h₃, h₄]
  simp only [printInt_natCast]
  rfl

/-- A character of a time is a digit, a colon or the separator. -/
theorem not_mem_clock {c sep : UInt16} {h m s f : List UInt16} (hc : isDigit c = false)
    (hcolon : c ≠ 58) (hsep : c ≠ sep) (hh : Numeral h) (hm : Numeral m) (hs : Numeral s)
    (hf : Numeral f) : c ∉ clock sep h m s f := by
  simp only [clock, List.mem_append, List.mem_cons, not_or]
  exact ⟨hh.not_mem hc, hcolon, hm.not_mem hc, hcolon, hs.not_mem hc, hsep, hf.not_mem hc⟩

theorem trim_of_not_mem {c : UInt16} {str : List UInt16} (h : c ∉ str) : trim c str = str :=
  trim_of_ends (fun hhead => h (List.mem_of_head? hhead))
    (fun hlast => h (List.mem_of_getLast? hlast))

theorem exists_hour {sep : UInt16} {h m s f : List UInt16} (hh : Numeral h) :
    ∃ h', Numeral h' ∧ value h' = value h ∧
      (if (clock sep h m s f)[1]? = some 58 then 48 :: clock sep h m s f
        else clock sep h m s f) = clock sep h' m s f := by
  split
  · refine ⟨48 :: h, ⟨List.cons_ne_nil _ _, ?_⟩, rfl, rfl⟩
    rintro c hc
    rcases List.mem_cons.mp hc with rfl | hc
    · decide
    · exact hh.2 c hc
  · exact ⟨h, hh, rfl, rfl⟩

/-- **A time of a dialogue line**, with two digits for the hundredths of a second. -/
theorem assTime_clock {h m s f : List UInt16} (hh : Numeral h) (hm : Numeral m) (hs : Numeral s)
    (hf : Numeral f) (htwo : f.length = 2)
    (hlt : (value h : Int) * 3600000 + (value m : Int) * 60000 + (value s : Int) * 1000 +
      10 * (value f : Int) < 2 ^ 31) :
    assTime (clock 46 h m s f) = (value h : Int) * 3600000 + (value m : Int) * 60000 +
      (value s : Int) * 1000 + 10 * (value f : Int) := by
  have hlast : value (f ++ [48]) = 10 * value f := by
    rw [value_append]
    rfl
  have hnumeral : Numeral (f ++ [48]) :=
    hf.append ⟨List.cons_ne_nil _ _, List.forall_mem_singleton.mpr (by decide)⟩
  have hsmall : value f < 10 ^ 2 := htwo ▸ hf.value_lt
  obtain ⟨hour, hhour, hvalue, hclock⟩ := @exists_hour 46 h m s f hh
  have hzero : clock 46 hour m s f ++ [48] = clock 46 hour m s (f ++ [48]) := by
    simp only [clock, List.append_assoc, List.cons_append]
  have hcomma : (44 : UInt16) ∉ clock 46 hour m s (f ++ [48]) :=
    not_mem_clock (by decide) (by decide) (by decide) hhour hm hs hnumeral
  have hpoint : (46 : UInt16) ∈ clock 46 hour m s (f ++ [48]) := by simp [clock]
  rw [assTime, trim_of_not_mem (not_mem_clock (by decide) (by decide) (by decide) hh hm hs hf),
    hclock, hzero, timeToDecimal, if_neg hcomma, if_pos hpoint,
    timeWith_clock (by decide) (by decide) hhour hm hs hnumeral
      (by rw [List.length_append, htwo]; rfl) (by rw [hlast]; omega), hvalue, hlast]
  rw [toInt32_of_lt (by omega) (by push_cast; omega)]
  push_cast
  rfl

/-- **A time of a dialogue line is read back**, without its last digit. -/
theorem assTime_decimalToTimeAss {n : Int} (h₀ : 0 ≤ n) (h : n < 2 ^ 31) :
    assTime (decimalToTimeAss n) = 10 * (n / 10) := by
  obtain ⟨k, rfl⟩ := Int.eq_ofNat_of_zero_le h₀
  rw [decimalToTimeAss_natCast, assTime_clock (numeral_padded _ _) (numeral_padded _ _)
    (numeral_padded _ _) (numeral_padded _ _) (length_padded (by omega) (by omega))]
  · simp only [value_padded]
    omega
  · simp only [value_padded]
    omega

theorem length_decimalToTimeAss_lt {n : Int} (h₀ : 0 ≤ n) (h : n < 2 ^ 31) :
    (decimalToTimeAss n).length < 15 := by
  obtain ⟨k, rfl⟩ := Int.eq_ofNat_of_zero_le h₀
  have h₁ : (padded 0 (k / 3600000)).length ≤ 3 := length_padded_le (by omega) (by omega) (by omega)
  have h₂ : (padded 2 (k % 3600000 / 60000)).length = 2 := length_padded (by omega) (by omega)
  have h₃ : (padded 2 (k % 60000 / 1000)).length = 2 := length_padded (by omega) (by omega)
  have h₄ : (padded 2 (k % 1000 / 10)).length = 2 := length_padded (by omega) (by omega)
  rw [decimalToTimeAss_natCast]
  simp only [clock, List.length_append, List.length_cons]
  omega

/-! ## A dialogue line -/

theorem splitComma_append {front : List UInt16} (h : (44 : UInt16) ∉ front)
    (rest : List UInt16) : splitComma (front ++ 44 :: rest) = some (front, rest) := by
  have hfind : findSub (wide [',']) (front ++ 44 :: rest) = some front.length :=
    findSub_append rest h
  rw [splitComma, hfind, Option.map_some, List.take_left, ← List.drop_drop, List.drop_left]
  rfl

theorem dialogueTimes_fields {front start stop : List UInt16} (hfront : (44 : UInt16) ∉ front)
    (hstart : (44 : UInt16) ∉ start) (hstop : (44 : UInt16) ∉ stop) (rest : List UInt16) :
    dialogueTimes (front ++ 44 :: (start ++ 44 :: (stop ++ 44 :: rest))) =
      some (assTime start, assTime stop) := by
  rw [dialogueTimes, splitComma_append hfront, Option.bind_eq_bind, Option.bind_some]
  dsimp only
  rw [splitComma_append hstart, Option.bind_some]
  dsimp only
  rw [splitComma_append hstop, Option.bind_some]

theorem not_mem_decimalToTimeAss {n : Int} (h₀ : 0 ≤ n) : (44 : UInt16) ∉ decimalToTimeAss n := by
  obtain ⟨k, rfl⟩ := Int.eq_ofNat_of_zero_le h₀
  rw [decimalToTimeAss_natCast]
  exact not_mem_clock (by decide) (by decide) (by decide) (numeral_padded _ _)
    (numeral_padded _ _) (numeral_padded _ _) (numeral_padded _ _)

/-- **Times come back**: those of an SRT file exactly, those of a dialogue line to the hundredth
of a second, and all of them fit into 15 characters. -/
theorem times_come_back {ms : Int} (h₀ : 0 ≤ ms) (h : ms < 2 ^ 31) :
    timeToDecimal (decimalToTime ms) = ms ∧ (decimalToTime ms).length < 15 ∧
      assTime (decimalToTimeAss ms) = 10 * (ms / 10) ∧ (decimalToTimeAss ms).length < 15 ∧
      ∀ front rest : List UInt16, (44 : UInt16) ∉ front → ∀ stop : Int, 0 ≤ stop →
        stop < 2 ^ 31 →
        dialogueTimes (front ++ 44 :: (decimalToTimeAss ms ++ 44 ::
          (decimalToTimeAss stop ++ 44 :: rest))) =
            some (10 * (ms / 10), 10 * (stop / 10)) := by
  refine ⟨timeToDecimal_decimalToTime h₀ h, ?_, assTime_decimalToTimeAss h₀ h,
    length_decimalToTimeAss_lt h₀ h, ?_⟩
  · obtain ⟨k, rfl⟩ := Int.eq_ofNat_of_zero_le h₀
    exact length_decimalToTime_lt (by omega)
  · intro front rest hfront stop hstop₀ hstop
    rw [dialogueTimes_fields hfront (not_mem_decimalToTimeAss h₀)
      (not_mem_decimalToTimeAss hstop₀), assTime_decimalToTimeAss h₀ h,
      assTime_decimalToTimeAss hstop₀ hstop]

theorem times_come_back_greatest :
    timeToDecimal (decimalToTime 2147483647) = 2147483647 ∧
      assTime (decimalToTimeAss 2147483647) = 2147483640 :=
  ⟨(times_come_back (by decide) (by decide)).1, (times_come_back (by decide) (by decide)).2.2.1⟩

end DWindow.Srt
