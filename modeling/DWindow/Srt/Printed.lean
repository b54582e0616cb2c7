import DWindow.Srt.Save

/-!
# What is printed is scanned again

The times and the offset tag that `save` prints are read back by `time_to_decimal` and
`direct_add_subtitle`, and the tag is taken off the text again.
-/

namespace DWindow.Srt

open CInt Decimal WString

/-! ## Numbers -/

theorem printInt_natCast (w n : Nat) : printInt w n = padded w n := by
  rw [printInt, if_neg (by omega), Int.toNat_natCast]

theorem scanInt_printInt (w : Nat) (n : Int) {rest : List UInt16}
    (hrest : ∀ c ∈ rest.head?, isDigit c = false) :
    scanInt (printInt w n ++ rest) = some (n, rest) := by
  unfold printInt
  split
  · next hneg =>
    rw [List.cons_append, scanInt_minus _ _ hrest, Int.ofNat_natAbs_of_nonpos (Int.le_of_lt hneg),
      Int.neg_neg]
  · next hpos =>
    rw [scanInt_padded _ _ hrest, Int.toNat_of_nonneg (Int.not_lt.mp hpos)]

/-! ## Times -/

theorem decimalToTime_natCast (k : Nat) :
    decimalToTime k = padded 2 (k / 3600000) ++ 58 :: (padded 2 (k % 3600000 / 60000) ++ 58 ::
      (padded 2 (k % 60000 / 1000) ++ 44 :: padded 3 (k % 1000))) := by
  have h₁ : (k : Int).tdiv 3600000 = ((k / 3600000 : Nat) : Int) := rfl
  have h₂ : ((k : Int).tmod 3600000).tdiv 60000 = ((k % 3600000 / 60000 : Nat) : Int) := rfl
  have h₃ : ((k : Int).tmod 60000).tdiv 1000 = ((k % 60000 / 1000 : Nat) : Int) := rfl
  have h₄ : (k : Int).tmod 1000 = ((k % 1000 : Nat) : Int) := rfl
  rw [decimalToTime, h₁, h₂, h₃, h₄]
  simp only [printInt_natCast]

theorem timeChar {k : Nat} {c : UInt16} (h : c ∈ decimalToTime k) :
    isDigit c = true ∨ c = 58 ∨ c = 44 := by
  rw [decimalToTime_natCast] at h
  simp only [List.mem_append, List.mem_cons] at h
  rcases h with h | rfl | h | rfl | h | rfl | h
  · exact Or.inl (isDigit_of_mem_padded h)
  · exact Or.inr (Or.inl rfl)
  · exact Or.inl (isDigit_of_mem_padded h)
  · exact Or.inr (Or.inl rfl)
  · exact Or.inl (isDigit_of_mem_padded h)
  · exact Or.inr (Or.inr rfl)
  · exact Or.inl (isDigit_of_mem_padded h)

theorem not_mem_decimalToTime {c : UInt16} (hdigit : isDigit c = false) (hcolon : c ≠ 58)
    (hcomma : c ≠ 44) (k : Nat) : c ∉ decimalToTime k := by
  intro h
  rcases timeChar h with hc | hc | hc
  · rw [hdigit] at hc
    cases hc
  · exact hcolon hc
  · exact hcomma hc

theorem ends_decimalToTime (k : Nat) : decimalToTime k ≠ [] ∧
    (∀ c ∈ (decimalToTime k).head?, isDigit c = true) ∧
      ∀ c ∈ (decimalToTime k).getLast?, isDigit c = true := by
  rw [decimalToTime_natCast]
  refine ⟨?_, fun c hc => ?_, fun c hc => ?_⟩
  · exact List.append_ne_nil_of_left_ne_nil (padded_ne_nil _ _) _
  · rw [List.head?_append_of_ne_nil _ (padded_ne_nil _ _)] at hc
    exact isDigit_of_mem_padded (List.mem_of_head? hc)
  · have hlast : ∀ (xs : List UInt16) (x : UInt16) {ys : List UInt16}, ys ≠ [] →
        (xs ++ x :: ys).getLast? = ys.getLast? := by
      intro xs x ys hys
      rw [← List.singleton_append, ← List.append_assoc, List.getLast?_append_of_ne_nil _ hys]
    rw [hlast _ _ (by simp), hlast _ _ (by simp), hlast _ _ (padded_ne_nil _ _)] at hc
    exact isDigit_of_mem_padded (List.mem_of_getLast? hc)

theorem length_decimalToTime_lt {k : Nat} (h : k < 2 ^ 31) : (decimalToTime k).length < 15 := by
  have h₁ : (padded 2 (k / 3600000)).length ≤ 3 := length_padded_le (by omega) (by omega) (by omega)
  have h₂ : (padded 2 (k % 3600000 / 60000)).length = 2 := length_padded (by omega) (by omega)
  have h₃ : (padded 2 (k % 60000 / 1000)).length = 2 := length_padded (by omega) (by omega)
  have h₄ : (padded 3 (k % 1000)).length = 3 := length_padded (by omega) (by omega)
  rw [decimalToTime_natCast]
  simp only [List.length_append, List.length_cons]
  omega

/-- Hours, minutes and seconds, and `sep` with the digits behind it. -/
def clock (sep : UInt16) (h m s f : List UInt16) : List UInt16 :=
  h ++ 58 :: (m ++ 58 :: (s ++ sep :: f))

section Clock

variable {sep : UInt16} {h m s f : List UInt16}

theorem scanTime_clock (hsep : isDigit sep = false) (hh : Numeral h) (hm : Numeral m)
    (hs : Numeral s) (hf : Numeral f) :
    scanTime sep (clock sep h m s f) = some ((value h : Int), (value m : Int), (value s : Int),
      (value f : Int)) := by
  have hcolon : ∀ {str : List UInt16} (rest : List UInt16), Numeral str →
      scanInt (str ++ 58 :: rest) = some ((value str : Int), 58 :: rest) :=
    fun rest hstr => scanInt_numeral hstr (by rintro c ⟨⟩; decide)
  have hpoint : scanInt (s ++ sep :: f) = some ((value s : Int), sep :: f) :=
    scanInt_numeral hs (by rintro c ⟨⟩; exact hsep)
  have hlast : scanInt f = some ((value f : Int), []) := by
    have happ : scanInt (f ++ []) = some ((value f : Int), []) :=
      scanInt_numeral hf (by rintro c ⟨⟩)
    rwa [List.append_nil] at happ
  rw [clock, scanTime]
  simp only [hcolon _ hh, hcolon _ hm, hpoint, hlast, scanChar, if_true, Option.bind_eq_bind,
    Option.bind_some]

theorem dropWhile_clock (hsep : isDigit sep = false) (hcolon : sep ≠ 58) (hh : Numeral h)
    (hm : Numeral m) (hs : Numeral s) :
    (clock sep h m s f).dropWhile (· ≠ sep) = sep :: f := by
  have hfront : ∀ {str : List UInt16} (rest : List UInt16), Numeral str →
      (str ++ rest).dropWhile (· ≠ sep) = rest.dropWhile (· ≠ sep) := by
    intro str rest hstr
    refine List.dropWhile_append_of_pos fun c hc => ?_
    rw [decide_eq_true_eq]
    rintro rfl
    exact hstr.not_mem hsep hc
  rw [clock, hfront _ hh, List.dropWhile_cons_of_pos (by simpa using hcolon.symm), hfront _ hm,
    List.dropWhile_cons_of_pos (by simpa using hcolon.symm), hfront _ hs,
    List.dropWhile_cons_of_neg (by simp)]

theorem timeWith_clock (hsep : isDigit sep = false) (hcolon : sep ≠ 58) (hh : Numeral h)
    (hm : Numeral m) (hs : Numeral s) (hf : Numeral f) (hthree : f.length = 3)
    (hlt : value f < 1000) :
    timeWith sep (clock sep h m s f) =
      toInt32 ((value h : Int) * 3600000 + (value m : Int) * 60000 + (value s : Int) * 1000 +
        (value f : Int)) := by
  have hten : ∀ n : Int, (n * 10).tdiv 10 = n := fun n => Int.mul_tdiv_cancel n (by decide)
  have hms : (fun ms : Int => ms.tdiv 10)^[3] (toInt32 ((value f : Int) * 1000)) = value f := by
    have hmul : (value f : Int) * 1000 = (value f : Int) * 10 * 10 * 10 := by omega
    rw [toInt32_of_lt (by omega) (by omega), hmul]
    simp only [Function.iterate_succ, Function.iterate_zero, Function.comp_apply, id, hten]
  rw [timeWith, scanTime_clock hsep hh hm hs hf]
  dsimp only
  rw [dropWhile_clock hsep hcolon hh hm hs, List.length_cons, hthree, Nat.add_sub_cancel, hms]

end Clock

/-- **A time is read back.** -/
theorem timeToDecimal_decimalToTime {n : Int} (h₀ : 0 ≤ n) (h : n < 2 ^ 31) :
    timeToDecimal (decimalToTime n) = n := by
  obtain ⟨k, rfl⟩ := Int.eq_ofNat_of_zero_le h₀
  have hcomma : (44 : UInt16) ∈ decimalToTime k := by
    rw [decimalToTime_natCast]
    simp
  have hclock : decimalToTime k = clock 44 (padded 2 (k / 3600000))
      (padded 2 (k % 3600000 / 60000)) (padded 2 (k % 60000 / 1000)) (padded 3 (k % 1000)) :=
    decimalToTime_natCast k
  rw [timeToDecimal, if_pos hcomma, hclock, timeWith_clock (by decide) (by decide)
    (numeral_padded _ _) (numeral_padded _ _) (numeral_padded _ _) (numeral_padded _ _)
    (length_padded (by omega) (by omega)) (by rw [value_padded]; omega)]
  simp only [value_padded]
  rw [toInt32_of_lt (by omega) (by omega)]
  omega

/-! ## Tags -/

/-- No tag is left: the first `<` does not stand in front of the first `>`. -/
def Stripped (line : List UInt16) : Prop :=
  ∀ l r, findSub (wide ['<']) line = some l → findSub (wide ['>']) line = some r → r ≤ l

theorem stripLoop_of_stripped : ∀ (fuel : Nat) {line : List UInt16}, Stripped line →
    stripLoop fuel line = line := by
  intro fuel line h
  cases fuel with
  | zero => rfl
  | succ fuel =>
    rw [stripLoop]
    split
    · next l r hl hr => rw [if_neg (Nat.not_lt.mpr (h l r hl hr))]
    · rfl

/-- Each turn shortens the line, so no tag is left at the end. -/
theorem stripped_stripLoop : ∀ (fuel : Nat) (line : List UInt16), line.length ≤ fuel →
    Stripped (stripLoop fuel line) := by
  intro fuel
  induction fuel with
  | zero =>
    intro line hlen l r hl
    rw [stripLoop, List.length_eq_zero_iff.mp (Nat.le_zero.mp hlen)] at hl
    cases hl
  | succ fuel ih =>
    intro line hlen
    rw [stripLoop]
    split
    · next l r hl hr =>
      split
      · next hlr =>
        have hlt := (List.getElem?_eq_some_iff.mp (getElem?_findSub hr)).1
        refine ih _ ?_
        rw [List.length_append, List.length_take, List.length_drop]
        omega
      · next hlr =>
        intro l' r' hl' hr'
        rw [hl, Option.some.injEq] at hl'
        rw [hr, Option.some.injEq] at hr'
        omega
    · next hnone =>
      intro l r hl hr
      exact (hnone l r hl hr).elim

theorem stripped_storedText (s : SrtParser) (line : List UInt16) : Stripped (s.storedText line) :=
  stripped_stripLoop _ _ (Nat.le_refl _)

theorem mem_printInt {w : Nat} {n : Int} {c : UInt16} (h : c ∈ printInt w n) :
    isDigit c = true ∨ c = 45 := by
  unfold printInt at h
  split at h
  · rcases List.mem_cons.mp h with rfl | h
    · exact Or.inr rfl
    · exact Or.inl (isDigit_of_mem_padded h)
  · exact Or.inl (isDigit_of_mem_padded h)

/-- What stands between the brackets of the tag. -/
def tagBody (offset : Int) : List UInt16 :=
  wide ['o', 'f', 'f', 's', 'e', 't', '='] ++ printInt 0 offset

theorem tag_true (offset : Int) : tag true offset = 60 :: (tagBody offset ++ [62]) := by
  rw [tag, if_pos rfl, tagBody, List.append_assoc]
  rfl

theorem not_mem_tagBody {c : UInt16} (hname : c ∉ wide ['o', 'f', 'f', 's', 'e', 't', '='])
    (hdigit : isDigit c = false) (hminus : c ≠ 45) (offset : Int) : c ∉ tagBody offset := by
  intro h
  rcases List.mem_append.mp h with h | h
  · exact hname h
  · rcases mem_printInt h with h | h
    · rw [hdigit] at h
      cases h
    · exact hminus h

/-- **The tag is taken off again.** -/
theorem stripTags_tag (hasOffset : Bool) (offset : Int) {text : List UInt16}
    (h : Stripped text) : stripTags (tag hasOffset offset ++ text) = text := by
  cases hasOffset with
  | false => exact stripLoop_of_stripped _ h
  | true =>
    have hopen : findSub (wide ['<']) (60 :: (tagBody offset ++ 62 :: text)) = some 0 := rfl
    have hclose : findSub (wide ['>']) (60 :: (tagBody offset ++ 62 :: text)) =
        some ((tagBody offset).length + 1) := by
      have hnot : (62 : UInt16) ∉ 60 :: tagBody offset := by
        rw [List.mem_cons, not_or]
        exact ⟨by decide, not_mem_tagBody (by decide) (by decide) (by decide) offset⟩
      exact findSub_append text hnot
    have hrest : (60 :: (tagBody offset ++ 62 :: text)).drop ((tagBody offset).length + 1 + 1) =
        text := by
      rw [List.drop_succ_cons, ← List.drop_drop, List.drop_left]
      rfl
    rw [tag_true, List.cons_append, List.append_assoc, List.singleton_append, stripTags,
      List.length_cons, stripLoop, hopen, hclose]
    dsimp only
    rw [if_pos (by omega), hrest, List.take_zero, List.nil_append, stripLoop_of_stripped _ h]

/-- **The offset is read back.** -/
theorem findOffset_tag {offset : Int} (h₀ : -2 ^ 31 ≤ offset) (h : offset < 2 ^ 31)
    (text : List UInt16) : findOffset (tag true offset ++ text) = some offset := by
  have hfind : findSub offsetTag (offsetTag ++ (printInt 0 offset ++ 62 :: text)) = some 0 :=
    @findSub_append 60 _ (printInt 0 offset ++ 62 :: text) [] List.not_mem_nil
  have hscan : scanInt (printInt 0 offset ++ 62 :: text) = some (offset, 62 :: text) :=
    scanInt_printInt 0 offset (by rintro c ⟨⟩; decide)
  rw [tag, if_pos rfl, List.append_assoc, List.append_assoc, List.singleton_append, findOffset,
    hfind, Option.map_some, Nat.zero_add, List.drop_left, wtoi, hscan]
  dsimp only
  rw [min_eq_left (by omega), max_eq_right h₀]

end DWindow.Srt
