import DWindow.Srt.Lines
import DWindow.Srt.Reached

/-!
# The lines of a saved subtitle

A subtitle is saved as its number, its times, the lines of its text with the tag in front,
and an empty line.  `Entry.Stays` says when these lines are read as they were written, and
`save_eq` that `save` writes them.
-/

namespace DWindow.Srt

open CInt Decimal WString

/-! ## An entry that stays -/

def Entry.written (e : Entry) : List UInt16 := tag e.hasOffset e.offset ++ e.text

/-- **An entry that is read as it was written.**  No line of its text is empty, begins with a
space or a return or ends in a return, none has an arrow, there is no tag in the text of an
entry without an offset, and everything fits into the buffers. -/
structure Entry.Stays (e : Entry) : Prop where
  lines : ∀ line ∈ e.written.splitOn 10, LineStays line ∧ findSub arrow line = none
  noTag : e.hasOffset = false → findOffset e.text = none
  short : e.written.length < lineSize
  returnedShort : (returned e.text).length < lineSize

theorem Entry.stays_iff (e : Entry) : e.Stays ↔
    (∀ line ∈ e.written.splitOn 10, LineStays line ∧ findSub arrow line = none) ∧
      (e.hasOffset = false → findOffset e.text = none) ∧ e.written.length < lineSize ∧
        (returned e.text).length < lineSize :=
  ⟨fun h => ⟨h.lines, h.noTag, h.short, h.returnedShort⟩,
    fun h => ⟨h.1, h.2.1, h.2.2.1, h.2.2.2⟩⟩

instance (e : Entry) : Decidable e.Stays := decidable_of_iff _ e.stays_iff.symm

def Entry.timeLine (e : Entry) : List UInt16 :=
  decimalToTime e.timeStart ++ 32 :: (arrow ++ 32 :: decimalToTime e.timeEnd)

/-- The lines of the entry with number `i + 1`. -/
def Entry.lines (e : Entry) (i : Nat) : List (List UInt16) :=
  decimal (i + 1) :: e.timeLine :: (e.written.splitOn 10 ++ [[]])

def Entry.printed (e : Entry) (i : Nat) : List UInt16 :=
  decimal (i + 1) ++ crlf ++ e.timeLine ++ crlf ++
    (tag e.hasOffset e.offset ++ returned e.text) ++ crlf ++ crlf

theorem saveEntry_eq {s : SrtParser} {e : SubtitleIndex} (i : Nat) (hstays : (s.entry e).Stays)
    (htimes : TimesFit e.timeStart e.timeEnd) :
    s.saveEntry i e = some ((s.entry e).printed i) := by
  obtain ⟨start, hstart⟩ := Int.eq_ofNat_of_zero_le htimes.1.1
  obtain ⟨stop, hstop⟩ := Int.eq_ofNat_of_zero_le (Int.le_of_lt htimes.2.1)
  have hstart' : (decimalToTime e.timeStart).length < 15 := by
    rw [hstart]
    exact length_decimalToTime_lt (by have := htimes.1.2; omega)
  have hstop' : (decimalToTime e.timeEnd).length < 15 := by
    rw [hstop]
    exact length_decimalToTime_lt (by have := htimes.2.2; omega)
  exact if_pos ⟨hstart', hstop', hstays.returnedShort⟩

/-- **What `save` writes.** -/
theorem save_eq {s : SrtParser} (hstays : ∀ e ∈ s.entries, e.Stays)
    (htimes : ∀ e ∈ s.mIndex, TimesFit e.timeStart e.timeEnd) :
    s.save = some (0xFF :: 0xFE ::
      (s.entries.zipIdx.map fun p => p.1.printed p.2).flatten.flatMap unitBytes) := by
  have hsave : ∀ p ∈ s.mIndex.zipIdx,
      s.saveEntry p.2 p.1 = some ((s.entry p.1).printed p.2) := by
    intro p hp
    have hmem : p.1 ∈ s.mIndex := List.fst_mem_of_mem_zipIdx hp
    exact saveEntry_eq p.2 (hstays _ (List.mem_map_of_mem hmem)) (htimes _ hmem)
  have hpairs : s.entries.zipIdx.map (fun p => p.1.printed p.2) =
      s.mIndex.zipIdx.map fun p => (s.entry p.1).printed p.2 := by
    rw [SrtParser.entries, List.zipIdx_map, List.map_map]
    rfl
  rw [SrtParser.save, Fallible.mapM_eq_some_map hsave, Option.map_some, hpairs]

/-! ## Its lines -/

theorem mem_tag {hasOffset : Bool} {offset : Int} {c : UInt16} (h : c ∈ tag hasOffset offset) :
    c ∈ wide ['<', 'o', 'f', 'f', 's', 'e', 't', '=', '>'] ∨ isDigit c = true ∨ c = 45 := by
  cases hasOffset with
  | false => exact absurd h List.not_mem_nil
  | true =>
    rw [tag, if_pos rfl, List.mem_append, List.mem_append, List.mem_singleton] at h
    rcases h with h | h | rfl
    · refine Or.inl ?_
      revert h
      exact fun h => List.mem_append_left [62] h
    · exact Or.inr (mem_printInt h)
    · exact Or.inl (by decide)

theorem not_mem_tag {c : UInt16}
    (hname : c ∉ wide ['<', 'o', 'f', 'f', 's', 'e', 't', '=', '>']) (hdigit : isDigit c = false)
    (hminus : c ≠ 45) (hasOffset : Bool) (offset : Int) : c ∉ tag hasOffset offset := by
  intro h
  rcases mem_tag h with h | h | h
  · exact hname h
  · rw [hdigit] at h
    cases h
  · exact hminus h

theorem Entry.ended_printed {e : Entry} (h : e.Stays) (i : Nat) :
    Ended (e.lines i) (e.printed i) := by
  have htext : Ended (e.written.splitOn 10)
      (tag e.hasOffset e.offset ++ returned e.text ++ crlf) := by
    refine ended_returned ?_ ?_ fun line hline => ?_
    · exact not_mem_tag (by decide) (by decide) (by decide) _ _
    · intro hlast
      exact not_mem_tag (c := 32) (by decide) (by decide) (by decide) _ _
        (List.mem_of_getLast? hlast)
    · obtain ⟨-, -, -, hlast, -⟩ := (h.lines line hline).1
      exact hlast
  have hend : Ended (e.written.splitOn 10 ++ [[]])
      (tag e.hasOffset e.offset ++ returned e.text ++ crlf ++ crlf) :=
    htext.append (Ended.returned Ended.nil)
  have hall : Ended (e.lines i) (decimal (i + 1) ++ 13 :: 10 :: (e.timeLine ++ 13 :: 10 ::
      (tag e.hasOffset e.offset ++ returned e.text ++ crlf ++ crlf))) :=
    Ended.returned (Ended.returned hend)
  rw [Entry.printed]
  simpa only [crlf, List.append_assoc, List.cons_append, List.nil_append] using hall

theorem ended_flatten : ∀ {pairs : List (Entry × Nat)}, (∀ p ∈ pairs, p.1.Stays) →
    Ended (pairs.flatMap fun p => p.1.lines p.2)
      (pairs.map fun p => p.1.printed p.2).flatten := by
  intro pairs
  induction pairs with
  | nil => intro _; exact Ended.nil
  | cons p pairs ih =>
    intro h
    rw [List.flatMap_cons, List.map_cons, List.flatten_cons]
    exact (p.1.ended_printed (h p (List.mem_cons_self ..)) p.2).append
      (ih fun q hq => h q (List.mem_cons_of_mem _ hq))

theorem lineStays_of_ends {line : List UInt16} (hne : line ≠ [])
    (hhead : ∀ c ∈ line.head?, isDigit c = true) (hlast : ∀ c ∈ line.getLast?, isDigit c = true)
    (hlen : line.length + 1 < lineSize) : LineStays line := by
  have hnot : ∀ {c : UInt16}, isDigit c = false → ∀ {o : Option UInt16},
      (∀ x ∈ o, isDigit x = true) → o ≠ some c := by
    rintro c hc o ho rfl
    rw [ho c rfl] at hc
    cases hc
  exact ⟨hne, hnot (by decide) hhead, hnot (by decide) hhead, hnot (by decide) hlast, hlen⟩

theorem lineStays_decimal {n : Nat} (h : n < 10 ^ 10) : LineStays (decimal n) := by
  refine lineStays_of_ends (decimal_ne_nil n) (fun c hc => ?_) (fun c hc => ?_) ?_
  · exact isDigit_of_mem_decimal (List.mem_of_head? hc)
  · exact isDigit_of_mem_decimal (List.mem_of_getLast? hc)
  · have hlen := length_decimal_le (k := 10) (by omega) h
    rw [lineSize]
    omega

section TimeLine

variable {e : Entry} (htimes : TimesFit e.timeStart e.timeEnd)
include htimes

theorem Entry.exists_times : ∃ start stop : Nat, (start < 2 ^ 31 ∧ stop < 2 ^ 31) ∧
    e.timeStart = start ∧ e.timeEnd = stop := by
  obtain ⟨start, hstart⟩ := Int.eq_ofNat_of_zero_le htimes.1.1
  obtain ⟨stop, hstop⟩ := Int.eq_ofNat_of_zero_le (Int.le_of_lt htimes.2.1)
  have := htimes.1.2
  have := htimes.2.2
  exact ⟨start, stop, ⟨by omega, by omega⟩, hstart, hstop⟩

theorem Entry.not_mem_timeLine {c : UInt16} (hdigit : isDigit c = false)
    (hc : c ∉ wide [':', ',', ' ', '-', '>']) : c ∉ e.timeLine := by
  obtain ⟨start, stop, -, hstart, hstop⟩ := Entry.exists_times htimes
  have hne : ∀ x ∈ wide [':', ',', ' ', '-', '>'], c ≠ x := fun x hx h => hc (h ▸ hx)
  have htime : ∀ k : Nat, c ∉ decimalToTime k :=
    not_mem_decimalToTime hdigit (hne 58 (by decide)) (hne 44 (by decide))
  rw [Entry.timeLine, hstart, hstop, List.mem_append, List.mem_cons, List.mem_append, List.mem_cons]
  rintro (h | h | h | h | h)
  · exact htime start h
  · exact hne 32 (by decide) h
  · have hchars : c ∈ ([45, 45, 62] : List UInt16) := h
    simp only [List.mem_cons, List.not_mem_nil, or_false] at hchars
    rcases hchars with h | h | h
    · exact hne 45 (by decide) h
    · exact hne 45 (by decide) h
    · exact hne 62 (by decide) h
  · exact hne 32 (by decide) h
  · exact htime stop h

theorem Entry.lineStays_timeLine : LineStays e.timeLine := by
  obtain ⟨start, stop, hlt, hstart, hstop⟩ := Entry.exists_times htimes
  have hlen := length_decimalToTime_lt hlt.1
  have hlen' := length_decimalToTime_lt hlt.2
  obtain ⟨hne, hhead, -⟩ := ends_decimalToTime start
  obtain ⟨hne', -, hlast⟩ := ends_decimalToTime stop
  have hstopLast : ∀ xs : List UInt16, (xs ++ 32 :: (arrow ++ 32 :: decimalToTime stop)).getLast? =
      (decimalToTime stop).getLast? := by
    intro xs
    have : xs ++ 32 :: (arrow ++ 32 :: decimalToTime stop) =
        xs ++ [32] ++ arrow ++ [32] ++ decimalToTime stop := by simp
    rw [this, List.getLast?_append_of_ne_nil _ hne']
  rw [Entry.timeLine, hstart, hstop]
  refine lineStays_of_ends (List.append_ne_nil_of_left_ne_nil hne _) ?_ ?_ ?_
  · rwa [List.head?_append_of_ne_nil _ hne]
  · rwa [hstopLast]
  · have harrow : arrow.length = 3 := rfl
    simp only [List.length_append, List.length_cons, harrow, lineSize]
    omega

end TimeLine

/-- **Every line of a saved entry is read as it was written.** -/
theorem Entry.readable {e : Entry} (h : e.Stays) (htimes : TimesFit e.timeStart e.timeEnd)
    (hplain : (0 : UInt16) ∉ e.text) {i : Nat} (hi : i + 1 < 10 ^ 10) : ∀ line ∈ e.lines i,
      (10 : UInt16) ∉ line ∧ (0 : UInt16) ∉ line ∧ (line = [] ∨ LineStays line) := by
  intro line hline
  rw [Entry.lines, List.mem_cons, List.mem_cons, List.mem_append, List.mem_singleton] at hline
  rcases hline with rfl | rfl | hline | rfl
  · have hnot : ∀ c : UInt16, isDigit c = false → c ∉ decimal (i + 1) := by
      intro c hc hmem
      rw [isDigit_of_mem_decimal hmem] at hc
      cases hc
    exact ⟨hnot 10 (by decide), hnot 0 (by decide), Or.inr (lineStays_decimal hi)⟩
  · exact ⟨Entry.not_mem_timeLine htimes (by decide) (by decide),
      Entry.not_mem_timeLine htimes (by decide) (by decide),
      Or.inr (Entry.lineStays_timeLine htimes)⟩
  · obtain ⟨hnew, hmem⟩ := mem_splitOn hline
    refine ⟨hnew, fun hzero => ?_, Or.inr (h.lines line hline).1⟩
    rcases List.mem_append.mp (hmem 0 hzero) with hmem | hmem
    · exact not_mem_tag (c := 0) (by decide) (by decide) (by decide) _ _ hmem
    · exact hplain hmem
  · exact ⟨List.not_mem_nil, List.not_mem_nil, Or.inl rfl⟩

end DWindow.Srt
