import DWindow.Srt.Save

/-!
# Lines that are written and read

`save` puts a return in front of the newlines of a text, and `load` takes the returns and
spaces off the ends of a line.  A line is read as it was written if it has none of them to
lose and fits into the buffer: `handleData_ended` goes from the characters of a file to its
lines.
-/

namespace DWindow.Srt

open WString

/-! ## Written lines -/

/-- **Lines with their ends.**  Each is followed by a newline, with a return in front of it
or without; a line without a return does not end in a space. -/
inductive Ended : List (List UInt16) → List UInt16 → Prop
  | nil : Ended [] []
  | bare {line units : List UInt16} {lines : List (List UInt16)} :
    line.getLast? ≠ some 32 → Ended lines units → Ended (line :: lines) (line ++ 10 :: units)
  | returned {line units : List UInt16} {lines : List (List UInt16)} :
    Ended lines units → Ended (line :: lines) (line ++ 13 :: 10 :: units)

theorem Ended.append {lines lines' : List (List UInt16)} {units units' : List UInt16}
    (h : Ended lines units) (h' : Ended lines' units') :
    Ended (lines ++ lines') (units ++ units') := by
  induction h with
  | nil => exact h'
  | bare hlast _ ih =>
    rw [List.cons_append, List.append_assoc, List.cons_append]
    exact Ended.bare hlast ih
  | returned _ ih =>
    rw [List.cons_append, List.append_assoc, List.cons_append, List.cons_append]
    exact Ended.returned ih

theorem ended_flatMap : ∀ lines : List (List UInt16), Ended lines (lines.flatMap (· ++ crlf)) := by
  intro lines
  induction lines with
  | nil => exact Ended.nil
  | cons line lines ih =>
    rw [List.flatMap_cons, List.append_assoc]
    exact Ended.returned ih

theorem splitOn_cons_of_ne {sep c : UInt16} (h : c ≠ sep) (text : List UInt16) :
    ∃ line lines, text.splitOn sep = line :: lines ∧
      (c :: text).splitOn sep = (c :: line) :: lines := by
  obtain ⟨line, lines, hlines⟩ := List.exists_cons_of_ne_nil (List.splitOn_ne_nil sep text)
  refine ⟨line, lines, hlines, ?_⟩
  rw [List.splitOn_cons_eq_if_modifyHead, if_neg (by rwa [beq_iff_eq]), hlines]
  rfl

theorem mem_splitOn {sep : UInt16} : ∀ {text line : List UInt16}, line ∈ text.splitOn sep →
    sep ∉ line ∧ ∀ c ∈ line, c ∈ text := by
  intro text
  induction text with
  | nil =>
    intro line h
    rw [List.splitOn_nil, List.mem_singleton] at h
    rw [h]
    exact ⟨List.not_mem_nil, fun c hc => hc⟩
  | cons x xs ih =>
    intro line h
    rcases eq_or_ne x sep with rfl | hx
    · rw [List.splitOn_cons_eq_if_modifyHead, if_pos (beq_self_eq_true _), List.mem_cons] at h
      rcases h with rfl | h
      · exact ⟨List.not_mem_nil, fun c hc => absurd hc List.not_mem_nil⟩
      · exact ⟨(ih h).1, fun c hc => List.mem_cons_of_mem _ ((ih h).2 c hc)⟩
    · obtain ⟨first, rest, hxs, hsplit⟩ := splitOn_cons_of_ne hx xs
      rw [hsplit, List.mem_cons] at h
      rcases h with rfl | h
      · obtain ⟨hnew, hmem⟩ := ih (hxs ▸ List.mem_cons_self ..)
        refine ⟨List.not_mem_cons_of_ne_of_not_mem hx.symm hnew, fun c hc => ?_⟩
        rcases List.mem_cons.mp hc with rfl | hc
        · exact List.mem_cons_self ..
        · exact List.mem_cons_of_mem _ (hmem c hc)
      · obtain ⟨hnew, hmem⟩ := ih (hxs ▸ List.mem_cons_of_mem _ h)
        exact ⟨hnew, fun c hc => List.mem_cons_of_mem _ (hmem c hc)⟩

/-- **The returns end the lines** of a text none of whose lines ends in a return. -/
theorem insertReturns_crlf : ∀ (text : List UInt16) (prev : UInt16),
    (text.head? = some 10 → prev ≠ 13) → (∀ line ∈ text.splitOn 10, line.getLast? ≠ some 13) →
      insertReturns prev text ++ crlf = (text.splitOn 10).flatMap (· ++ crlf) := by
  intro text
  induction text with
  | nil => intro prev _ _; rfl
  | cons c cs ih =>
    intro prev hprev hlines
    rcases eq_or_ne c 10 with rfl | hc
    · have hsplit : (10 :: cs).splitOn 10 = [] :: cs.splitOn (10 : UInt16) := by
        rw [List.splitOn_cons_eq_if_modifyHead, if_pos (beq_self_eq_true _)]
      rw [hsplit] at hlines ⊢
      rw [insertReturns, if_pos ⟨rfl, hprev rfl⟩, List.flatMap_cons, List.cons_append,
        List.cons_append, ih 10 (fun _ => by decide)
          (fun line hline => hlines line (List.mem_cons_of_mem _ hline))]
      rfl
    · obtain ⟨line, lines, hcs, hsplit⟩ := splitOn_cons_of_ne hc cs
      rw [hsplit] at hlines ⊢
      have hfirst : (c :: line).getLast? ≠ some 13 := hlines _ (List.mem_cons_self ..)
      rw [insertReturns, if_neg (fun h => hc h.1), List.cons_append, ih c, hcs]
      · rfl
      · intro hhead
        cases cs with
        | nil => cases hhead
        | cons x xs =>
          rw [List.head?_cons, Option.some.injEq] at hhead
          rw [hhead, List.splitOn_cons_eq_if_modifyHead, if_pos (beq_self_eq_true _),
            List.cons.injEq] at hcs
          rw [← hcs.1, List.getLast?_singleton, ne_eq, Option.some.injEq] at hfirst
          exact hfirst
      · intro l hl
        rw [hcs] at hl
        rcases List.mem_cons.mp hl with rfl | hl
        · cases l with
          | nil => rintro ⟨⟩
          | cons x xs => rwa [List.getLast?_cons_cons] at hfirst
        · exact hlines l (List.mem_cons_of_mem _ hl)

theorem insertReturns_append {text : List UInt16} (htext : text.head? ≠ some 10) :
    ∀ (front : List UInt16) (prev : UInt16), (10 : UInt16) ∉ front →
      insertReturns prev (front ++ text) = front ++ returned text := by
  intro front
  induction front with
  | nil =>
    intro prev _
    cases text with
    | nil => rfl
    | cons c cs =>
      rw [List.head?_cons, ne_eq, Option.some.injEq] at htext
      exact if_neg fun h => htext h.1
  | cons x xs ih =>
    intro prev hfront
    rw [List.mem_cons, not_or] at hfront
    rw [List.cons_append, insertReturns, if_neg (fun h => hfront.1 h.1.symm), ih x hfront.2,
      List.cons_append]

/-- **What is written of a text**, behind a tag or at the beginning of a line, are its
lines. -/
theorem ended_returned {front text : List UInt16} (hfront : (10 : UInt16) ∉ front)
    (hspace : front.getLast? ≠ some 32)
    (hlines : ∀ line ∈ (front ++ text).splitOn 10, line.getLast? ≠ some 13) :
    Ended ((front ++ text).splitOn 10) (front ++ returned text ++ crlf) := by
  by_cases htext : text.head? = some 10
  · -- the newline in front stays as it is
    obtain ⟨cs, rfl⟩ : ∃ cs, text = 10 :: cs := by
      cases text with
      | nil => cases htext
      | cons c cs => exact ⟨cs, by rw [Option.some.inj htext]⟩
    rw [List.splitOn_append_cons_self_of_not_mem hfront] at hlines ⊢
    rw [returned, List.append_assoc, List.cons_append, insertReturns_crlf cs 10
      (fun _ => by decide) (fun line hline => hlines line (List.mem_cons_of_mem _ hline))]
    exact Ended.bare hspace (ended_flatMap _)
  · rw [← insertReturns_append htext front 0 hfront, insertReturns_crlf _ 0 (fun _ => by decide)
      hlines]
    exact ended_flatMap _

/-! ## Lines that stay -/

/-- A line that is read as it was written. -/
def LineStays (line : List UInt16) : Prop :=
  line ≠ [] ∧ line.head? ≠ some 32 ∧ line.head? ≠ some 13 ∧ line.getLast? ≠ some 13 ∧
    line.length + 1 < lineSize

instance (line : List UInt16) : Decidable (LineStays line) := by
  unfold LineStays
  infer_instance

theorem trim_bare {line : List UInt16} (h : LineStays line) (hspace : line.getLast? ≠ some 32) :
    trim 13 (trim 32 line) = line := by
  obtain ⟨-, h32, h13, hlast, -⟩ := h
  rw [trim_of_ends h32 hspace, trim_of_ends h13 hlast]

theorem trim_returned {line : List UInt16} (h : LineStays line) :
    trim 13 (trim 32 (line ++ [13])) = line := by
  obtain ⟨hne, h32, h13, hlast, -⟩ := h
  have hspace : (line ++ [13]).getLast? ≠ some 32 := by
    rw [List.getLast?_concat]
    decide
  rw [trim_of_ends (by rwa [List.head?_append_of_ne_nil _ hne]) hspace, trim_concat hne h13,
    trim_of_ends h13 hlast]

/-! ## Read lines -/

namespace SrtParser

/-- What `handle_data` does with a trimmed line. -/
def readLine (s : SrtParser) (line : List UInt16) : Option SrtParser :=
  if line ≠ [] then s.handleLine line else some { s with mLastType := 0 }

theorem endLine_eq (s : SrtParser) (line : List UInt16) :
    s.endLine line = s.readLine (trim 13 (trim 32 line)) := rfl

theorem foldlM_feed_chars (s : SrtParser) : ∀ line acc : List UInt16, (10 : UInt16) ∉ line →
    acc.length + line.length ≤ lineSize →
      line.foldlM (feed 10 wideLine) (s, acc) = some (s, acc ++ line) := by
  intro line
  induction line with
  | nil =>
    intro acc _ _
    rw [List.append_nil]
    rfl
  | cons c cs ih =>
    intro acc hnew hlen
    rw [List.mem_cons, not_or] at hnew
    rw [List.length_cons] at hlen
    have hfeed : feed 10 wideLine (s, acc) c = some (s, acc ++ [c]) := by
      rw [feed, if_pos (fun h => hnew.1 h.symm), if_pos (by dsimp only; omega)]
    rw [List.foldlM_cons, hfeed, Option.bind_eq_bind, Option.bind_some, ih _ hnew.2,
      List.append_assoc, List.singleton_append]
    rw [List.length_append, List.length_singleton]
    omega

theorem foldlM_feed_line (s : SrtParser) {line : List UInt16} (hnew : (10 : UInt16) ∉ line)
    (hzero : (0 : UInt16) ∉ line) (hlen : line.length < lineSize) (units : List UInt16) :
    (line ++ 10 :: units).foldlM (feed 10 wideLine) (s, []) =
      (s.endLine line).bind fun s' => units.foldlM (feed 10 wideLine) (s', []) := by
  have hfeed : feed 10 wideLine (s, line) 10 = (s.endLine line).map fun s' => (s', []) := by
    rw [feed, if_neg (not_not_intro rfl), if_pos hlen, wideLine, cstr_of_not_mem hzero]
  rw [List.foldlM_append, foldlM_feed_chars s line [] hnew (by rw [List.length_nil]; omega),
    Option.bind_eq_bind, Option.bind_some, List.nil_append, List.foldlM_cons, hfeed,
    Option.bind_eq_bind, Option.bind_map]
  rfl

/-- **Characters are read as their lines.** -/
theorem foldlM_feed_ended {lines : List (List UInt16)} {units : List UInt16}
    (h : Ended lines units) : ∀ s : SrtParser,
    (∀ line ∈ lines, (10 : UInt16) ∉ line ∧ (0 : UInt16) ∉ line ∧ (line = [] ∨ LineStays line)) →
      units.foldlM (feed 10 wideLine) (s, []) =
        (lines.foldlM readLine s).map fun s' => (s', []) := by
  induction h with
  | nil => intro s _; rfl
  | @bare line units lines hspace _ ih =>
    intro s hlines
    obtain ⟨hnew, hzero, hstays⟩ := hlines line (List.mem_cons_self ..)
    have hread : line.length < lineSize ∧ trim 13 (trim 32 line) = line := by
      rcases hstays with rfl | hstays
      · exact ⟨by decide, rfl⟩
      · obtain ⟨-, -, -, -, hlen⟩ := id hstays
        exact ⟨by omega, trim_bare hstays hspace⟩
    rw [foldlM_feed_line s hnew hzero hread.1, endLine_eq, hread.2, List.foldlM_cons,
      Option.bind_eq_bind, Option.map_bind]
    congr 1
    funext s'
    exact ih s' fun l hl => hlines l (List.mem_cons_of_mem _ hl)
  | @returned line units lines _ ih =>
    intro s hlines
    obtain ⟨hnew, hzero, hstays⟩ := hlines line (List.mem_cons_self ..)
    have hread : line.length + 1 < lineSize ∧ trim 13 (trim 32 (line ++ [13])) = line := by
      rcases hstays with rfl | hstays
      · exact ⟨by decide, by decide⟩
      · obtain ⟨-, -, -, -, hlen⟩ := id hstays
        exact ⟨hlen, trim_returned hstays⟩
    have hnot : ∀ c : UInt16, c ∉ line → c ≠ 13 → c ∉ line ++ [13] := by
      intro c hc h13 hmem
      rcases List.mem_append.mp hmem with hmem | hmem
      · exact hc hmem
      · exact h13 (List.mem_singleton.mp hmem)
    have happend : line ++ 13 :: 10 :: units = line ++ [13] ++ 10 :: units := by
      rw [List.append_assoc, List.singleton_append]
    rw [happend, foldlM_feed_line s (hnot 10 hnew (by decide)) (hnot 0 hzero (by decide))
      (by rw [List.length_append, List.length_singleton]; exact hread.1), endLine_eq, hread.2,
      List.foldlM_cons, Option.bind_eq_bind, Option.map_bind]
    congr 1
    funext s'
    exact ih s' fun l hl => hlines l (List.mem_cons_of_mem _ hl)

theorem handleData_ended {lines : List (List UInt16)} {units : List UInt16}
    (h : Ended lines units) (s : SrtParser)
    (hlines : ∀ line ∈ lines,
      (10 : UInt16) ∉ line ∧ (0 : UInt16) ∉ line ∧ (line = [] ∨ LineStays line)) :
    handleData 10 wideLine s units = lines.foldlM readLine s := by
  rw [handleData, foldlM_feed_ended h s hlines, Option.map_map]
  exact Option.map_id_apply

end SrtParser

end DWindow.Srt
