import DWindow.Srt.Written

/-!
# Reading a saved subtitle

`load` collects the text of a subtitle and adds it when the next line with times comes, or
at the end of the file.  So what a parser has read of a saved file are the entries that it
has added, `Collected`, and one that is still `Pending`.
-/

namespace DWindow.Srt

open CInt Decimal WString

/-! ## Reading one entry -/

namespace SrtParser

theorem readLine_number {s : SrtParser} (htype : s.mLastType = 0) (n : Nat) :
    s.readLine (decimal n) = some { s with mLastType := 1 } := by
  have hdigits : (decimal n).all isDigit = true :=
    List.all_eq_true.mpr fun c hc => isDigit_of_mem_decimal hc
  rw [readLine, if_pos (decimal_ne_nil n), handleLine, if_pos ⟨hdigits, htype⟩]

theorem trim_decimalToTime (k : Nat) : trim 32 (decimalToTime k) = decimalToTime k := by
  have hnot : (32 : UInt16) ∉ decimalToTime k :=
    not_mem_decimalToTime (by decide) (by decide) (by decide) k
  exact trim_of_ends (fun h => hnot (List.mem_of_head? h)) (fun h => hnot (List.mem_of_getLast? h))

/-- **A line with times** adds what was collected and begins a text. -/
theorem readLine_timeLine {s : SrtParser} (htype : s.mLastType = 1) {e : Entry}
    (htimes : TimesFit e.timeStart e.timeEnd) :
    s.readLine e.timeLine = s.flush.map fun t =>
      { t with mLastType := 2, tmpStart := e.timeStart, tmpEnd := e.timeEnd, tmp := [] } := by
  obtain ⟨start, stop, -, hstart, hstop⟩ := Entry.exists_times htimes
  obtain ⟨hne, hhead, -⟩ := ends_decimalToTime start
  have hline : e.timeLine =
      decimalToTime start ++ [32] ++ (arrow ++ 32 :: decimalToTime stop) := by
    rw [Entry.timeLine, hstart, hstop, List.append_assoc, List.singleton_append]
  have hfind : findSub arrow e.timeLine = some ((decimalToTime start).length + 1) := by
    have hnot : (45 : UInt16) ∉ decimalToTime start ++ [32] := by
      rw [List.mem_append, not_or]
      exact ⟨not_mem_decimalToTime (by decide) (by decide) (by decide) start, by decide⟩
    have happend : findSub arrow (decimalToTime start ++ [32] ++
      (arrow ++ 32 :: decimalToTime stop))
        = some (decimalToTime start ++ [32]).length := findSub_append _ hnot
    rwa [← hline, List.length_append, List.length_singleton] at happend
  have hleft : trim 32 (e.timeLine.take ((decimalToTime start).length + 1)) =
      decimalToTime start := by
    have hhead' : (decimalToTime start).head? ≠ some 32 := by
      intro h
      exact absurd (hhead 32 h) (by decide)
    rw [hline, List.take_left' (by rw [List.length_append, List.length_singleton]),
      trim_concat hne hhead', trim_decimalToTime]
  have hright : trim 32 (e.timeLine.drop ((decimalToTime start).length + 1 + arrow.length)) =
      decimalToTime stop := by
    rw [hline, ← List.drop_drop,
      List.drop_left' (by rw [List.length_append, List.length_singleton]), List.drop_left,
        trim_cons,
      trim_decimalToTime]
  have hdecimal : timeToDecimal (decimalToTime start) = e.timeStart ∧
      timeToDecimal (decimalToTime stop) = e.timeEnd := by
    rw [← hstart, ← hstop]
    exact ⟨timeToDecimal_decimalToTime htimes.1.1 htimes.1.2,
      timeToDecimal_decimalToTime (Int.le_of_lt htimes.2.1) htimes.2.2⟩
  have hnumber : ¬(e.timeLine.all isDigit = true ∧ s.mLastType = 0) := by
    rw [htype]
    rintro ⟨-, ⟨⟩⟩
  rw [readLine, if_pos (Entry.lineStays_timeLine htimes).1, handleLine, if_neg hnumber, hfind]
  dsimp only
  rw [hleft, hright, handleTimes, hdecimal.1, hdecimal.2,
    if_pos ⟨htimes.1.1, htimes.2.1, htype⟩]

theorem readLine_text {s : SrtParser} (htype : 2 ≤ s.mLastType) {line : List UInt16}
    (hne : line ≠ []) (harrow : findSub arrow line = none) {text : List UInt16}
    (htext : text = if s.tmp = [] then line else s.tmp ++ 10 :: line)
    (hlen : text.length < lineSize) :
    s.readLine line = some { s with mLastType := 3, tmp := text } := by
  have hnumber : ¬(line.all isDigit = true ∧ s.mLastType = 0) := by
    rintro ⟨-, h⟩
    omega
  rw [readLine, if_pos hne, handleLine, if_neg hnumber, harrow]
  dsimp only
  rw [handleText, if_pos htype, ← htext]
  exact if_pos hlen

theorem foldlM_text : ∀ (lines : List (List UInt16)) (s : SrtParser), s.tmp ≠ [] →
    s.mLastType = 3 → (∀ line ∈ lines, line ≠ [] ∧ findSub arrow line = none) →
    (s.tmp ++ lines.flatMap (10 :: ·)).length < lineSize →
      lines.foldlM readLine s = some { s with tmp := s.tmp ++ lines.flatMap (10 :: ·) } := by
  intro lines
  induction lines with
  | nil =>
    intro s _ _ _ _
    rw [List.flatMap_nil, List.append_nil]
    rfl
  | cons line lines ih =>
    intro s htmp htype hlines hlen
    obtain ⟨hne, harrow⟩ := hlines line (List.mem_cons_self ..)
    rw [List.flatMap_cons, ← List.append_assoc] at hlen ⊢
    have hread : s.readLine line = some { s with mLastType := 3, tmp := s.tmp ++ 10 :: line } := by
      refine readLine_text (by omega) hne harrow (by rw [if_neg htmp]) ?_
      rw [List.length_append] at hlen
      omega
    rw [List.foldlM_cons, hread, Option.bind_eq_bind, Option.bind_some,
      ih _ (by simp) rfl (fun l hl => hlines l (List.mem_cons_of_mem _ hl)) hlen, ← htype]

/-- The state that has collected the text of `e`. -/
def holding (s : SrtParser) (e : Entry) : SrtParser :=
  { s with mLastType := 0, tmp := e.written, tmpStart := e.timeStart, tmpEnd := e.timeEnd }

/-- **Reading the lines of an entry** adds the one before and leaves its own text pending. -/
theorem foldlM_lines {s : SrtParser} (htype : s.mLastType = 0) {e : Entry} (h : e.Stays)
    (htimes : TimesFit e.timeStart e.timeEnd) (i : Nat) :
    (e.lines i).foldlM readLine s =
      ({ s with mLastType := 1 } : SrtParser).flush.map fun t => t.holding e := by
  obtain ⟨first, rest, hsplit⟩ := List.exists_cons_of_ne_nil (List.splitOn_ne_nil 10 e.written)
  have hwritten : first ++ rest.flatMap (10 :: ·) = e.written := by
    have hjoin : [10].intercalate (e.written.splitOn 10) = e.written := List.intercalate_splitOn 10
    rw [← hjoin, hsplit]
    clear hsplit
    induction rest generalizing first with
    | nil => simp
    | cons line rest ih =>
      rw [List.intercalate_cons_cons, ← ih line]
      simp
  have hfirst := h.lines first (hsplit ▸ List.mem_cons_self ..)
  have htext : ∀ t : SrtParser, t.mLastType = 2 → t.tmp = [] →
      (e.written.splitOn 10 ++ [[]]).foldlM readLine t =
        some { t with mLastType := 0, tmp := e.written } := by
    intro t ht htmp
    have hshort := h.short
    have hread : t.readLine first = some { t with mLastType := 3, tmp := first } := by
      refine readLine_text (by omega) hfirst.1.1 hfirst.2 (by rw [if_pos htmp]) ?_
      rw [← hwritten, List.length_append] at hshort
      omega
    have hrest := foldlM_text rest { t with mLastType := 3, tmp := first } hfirst.1.1 rfl
      (fun line hline => ?_) (by rwa [hwritten])
    · rw [hsplit, List.cons_append, List.foldlM_cons, hread, Option.bind_eq_bind, Option.bind_some,
        List.foldlM_append, hrest, hwritten]
      rfl
    · obtain ⟨hstays, harrow⟩ := h.lines line (hsplit ▸ List.mem_cons_of_mem _ hline)
      exact ⟨hstays.1, harrow⟩
  rw [Entry.lines, List.foldlM_cons, readLine_number htype, Option.bind_eq_bind, Option.bind_some,
    List.foldlM_cons, readLine_timeLine rfl htimes, Option.bind_eq_bind, Option.bind_map,
    Option.map_eq_bind]
  congr 1
  funext t
  exact htext _ rfl rfl

end SrtParser

/-! ## Adding the entries -/

/-- The characters that texts take, each with a zero behind it. -/
def textMemory (all : List Entry) : Nat := (all.map fun e => e.text.length + 1).sum

theorem textMemory_append (es es' : List Entry) :
    textMemory (es ++ es') = textMemory es + textMemory es' := by
  rw [textMemory, List.map_append, List.sum_append]
  rfl

/-- **Entries that are read back** by a parser with room for `num` entries and `size`
characters.  If the first text is empty all of them are, and they all stand in one place. -/
structure Readable (num size : Nat) (all : List Entry) : Prop where
  stays : ∀ e ∈ all, e.Stays
  times : ∀ e ∈ all, TimesFit e.timeStart e.timeEnd
  offsets : ∀ e ∈ all, OffsetFits e.hasOffset e.offset
  plain : ∀ e ∈ all, (0 : UInt16) ∉ e.text
  stripped : ∀ e ∈ all, Stripped e.text
  apart : all.Pairwise fun e e' =>
    (nearly e.timeStart e'.timeStart && nearly e.timeEnd e'.timeEnd) = false
  room : all.length ≤ num
  memory : 0 < size ∧ ((∀ e ∈ all, e.text = []) ∨
    (∀ e ∈ all.head?, e.text ≠ []) ∧ textMemory all ≤ size)

/-- **What a parser has added**, after it has read some entries. -/
structure Collected (num size : Nat) (stored : List Entry) (s : SrtParser) : Prop where
  num_eq : s.num = num
  size_eq : s.mTextData.length = size
  srt : s.mAss = false
  entries_eq : s.entries = stored
  pool : s.Blank ∨ s.Filled ∧ s.endPos = textMemory stored ∧ ∃ e ∈ stored, e.text ≠ []

variable {num size : Nat} {stored rest : List Entry} {s : SrtParser}

theorem SrtParser.texts_eq (s : SrtParser) : s.texts = s.entries.map Entry.text := by
  rw [SrtParser.entries, List.map_map]
  rfl

theorem SrtParser.entries_added {new : SubtitleIndex} {textData text : List UInt16}
    (h : (s.added new textData).texts = s.texts ++ [text]) : (s.added new textData).entries =
      s.entries ++ [⟨new.timeStart, new.timeEnd, new.hasOffset, new.offset, text⟩] := by
  obtain ⟨hold, hnew⟩ := SrtParser.cstrAt_of_texts_added h
  have hentry : ∀ e ∈ s.mIndex, (s.added new textData).entry e = s.entry e := by
    intro e he
    show (⟨_, _, _, _, cstrAt textData e.pos⟩ : Entry) = ⟨_, _, _, _, cstrAt s.mTextData e.pos⟩
    rw [hold e he]
  calc (s.added new textData).entries
      = s.mIndex.map (s.added new textData).entry ++ [(s.added new textData).entry new] :=
        List.map_append
    _ = s.entries ++ [(s.added new textData).entry new] := by
        rw [List.map_congr_left hentry, SrtParser.entries]
    _ = _ := by
        rw [← hnew]
        rfl

theorem Collected.of_eq {s' : SrtParser} (hs : Collected num size stored s)
    (hnum : s'.num = s.num) (hindex : s'.mIndex = s.mIndex) (hdata : s'.mTextData = s.mTextData)
    (hpos : s'.mTextPos = s.mTextPos) (hass : s'.mAss = s.mAss) :
    Collected num size stored s' := by
  obtain ⟨num', mIndex', mTextData', mLastType', mTextPos', mAss', fonts', tmp', start',
    stop'⟩ := s'
  dsimp only at hnum hindex hdata hpos hass
  subst hnum hindex hdata hpos hass
  refine ⟨hs.num_eq, hs.size_eq, hs.srt, hs.entries_eq, ?_⟩
  rcases hs.pool with hblank | ⟨hfilled, hend⟩
  · exact Or.inl ⟨hblank.head, hblank.textPos, hblank.pos⟩
  · exact Or.inr ⟨⟨hfilled.head, hfilled.fits, hfilled.before⟩, hend⟩

theorem Entry.findOffset_written {e : Entry} (h : e.Stays)
    (hfits : OffsetFits e.hasOffset e.offset) :
    (findOffset e.written).getD 0 = e.offset ∧ (findOffset e.written).isSome = e.hasOffset := by
  obtain ⟨start, stop, hasOffset, offset, text⟩ := e
  cases hasOffset with
  | false =>
    have hnone : findOffset (Entry.written ⟨start, stop, false, offset, text⟩) = none := h.noTag rfl
    rw [hnone]
    exact ⟨(hfits.2 rfl).symm, rfl⟩
  | true =>
    have hsome : findOffset (Entry.written ⟨start, stop, true, offset, text⟩) = some offset :=
      findOffset_tag hfits.1.1 hfits.1.2 text
    rw [hsome]
    exact ⟨rfl, rfl⟩

theorem Entry.not_mem_written {e : Entry} (h : (0 : UInt16) ∉ e.text) :
    (0 : UInt16) ∉ e.written := by
  rw [Entry.written, List.mem_append, not_or]
  exact ⟨not_mem_tag (by decide) (by decide) (by decide) _ _, h⟩

theorem Collected.fits {e : Entry} (hs : Collected num size stored s)
    (hall : Readable num size (stored ++ e :: rest)) :
    s.nextPos + e.text.length + 1 ≤ size ∧ (s.Blank → e.text = [] ∨ stored = []) := by
  obtain ⟨hsize, hmemory⟩ := hall.memory
  have hsum : textMemory (stored ++ e :: rest) =
      textMemory stored + (e.text.length + 1 + textMemory rest) := by
    rw [textMemory_append]
    rfl
  have hmem : e ∈ stored ++ e :: rest := List.mem_append_right _ (List.mem_cons_self ..)
  rcases hs.pool with hblank | ⟨hfilled, hend, x, hx, hne⟩
  · have hnext : s.nextPos = 0 := hblank.nextPos
    rcases hmemory with hempty | ⟨hfirst, hle⟩
    · rw [hnext, hempty e hmem]
      exact ⟨by rw [List.length_nil]; omega, fun _ => Or.inl rfl⟩
    · refine ⟨by omega, fun _ => Or.inr ?_⟩
      cases hstored : stored with
      | nil => rfl
      | cons x xs =>
        -- the first text is empty in a blank state
        rw [hstored] at hfirst
        refine absurd ?_ (hfirst x rfl)
        have hentries := hs.entries_eq
        rw [hstored] at hentries
        have hx : x.text ∈ s.texts := by
          rw [s.texts_eq, hentries]
          exact List.mem_cons_self ..
        exact SrtParser.texts_of_blank hblank _ hx
  · have hnext : s.nextPos = s.endPos := hfilled.nextPos
    refine ⟨?_, fun hblank => absurd hblank.head hfilled.head⟩
    rcases hmemory with hempty | ⟨-, hle⟩
    · exact absurd (hempty x (List.mem_append_left _ hx)) hne
    · omega

/-- **Adding the next entry.** -/
theorem Collected.add {e : Entry} (hs : Collected num size stored s)
    (hall : Readable num size (stored ++ e :: rest)) :
    ∃ s', s.directAddSubtitle e.written e.timeStart e.timeEnd = some (s', 0) ∧
      Collected num size (stored ++ [e]) s' := by
  have hmem : e ∈ stored ++ e :: rest := List.mem_append_right _ (List.mem_cons_self ..)
  have hwarned : s.warned e.written = e.written := by
    rw [SrtParser.warned, hs.srt]
    exact cstr_of_not_mem (Entry.not_mem_written (hall.plain e hmem))
  have hstrip : stripTags e.written = e.text := stripTags_tag _ _ (hall.stripped e hmem)
  have hoffset := Entry.findOffset_written (hall.stays e hmem) (hall.offsets e hmem)
  have hdup : s.mIndex.any (fun i => isDuplicate i e.timeStart e.timeEnd) = false := by
    rw [List.any_eq_false]
    intro i hi
    have hold : s.entry i ∈ stored := hs.entries_eq ▸ List.mem_map_of_mem hi
    exact Bool.eq_false_iff.mp
      ((List.pairwise_append.mp hall.apart).2.2 _ hold e (List.mem_cons_self ..))
  have hlength : s.mIndex.length = stored.length := by
    rw [← hs.entries_eq, SrtParser.entries, List.length_map]
  have hroom : s.mIndex.length < s.num := by
    have := hall.room
    rw [List.length_append, List.length_cons] at this
    rw [hlength, hs.num_eq]
    omega
  obtain ⟨hfits, hblankFits⟩ := hs.fits hall
  obtain ⟨textData, hcopy⟩ : ∃ textData, wcscpyAt s.mTextData s.nextPos e.text = some textData :=
    ⟨_, if_pos (by rw [hs.size_eq]; exact hfits)⟩
  obtain ⟨new, hnew⟩ : ∃ new : SubtitleIndex,
      new = ⟨e.timeStart, e.timeEnd, s.nextPos, e.offset, e.hasOffset⟩ := ⟨_, rfl⟩
  have hpos : new.pos = s.nextPos := by rw [hnew]
  have hadd : s.directAddSubtitle e.written e.timeStart e.timeEnd =
      some (s.added new textData, 0) := by
    rw [SrtParser.directAddSubtitle]
    dsimp only
    rw [hwarned, hstrip, hdup, if_neg (by decide), if_pos hroom, hcopy, hoffset.1, hoffset.2, hnew]
    rfl
  have hplain := hall.plain e hmem
  have hentry : (⟨new.timeStart, new.timeEnd, new.hasOffset, new.offset, e.text⟩ : Entry) = e := by
    rw [hnew]
  have hcollected : (s.added new textData).texts = s.texts ++ [e.text] →
      ((s.added new textData).Blank ∨ (s.added new textData).Filled ∧
        (s.added new textData).endPos = textMemory (stored ++ [e]) ∧
          ∃ x ∈ stored ++ [e], x.text ≠ []) →
      Collected num size (stored ++ [e]) (s.added new textData) := by
    intro htexts hpool
    refine ⟨hs.num_eq, (length_wcscpyAt hcopy).trans hs.size_eq, hs.srt, ?_, hpool⟩
    rw [SrtParser.entries_added htexts, hs.entries_eq, hentry]
  refine ⟨_, hadd, ?_⟩
  rcases hs.pool with hblank | ⟨hfilled, hend, x, hx, hne⟩
  · obtain ⟨htexts, hempty, hfull⟩ := hblank.added hplain hcopy new hpos
    have hreplicate : s.texts = List.replicate s.mIndex.length [] := by
      rw [List.eq_replicate_iff]
      exact ⟨List.length_map _, SrtParser.texts_of_blank hblank⟩
    rcases eq_or_ne e.text [] with htext | htext
    · refine hcollected ?_ (Or.inl (hempty htext))
      rw [htexts, hreplicate, htext, List.replicate_succ']
    · -- the first entry of all
      have hstored : stored = [] := (hblankFits hblank).resolve_left htext
      rw [hstored, List.length_nil] at hlength
      refine hcollected ?_ (Or.inr ⟨(hfull htext).1, ?_, e, by simp, htext⟩)
      · rw [htexts, hreplicate, hlength]
        rfl
      · rw [(hfull htext).2, hstored]
        rfl
  · obtain ⟨hfull, htexts, hend'⟩ := hfilled.added hplain hcopy new hpos
    refine hcollected htexts (Or.inr ⟨hfull, ?_, x, List.mem_append_left _ hx, hne⟩)
    rw [hend', hend, textMemory_append]
    rfl

/-- What is collected in `tmp`: nothing, or the text of an entry. -/
def Pending : Option Entry → SrtParser → Prop
  | none, s => s.tmp = []
  | some e, s => s.tmp = e.written ∧ s.tmpStart = e.timeStart ∧ s.tmpEnd = e.timeEnd

theorem Entry.Stays.written_ne_nil {e : Entry} (h : e.Stays) : e.written ≠ [] := by
  intro hnil
  have hline := h.lines [] (by rw [hnil]; exact List.mem_singleton_self _)
  exact hline.1.1 rfl

/-- **The pending entry is added.** -/
theorem Collected.flush {p : Option Entry} (hs : Collected num size stored s) (hp : Pending p s)
    (hall : Readable num size (stored ++ p.toList ++ rest)) :
    ∃ s', s.flush = some s' ∧ Collected num size (stored ++ p.toList) s' := by
  cases p with
  | none =>
    refine ⟨s, ?_, by rwa [Option.toList_none, List.append_nil]⟩
    have htmp : s.tmp = [] := hp
    rw [SrtParser.flush, if_pos htmp]
  | some e =>
    obtain ⟨htmp, hstart, hstop⟩ := hp
    rw [Option.toList_some, List.append_assoc, List.singleton_append] at hall
    have hstays := hall.stays e (List.mem_append_right _ (List.mem_cons_self ..))
    obtain ⟨s', hadd, hs'⟩ := hs.add hall
    refine ⟨{ s' with tmp := s.storedText e.written }, ?_, hs'.of_eq rfl rfl rfl rfl rfl⟩
    rw [SrtParser.flush, if_neg (by rw [htmp]; exact hstays.written_ne_nil), hstart, hstop]
    rw [htmp, hadd]
    rfl

/-- **Reading entries.** -/
theorem Collected.foldlM_lines : ∀ (pairs : List (Entry × Nat)) {stored : List Entry}
    {p : Option Entry} {s : SrtParser}, Collected num size stored s → Pending p s →
    s.mLastType = 0 → Readable num size (stored ++ p.toList ++ pairs.map Prod.fst) →
      ∃ s', (pairs.flatMap fun q => q.1.lines q.2).foldlM SrtParser.readLine s = some s' ∧
        ∃ stored' p', Collected num size stored' s' ∧ Pending p' s' ∧
          stored' ++ p'.toList = stored ++ p.toList ++ pairs.map Prod.fst := by
  intro pairs
  induction pairs with
  | nil =>
    intro stored p s hs hp _ _
    exact ⟨s, rfl, stored, p, hs, hp, (List.append_nil _).symm⟩
  | cons q pairs ih =>
    intro stored p s hs hp htype hall
    have hq : q.1 ∈ stored ++ p.toList ++ (q :: pairs).map Prod.fst :=
      List.mem_append_right _ (List.mem_cons_self ..)
    have hs₁ : Collected num size stored { s with mLastType := 1 } :=
      hs.of_eq rfl rfl rfl rfl rfl
    have hp₁ : Pending p { s with mLastType := 1 } := by
      cases p with
      | none => exact hp
      | some e => exact hp
    obtain ⟨t, hflush, ht⟩ := hs₁.flush hp₁ hall
    have hread : (q.1.lines q.2).foldlM SrtParser.readLine s = some (t.holding q.1) := by
      rw [SrtParser.foldlM_lines htype (hall.stays _ hq) (hall.times _ hq), hflush, Option.map_some]
    have hassoc : stored ++ p.toList ++ (q :: pairs).map Prod.fst =
        stored ++ p.toList ++ (some q.1).toList ++ pairs.map Prod.fst := by
      rw [List.map_cons, Option.toList_some, List.append_assoc _ [q.1], List.singleton_append]
    rw [hassoc] at hall ⊢
    have hholding : Collected num size (stored ++ p.toList) (t.holding q.1) :=
      ht.of_eq rfl rfl rfl rfl rfl
    rw [List.flatMap_cons, List.foldlM_append, hread, Option.bind_eq_bind, Option.bind_some]
    exact ih hholding ⟨rfl, rfl, rfl⟩ rfl hall

end DWindow.Srt
