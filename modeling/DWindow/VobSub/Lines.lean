import DWindow.VobSub.Encodings

/-!
# The lines of an index file

What the parser gets of a text from the files that are not read past their end: from UTF-8 with
either line end, and from little-endian UTF-16 with carriage returns, its lines one after
the other; from little-endian UTF-16 with line feeds alone, nothing.
-/

namespace DWindow.VobSub

open WString Utf

def VobSubParser.handleLines (w : World) (p : VobSubParser) (lines : List (List UInt16)) :
    Option VobSubParser :=
  lines.foldlM (fun p l => p.handleLine w (wcstrim 32 l)) p

/-- `MultiByteToWideChar` reads UTF-8. -/
def World.ReadsUtf8 (w : World) : Prop :=
  ∀ l : List UInt16, (∀ c ∈ l, c ≠ 0 ∧ ¬(0xd800 ≤ c ∧ c ≤ 0xdfff)) →
    w.multiByteToWideChar .utf8 (l.flatMap utf8) = l

structure IsLine (l : List UInt16) : Prop where
  isText : ∀ c ∈ l, c ≠ 0 ∧ c ≠ 10 ∧ c ≠ 13 ∧ ¬(0xd800 ≤ c ∧ c ≤ 0xdfff)
  short : (l.flatMap utf8).length < 1024

theorem IndexText.isLine (text : IndexText) : ∀ l ∈ text.rest :: text.lines, IsLine l :=
  fun l hl => ⟨text.isText l hl, text.short l hl⟩

variable {w : World} {p q : VobSubParser}

/-! ## Empty lines -/

theorem handleEntry_frame {entry part : List UInt16}
    (h : p.handleEntry w entry part = some q) :
    q.mScanForLangId = p.mScanForLangId ∧ q.mFirstLine = p.mFirstLine := by
  rw [VobSubParser.handleEntry] at h
  repeat' split at h
  · cases h
    exact ⟨rfl, rfl⟩
  · cases h
    exact ⟨rfl, rfl⟩
  · cases h
    exact ⟨rfl, rfl⟩
  · cases h
    exact ⟨rfl, rfl⟩
  · rw [VobSubParser.handleCustomColors, Option.bind_eq_some_iff] at h
    obtain ⟨sTridx, -, h⟩ := h
    obtain ⟨sColor, -, rfl⟩ := Option.map_eq_some_iff.mp h
    dsimp only [VobSubParser.bad]
    split
    · exact ⟨rfl, rfl⟩
    · split
      · exact ⟨rfl, rfl⟩
      · exact ⟨rfl, rfl⟩
  · cases h
    exact ⟨rfl, rfl⟩
  · rw [VobSubParser.handleTimestamp, Option.bind_eq_some_iff] at h
    obtain ⟨i, -, h⟩ := h
    dsimp only at h
    split at h
    · cases h
    · split at h
      · obtain ⟨r, -, h⟩ := Option.bind_eq_some_iff.mp h
        split at h
        · split at h
          · cases h
            exact ⟨rfl, rfl⟩
          · cases h
        · cases h
          exact ⟨rfl, rfl⟩
      · cases h
        exact ⟨rfl, rfl⟩
  · cases h
    exact ⟨rfl, rfl⟩

/-- **An empty line behind another** changes nothing. -/
theorem handleLine_nil_of_handleLine {line : List UInt16} (h : p.handleLine w line = some q) :
    q.handleLine w [] = some q := by
  rw [VobSubParser.handleLine] at h
  split at h
  · next hscan =>
    have hq : q.mScanForLangId = true := by
      obtain rfl : p.scanLine line = q := Option.some.inj h
      rw [VobSubParser.scanLine]
      split
      · dsimp only
        split
        · exact hscan
        · exact hscan
      · exact hscan
    rw [VobSubParser.handleLine, if_pos hq]
    rfl
  · next hscan =>
    have hq : q.mScanForLangId = false ∧ q.mFirstLine = false := by
      rw [Bool.not_eq_true] at hscan
      split at h
      · cases h
        exact ⟨hscan, rfl⟩
      · next hfirst =>
        rw [Bool.not_eq_true] at hfirst
        split at h
        · cases h
          exact ⟨hscan, hfirst⟩
        · obtain ⟨r, -, h⟩ := Option.bind_eq_some_iff.mp h
          obtain ⟨hscan', hfirst'⟩ := handleEntry_frame h
          exact ⟨hscan'.trans hscan, hfirst'.trans hfirst⟩
    rw [VobSubParser.handleLine, hq.1, if_neg Bool.false_ne_true, hq.2, if_neg Bool.false_ne_true,
      if_pos (Or.inr rfl)]

/-! ## Bytes -/

theorem lineOf_utf8 (hw : w.ReadsUtf8) {l : List UInt16} (hl : IsLine l) :
    lineOf w .utf8 (l.flatMap utf8) = wcstrim 32 l := by
  have hzero : (l.flatMap utf8).takeWhile (· ≠ 0) = l.flatMap utf8 := by
    rw [List.takeWhile_eq_self_iff]
    intro b hb
    obtain ⟨c, hc, hb⟩ := List.mem_flatMap.mp hb
    rw [decide_eq_true_iff]
    rintro rfl
    exact (hl.isText c hc).1 (UInt16.toNat_inj.mp (eq_of_mem_utf8 (by decide) hb))
  have hnul : (0 : UInt16) ∉ l := fun h => (hl.isText 0 h).1 rfl
  rw [lineOf, hzero, hw l fun c hc => ⟨(hl.isText c hc).1, (hl.isText c hc).2.2.2⟩,
    cstr_of_not_mem hnul]

theorem IsLine.plain {l : List UInt16} (hl : IsLine l) : ∀ b ∈ l.flatMap utf8, ¬IsNewline b := by
  intro b hb
  obtain ⟨c, hc, hb⟩ := List.mem_flatMap.mp hb
  rintro (rfl | rfl)
  · exact (hl.isText c hc).2.1 (UInt16.toNat_inj.mp (eq_of_mem_utf8 (by decide) hb))
  · exact (hl.isText c hc).2.2.1 (UInt16.toNat_inj.mp (eq_of_mem_utf8 (by decide) hb))

/-- **The lines of a file in UTF-8**, with either line end. -/
theorem handleData8_lines (hw : w.ReadsUtf8) (lineEnd : LineEnd) {rest : List UInt16}
    (hrest : IsLine rest) : ∀ (lines : List (List UInt16)) (p : VobSubParser),
      (∀ l ∈ lines, IsLine l) →
      p.handleData8 w .utf8 ((lines.flatMap (· ++ lineEnd.chars) ++ rest).flatMap utf8) =
        p.handleLines w lines := by
  intro lines
  induction lines with
  | nil =>
    intro p _
    exact handleData8_plain .utf8 p hrest.plain
  | cons l lines ih =>
    intro p h
    rw [List.forall_mem_cons] at h
    have hbuffered : buffered (l.flatMap utf8) = l.flatMap utf8 := if_pos h.1.short
    have hline : ∀ bytes, p.handleData8 w .utf8 (l.flatMap utf8 ++ (10 : UInt8) :: bytes) =
        (p.handleLine w (wcstrim 32 l)).bind fun q => q.handleData8 w .utf8 bytes := by
      intro bytes
      rw [handleData8_newline .utf8 p bytes h.1.plain (Or.inl rfl) (by have := h.1.short; omega),
        if_neg h.1.short.ne, hbuffered, lineOf_utf8 hw h.1]
    rw [VobSubParser.handleLines, List.foldlM_cons, List.flatMap_cons, List.append_assoc,
      List.append_assoc, List.flatMap_append]
    cases lineEnd with
    | lf =>
      show p.handleData8 w .utf8 (l.flatMap utf8 ++ (10 : UInt8) :: _) = _
      rw [hline]
      exact congrArg _ (funext fun q => ih q h.2)
    | crlf =>
      show p.handleData8 w .utf8 (l.flatMap utf8 ++ (13 : UInt8) :: (10 : UInt8) :: _) = _
      rw [handleData8_newline .utf8 p _ h.1.plain (Or.inr rfl) (by have := h.1.short; omega),
        if_neg h.1.short.ne, hbuffered, lineOf_utf8 hw h.1]
      cases hq : p.handleLine w (wcstrim 32 l) with
      | none => rfl
      | some q =>
        have hempty : lineOf w .utf8 (buffered []) = [] := by
          show wcstrim 32 (cstr (w.multiByteToWideChar .utf8 [])) = []
          rw [w.convert_nil]
          rfl
        rw [Option.bind_some, ← List.nil_append ((10 : UInt8) :: _),
          handleData8_newline .utf8 q _ (fun b hb => absurd hb List.not_mem_nil) (Or.inl rfl)
            (Nat.zero_le _), if_neg (by decide), hempty, handleLine_nil_of_handleLine hq,
          Option.bind_some]
        exact ih q h.2

/-! ## Units -/

theorem units_utf16le : ∀ cs : List UInt16, VobSubParser.units (cs.flatMap utf16le) = cs := by
  intro cs
  induction cs with
  | nil => rfl
  | cons c cs ih =>
    show unit (low c) (high c) :: VobSubParser.units (cs.flatMap utf16le) = c :: cs
    rw [unit_low_high, ih]

theorem length_flatMap_utf16le (cs : List UInt16) : (cs.flatMap utf16le).length = 2 * cs.length :=
  length_pairs low high cs

/-- The whole file is taken. -/
theorem handleData16_utf16le (p : VobSubParser) (cs : List UInt16) :
    p.handleData16 w (cs.flatMap utf16le) false =
      (cs.foldlM (VobSubParser.feed16 w) ([], p)).map fun s => (s.2, 2 * cs.length) := by
  have hhalf : 2 * cs.length / 2 = cs.length := Nat.mul_div_cancel_left _ (by decide)
  rw [VobSubParser.handleData16, units_utf16le, length_flatMap_utf16le]
  dsimp only
  rw [if_neg Bool.false_ne_true, hhalf, if_neg (Nat.lt_irrefl _), List.take_length,
    if_neg Bool.false_ne_true]

theorem foldlM_feed16_plain (p : VobSubParser) : ∀ (cs line : List UInt16),
    (∀ c ∈ cs, c ≠ 10 ∧ c ≠ 13) → line.length + cs.length ≤ 1024 →
      cs.foldlM (VobSubParser.feed16 w) (line, p) = some (line ++ cs, p) := by
  intro cs
  induction cs with
  | nil =>
    intro line _ _
    rw [List.append_nil]
    rfl
  | cons c cs ih =>
    intro line h hlength
    rw [List.forall_mem_cons] at h
    rw [List.length_cons] at hlength
    have hstep : VobSubParser.feed16 w (line, p) c = some (line ++ [c], p) :=
      if_pos ⟨h.1.1, h.1.2, by dsimp only; omega⟩
    rw [List.foldlM_cons, hstep, Option.bind_eq_bind, Option.bind_some,
      ih _ h.2 (by rw [List.length_append, List.length_singleton]; omega), List.append_assoc,
      List.singleton_append]

theorem IsLine.length_lt {l : List UInt16} (hl : IsLine l) : l.length < 1024 :=
  (length_le_flatMap_utf8 l).trans_lt hl.short

/-- **The lines of a little-endian file** with carriage returns. -/
theorem foldlM_feed16_crlf {rest : List UInt16} (hrest : IsLine rest) :
    ∀ (lines : List (List UInt16)) (p : VobSubParser), (∀ l ∈ lines, IsLine l) →
      ((lines.flatMap (· ++ [13, 10]) ++ rest).foldlM (VobSubParser.feed16 w) ([], p)).map
        Prod.snd =
        p.handleLines w lines := by
  have hplain : ∀ {l : List UInt16}, IsLine l → ∀ c ∈ l, c ≠ 10 ∧ c ≠ 13 :=
    fun hl c hc => ⟨(hl.isText c hc).2.1, (hl.isText c hc).2.2.1⟩
  intro lines
  induction lines with
  | nil =>
    intro p _
    rw [List.flatMap_nil, List.nil_append, foldlM_feed16_plain p rest [] (hplain hrest)
      (by have := hrest.length_lt; rw [List.length_nil]; omega)]
    rfl
  | cons l lines ih =>
    intro p h
    rw [List.forall_mem_cons] at h
    have hnul : (0 : UInt16) ∉ l := fun h' => (h.1.isText 0 h').1 rfl
    have hreturn : VobSubParser.feed16 w (l, p) 13 =
        (p.handleLine w (wcstrim 32 l)).map fun q =>
          ((wcstrim 32 l ++ 0 :: l.drop ((wcstrim 32 l).length + 1)).take l.length, q) := by
      rw [VobSubParser.feed16, if_neg fun h' => h'.2.1 rfl, if_pos rfl, if_pos h.1.length_lt,
        cstr_of_not_mem hnul]
    have hfeed : ∀ line q, VobSubParser.feed16 w (line, q) 10 = some ([], q) := by
      intro line q
      rw [VobSubParser.feed16, if_neg fun h' => h'.1 rfl, if_neg (by decide)]
    rw [List.flatMap_cons, List.append_assoc, List.append_assoc, List.foldlM_append,
      foldlM_feed16_plain p l [] (hplain h.1)
        (by have := h.1.length_lt; rw [List.length_nil]; omega), Option.bind_eq_bind,
      Option.bind_some, List.nil_append, List.cons_append, List.foldlM_cons, hreturn,
      VobSubParser.handleLines, List.foldlM_cons]
    cases p.handleLine w (wcstrim 32 l) with
    | none => rfl
    | some q =>
      rw [Option.map_some, Option.bind_eq_bind, Option.bind_some, List.cons_append,
        List.foldlM_cons, hfeed, Option.bind_eq_bind, Option.bind_some, List.nil_append]
      exact ih q h.2

/-- **Without carriage returns** a little-endian file has no line. -/
theorem foldlM_feed16_lf (p : VobSubParser) : ∀ (cs line : List UInt16), (∀ c ∈ cs, c ≠ 13) →
    ∃ line', cs.foldlM (VobSubParser.feed16 w) (line, p) = some (line', p) := by
  intro cs
  induction cs with
  | nil => exact fun line _ => ⟨line, rfl⟩
  | cons c cs ih =>
    intro line h
    rw [List.forall_mem_cons] at h
    have hstep : ∃ line', VobSubParser.feed16 w (line, p) c = some (line', p) := by
      rw [VobSubParser.feed16]
      split
      · exact ⟨_, rfl⟩
      · rw [if_neg h.1]
        exact ⟨_, rfl⟩
    obtain ⟨line', hstep⟩ := hstep
    rw [List.foldlM_cons, hstep]
    exact ih line' h.2

/-! ## Files -/

theorem loadFile_utf8_lines (hw : w.ReadsUtf8) (text : IndexText) (p : VobSubParser)
    (langId : Int) (lineEnd : LineEnd) :
    loadFile w p langId (text.store .utf8 lineEnd) =
      ((p.start langId).handleLines w text.lines).map fun q =>
        ⟨q, 3, (text.store .utf8 lineEnd).length - 3⟩ := by
  have hdrop : (text.store .utf8 lineEnd).drop 3 = (text.chars lineEnd).flatMap utf8 := rfl
  rw [loadFile_utf8 _ _ (mark_utf8 text lineEnd), ← List.length_drop, hdrop, IndexText.chars,
    handleData8_lines hw lineEnd (text.isLine _ (List.mem_cons_self ..)) _ _
      fun l hl => text.isLine l (List.mem_cons_of_mem _ hl)]

theorem loadFile_utf16le {text : IndexText} {lineEnd : LineEnd}
    (h : mark (text.store .utf16le lineEnd) = some .utf16le) (p : VobSubParser) (langId : Int) :
    loadFile w p langId (text.store .utf16le lineEnd) =
      ((text.chars lineEnd).foldlM (VobSubParser.feed16 w) ([], p.start langId)).map fun s =>
        ⟨s.2, 2, (text.store .utf16le lineEnd).length - 2⟩ := by
  have hdrop : (text.store .utf16le lineEnd).drop 2 = (text.chars lineEnd).flatMap utf16le := rfl
  rw [loadFile, h, Option.bind_some]
  dsimp only
  rw [← List.length_drop, hdrop, handleData16_utf16le, length_flatMap_utf16le, Option.map_map]
  rfl

/-- **A little-endian file with carriage returns** leads to the same. -/
theorem loadFile_utf16le_crlf {text : IndexText}
    (h : mark (text.store .utf16le .crlf) = some .utf16le) (p : VobSubParser) (langId : Int) :
    loadFile w p langId (text.store .utf16le .crlf) =
      ((p.start langId).handleLines w text.lines).map fun q =>
        ⟨q, 2, (text.store .utf16le .crlf).length - 2⟩ := by
  rw [loadFile_utf16le h, ← foldlM_feed16_crlf (text.isLine _ (List.mem_cons_self ..)) text.lines _
    fun l hl => text.isLine l (List.mem_cons_of_mem _ hl), Option.map_map]
  rfl

/-- **A little-endian file with line feeds** leads to nothing. -/
theorem loadFile_utf16le_lf {text : IndexText}
    (h : mark (text.store .utf16le .lf) = some .utf16le) (p : VobSubParser) (langId : Int) :
    loadFile w p langId (text.store .utf16le .lf) =
      some ⟨p.start langId, 2, (text.store .utf16le .lf).length - 2⟩ := by
  have hplain : ∀ c ∈ text.chars .lf, c ≠ 13 := by
    intro c hc
    rw [IndexText.chars, List.mem_append, List.mem_flatMap] at hc
    rcases hc with ⟨l, hl, hc⟩ | hc
    · rcases List.mem_append.mp hc with hc | hc
      · exact (text.isText l (List.mem_cons_of_mem _ hl) c hc).2.2.1
      · rw [List.mem_singleton.mp hc]
        decide
    · exact (text.isText text.rest (List.mem_cons_self ..) c hc).2.2.1
  obtain ⟨line', hfold⟩ := foldlM_feed16_lf (w := w) (p.start langId) (text.chars .lf) [] hplain
  rw [loadFile_utf16le h, hfold]
  rfl

end DWindow.VobSub
