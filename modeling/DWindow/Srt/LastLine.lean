import DWindow.Srt.Reached

/-!
# A file without a newline at its end

A line reaches `handle_line` with its newline only, so that the last line of a file without one
is dropped, and `load` goes on to add the text collected so far.  A newline behind the file
leaves the list as it is exactly when that line would add nothing to it: when it is empty, no
text is due, or the text with it leaves the same entry (`sameList_iff`).
-/

namespace DWindow.Srt

open CInt Decimal LittleEndian WString

/-! ## Encodings -/

/-- What `load` takes a file for. -/
inductive Encoding
  | bigEndian
  | littleEndian
  | utf8
  | ansi
deriving DecidableEq, Repr

namespace Encoding

def mark : Encoding → List UInt8
  | bigEndian => [0xFE, 0xFF]
  | littleEndian => [0xFF, 0xFE]
  | utf8 => [0xEF, 0xBB, 0xBF]
  | ansi => []

def lineFeed : Encoding → List UInt8
  | bigEndian => [0, 10]
  | littleEndian => [10, 0]
  | utf8 => [10]
  | ansi => [10]

def Whole (e : Encoding) (text : List UInt8) : Prop := e.lineFeed.length ∣ text.length

/-- How `load` tells, with what it reads behind a short file. -/
def detect (behind data : List UInt8) : Encoding :=
  let byte := fun i => (data ++ behind).getD i 0
  if byte 0 = 0xFE ∧ byte 1 = 0xFF ∧ byte 3 ≠ 0 then bigEndian
  else if byte 0 = 0xFF ∧ byte 1 = 0xFE ∧ byte 2 ≠ 0 then littleEndian
  else if byte 0 = 0xEF ∧ byte 1 = 0xBB ∧ byte 2 = 0xBF then utf8
  else ansi

end Encoding

/-- What has been read of a file: the state, and the line that waits for its newline, with the
number of its characters in the file. -/
structure Unended where
  parser : SrtParser
  chars : Nat
  line : List UInt16

namespace SrtParser

/-- The loop over the characters, without the last line. -/
def readChars {α : Type} [DecidableEq α] (newline : α) (toWide : List α → List UInt16)
    (s : SrtParser) (data : List α) : Option Unended :=
  (data.foldlM (feed newline toWide) (s, [])).map fun r => ⟨r.1, r.2.length, toWide r.2⟩

/-- `load` up to the end of the loop, of a text in an encoding. -/
def readTo (toWide : CodePage → List UInt8 → List UInt16) (s : SrtParser) (e : Encoding)
    (text : List UInt8) : Option Unended :=
  let s := { s with mAss := false }
  let toWide8 := fun page line => cstr ((toWide page line).take lineSize)
  match e with
  | .bigEndian => readChars 10 wideLine s (toUnits true text)
  | .littleEndian => readChars 10 wideLine s (toUnits false text)
  | .utf8 => readChars 10 (toWide8 .utf8) s text
  | .ansi => readChars 10 (toWide8 .acp) s text

end SrtParser

def Unended.ended (r : Unended) : Option SrtParser :=
  if r.chars < lineSize then r.parser.endLine r.line else none

variable {α : Type} [DecidableEq α] {newline : α} {toWide : List α → List UInt16}
  {s s₁ : SrtParser} {e : Encoding} {text : List UInt8}

theorem handleData_eq_readChars (data : List α) : SrtParser.handleData newline toWide s data =
    (SrtParser.readChars newline toWide s data).map Unended.parser := by
  rw [SrtParser.handleData, SrtParser.readChars, Option.map_map]
  rfl

theorem handleData_newline (data : List α) :
    SrtParser.handleData newline toWide s (data ++ [newline]) =
      (SrtParser.readChars newline toWide s data).bind Unended.ended := by
  rw [SrtParser.handleData, SrtParser.readChars, List.foldlM_append]
  cases data.foldlM (SrtParser.feed newline toWide) (s, []) with
  | none => rfl
  | some r =>
    rw [Option.bind_eq_bind, Option.bind_some, Option.map_some, Option.bind_some, List.foldlM_cons,
      SrtParser.feed, if_neg (not_not.mpr rfl), Unended.ended]
    dsimp only
    by_cases hfits : r.2.length < lineSize
    · rw [if_pos hfits, if_pos hfits]
      cases r.1.endLine (toWide r.2) <;> rfl
    · rw [if_neg hfits, if_neg hfits]
      rfl

theorem toUnits_append (big : Bool) (a b : UInt8) : ∀ text : List UInt8, 2 ∣ text.length →
    toUnits big (text ++ [a, b]) = toUnits big text ++ toUnits big [a, b] := by
  intro text
  induction text using toUnits.induct with
  | case1 x y text ih =>
    intro heven
    rw [List.length_cons, List.length_cons] at heven
    rw [List.cons_append, List.cons_append, toUnits, ih (by omega), toUnits]
    rfl
  | case2 text hshort =>
    intro heven
    match text, hshort with
    | [], _ => rfl
    | [x], _ =>
      rw [List.length_singleton] at heven
      omega
    | x :: y :: rest, h => exact absurd rfl (h x y rest)

variable {toWide : CodePage → List UInt8 → List UInt16} {behind behind' : List UInt8}

theorem load_eq (data : List UInt8) : s.load toWide behind data =
    (match Encoding.detect behind data with
      | .bigEndian => SrtParser.handleData16 { s with mAss := false } true (data.drop 2)
      | .littleEndian => SrtParser.handleData16 { s with mAss := false } false (data.drop 2)
      | .utf8 => SrtParser.handleData8 toWide { s with mAss := false } .utf8 (data.drop 3)
      | .ansi => SrtParser.handleData8 toWide { s with mAss := false } .acp data).bind
        SrtParser.flush := by
  unfold SrtParser.load Encoding.detect
  dsimp only
  split
  · rfl
  · split
    · rfl
    · split <;> rfl

theorem load_of_detect (hdetect : Encoding.detect behind (e.mark ++ text) = e) :
    s.load toWide behind (e.mark ++ text) =
      (s.readTo toWide e text).bind fun r => r.parser.flush := by
  have hchars : ∀ {α : Type} [DecidableEq α] {newline : α} {toWide : List α → List UInt16}
      {s : SrtParser} (data : List α), (SrtParser.handleData newline toWide s data).bind
        SrtParser.flush = (SrtParser.readChars newline toWide s data).bind
          fun r => r.parser.flush := by
    intro α _ newline toWide s data
    rw [handleData_eq_readChars, Option.bind_map]
    rfl
  rw [load_eq, hdetect]
  cases e <;> exact hchars _

/-- With a line feed behind the text the last line is handled. -/
theorem load_lineFeed (hwhole : e.Whole text)
    (hdetect : Encoding.detect behind (e.mark ++ (text ++ e.lineFeed)) = e) :
    s.load toWide behind (e.mark ++ (text ++ e.lineFeed)) =
      ((s.readTo toWide e text).bind Unended.ended).bind SrtParser.flush := by
  rw [load_eq, hdetect]
  refine congrArg (Option.bind · SrtParser.flush) ?_
  cases e with
  | bigEndian =>
    exact (congrArg _ (toUnits_append true 0 10 text hwhole)).trans (handleData_newline _)
  | littleEndian =>
    exact (congrArg _ (toUnits_append false 10 0 text hwhole)).trans (handleData_newline _)
  | utf8 => exact handleData_newline _
  | ansi => exact handleData_newline _

/-! ## The last line -/

def SrtParser.joined (s : SrtParser) (line : List UInt16) : List UInt16 :=
  if s.tmp = [] then line else s.tmp ++ 10 :: line

def beforeArrow (line : List UInt16) : List UInt16 :=
  match findSub arrow line with
  | some p => trim 32 (line.take p)
  | none => line

/-- A line more leaves the entry of the text as it is: there is no text yet, the times are those
of a subtitle that is there, or the stored text and the offset stay the same. -/
def SrtParser.KeepsEntry (s : SrtParser) (line : List UInt16) : Prop :=
  (s.joined line).length < lineSize ∧
    (s.joined line = [] ∨ s.mIndex.any (fun i => isDuplicate i s.tmpStart s.tmpEnd) = true ∨
      s.tmp ≠ [] ∧ s.storedText (s.joined line) = s.storedText s.tmp ∧
        findOffset (s.warned (s.joined line)) = findOffset (s.warned s.tmp))

/-- The line that waits adds nothing: it is empty, no text is due, or its text leaves the entry
as it is. -/
def Unended.Idle (r : Unended) : Prop :=
  r.chars < lineSize ∧ (trim 13 (trim 32 r.line) = [] ∨ r.parser.mLastType < 2 ∨
    r.parser.KeepsEntry (beforeArrow (trim 13 (trim 32 r.line))))

theorem entries_of_added {s s' : SrtParser} {line : List UInt16} {start stop : Int}
    (h : s.directAddSubtitle line start stop = some (s', 0)) :
    s'.entries.length = s.entries.length + 1 ∧
      s'.entries.getLast? = some ⟨start, stop, (findOffset (s.warned line)).isSome,
        (findOffset (s.warned line)).getD 0, s.storedText line⟩ := by
  rcases SrtParser.directAddSubtitle_cases h with ⟨-, -, hrtn⟩ | ⟨-, -, textData, hcopy, rfl⟩
  · cases hrtn
  · have htext := cstrAt_wcscpyAt hcopy (SrtParser.not_mem_storedText s line)
    unfold SrtParser.entries SrtParser.added
    refine ⟨by simp, ?_⟩
    rw [List.map_append, List.map_singleton, List.getLast?_concat]
    simp only [SrtParser.entry, htext]

theorem directAddSubtitle_tmp (s : SrtParser) (n : Nat) (tmp line : List UInt16)
    (start stop : Int) :
    SrtParser.directAddSubtitle { s with mLastType := n, tmp := tmp } line start stop =
      (s.directAddSubtitle line start stop).map fun r =>
        ({ r.1 with mLastType := n, tmp := tmp }, r.2) := by
  unfold SrtParser.directAddSubtitle
  dsimp only
  split
  · rfl
  · split
    · rw [Option.bind_eq_bind, Option.map_bind]
      rfl
    · rfl

theorem flush_entries {s s₁ : SrtParser} (h : s.flush = some s₁) :
    (s.tmp = [] ∧ s₁ = s) ∨ s.tmp ≠ [] ∧ ∃ s' rtn,
      s.directAddSubtitle s.tmp s.tmpStart s.tmpEnd = some (s', rtn) ∧ s₁.entries = s'.entries := by
  unfold SrtParser.flush at h
  split at h
  · next htmp => exact .inl ⟨htmp, (Option.some.inj h).symm⟩
  · next htmp =>
    obtain ⟨⟨s', rtn⟩, hadd, rfl⟩ := Option.map_eq_some_iff.mp h
    exact .inr ⟨htmp, s', rtn, hadd, rfl⟩

/-- **A text with a line more leaves the list as it is** exactly when it leaves its entry so. -/
theorem handleText_flush_iff {line : List UInt16} (htype : 2 ≤ s.mLastType)
    (hflush : s.flush = some s₁) :
    (∃ s₂, (s.handleText line).bind SrtParser.flush = some s₂ ∧ s₂.entries = s₁.entries) ↔
      s.KeepsEntry line := by
  have htext : s.handleText line = if (s.joined line).length < lineSize then
      some { s with mLastType := 3, tmp := s.joined line } else none := by
    rw [SrtParser.handleText, if_pos htype]
    rfl
  rw [htext, SrtParser.KeepsEntry]
  by_cases hlen : (s.joined line).length < lineSize
  · rw [if_pos hlen, Option.bind_some, and_iff_right hlen, SrtParser.flush]
    dsimp only
    by_cases hempty : s.joined line = []
    · -- nothing is added with the line or without it
      have htmp : s.tmp = [] := by
        by_contra htmp
        rw [SrtParser.joined, if_neg htmp] at hempty
        exact List.append_ne_nil_of_left_ne_nil htmp _ hempty
      rw [if_pos hempty]
      refine iff_of_true ⟨_, rfl, ?_⟩ (.inl hempty)
      rcases flush_entries hflush with ⟨-, rfl⟩ | ⟨hne, -⟩
      · rfl
      · exact absurd htmp hne
    · rw [if_neg hempty, directAddSubtitle_tmp, Option.map_map, or_iff_right hempty]
      cases hdup : s.mIndex.any (fun i => isDuplicate i s.tmpStart s.tmpEnd) with
      | true =>
        have hsame : ∀ line, s.directAddSubtitle line s.tmpStart s.tmpEnd = some (s, -1) := by
          intro line
          rw [SrtParser.directAddSubtitle]
          dsimp only
          rw [hdup, if_pos rfl]
        rw [hsame]
        refine iff_of_true ⟨_, rfl, ?_⟩ (.inl rfl)
        rcases flush_entries hflush with ⟨-, rfl⟩ | ⟨-, s', rtn, hadd, hs₁⟩
        · rfl
        · rw [hsame, Option.some.injEq, Prod.mk.injEq] at hadd
          obtain ⟨rfl, -⟩ := hadd
          exact hs₁.symm
      | false =>
        have hadded : ∀ {line s' rtn}, s.directAddSubtitle line s.tmpStart s.tmpEnd =
            some (s', rtn) → rtn = 0 := by
          intro line s' rtn h
          rcases SrtParser.directAddSubtitle_cases h with ⟨hdup', -⟩ | ⟨-, hrtn, -⟩
          · rw [hdup] at hdup'
            cases hdup'
          · exact hrtn
        rw [or_iff_right (by decide)]
        constructor
        · rintro ⟨s₂, hs₂, hentries⟩
          obtain ⟨⟨s', rtn⟩, hadd, rfl⟩ := Option.map_eq_some_iff.mp hs₂
          obtain rfl := hadded hadd
          obtain ⟨hlength, hlast⟩ := entries_of_added hadd
          change s'.entries = s₁.entries at hentries
          rcases flush_entries hflush with ⟨-, rfl⟩ | ⟨htmp, s'', rtn, hadd', hs₁⟩
          · rw [hentries] at hlength
            exact absurd hlength (by omega)
          · obtain rfl := hadded hadd'
            rw [hentries, hs₁, (entries_of_added hadd').2, Option.some.injEq,
              Entry.mk.injEq] at hlast
            obtain ⟨-, -, hsome, hoffset, hstored⟩ := hlast
            refine ⟨htmp, hstored.symm, ?_⟩
            cases h₁ : findOffset (s.warned s.tmp) <;>
              cases h₂ : findOffset (s.warned (s.joined line)) <;> simp_all
        · rintro ⟨htmp, hstored, hoffset⟩
          rcases flush_entries hflush with ⟨hnil, -⟩ | ⟨-, s', rtn, hadd, hs₁⟩
          · exact absurd hnil htmp
          · have hsame : s.directAddSubtitle (s.joined line) s.tmpStart s.tmpEnd =
                s.directAddSubtitle s.tmp s.tmpStart s.tmpEnd := by
              unfold SrtParser.directAddSubtitle
              unfold SrtParser.storedText at hstored
              dsimp only
              rw [hstored, hoffset]
            rw [hsame, hadd]
            exact ⟨_, rfl, hs₁.symm⟩
  · rw [if_neg hlen, Option.bind_none]
    refine iff_of_false ?_ fun h => hlen h.1
    rintro ⟨_, h, -⟩
    cases h

/-- Where a text is due every line is one, up to its arrow. -/
theorem handleLine_of_text {line : List UInt16} (htype : 2 ≤ s.mLastType) :
    s.handleLine line = s.handleText (beforeArrow line) := by
  rw [SrtParser.handleLine, if_neg (by omega), beforeArrow]
  cases findSub arrow line with
  | none => rfl
  | some p =>
    dsimp only
    rw [SrtParser.handleTimes, if_neg (by omega)]

/-- **The last line with its newline leaves the list as it is** exactly when it is idle. -/
theorem ended_flush_iff {r : Unended} (hflush : r.parser.flush = some s₁) :
    (∃ s₂, r.ended.bind SrtParser.flush = some s₂ ∧ s₂.entries = s₁.entries) ↔ r.Idle := by
  obtain ⟨line, hline⟩ : ∃ line, line = trim 13 (trim 32 r.line) := ⟨_, rfl⟩
  rw [Unended.ended, Unended.Idle, ← hline]
  by_cases hchars : r.chars < lineSize
  · rw [if_pos hchars, and_iff_right hchars, SrtParser.endLine, ← hline]
    -- what only changes `m_last_type` leaves the list
    have htype : ∀ n, ∃ s₂, SrtParser.flush { r.parser with mLastType := n } = some s₂ ∧
        s₂.entries = s₁.entries := by
      intro n
      rcases flush_entries hflush with ⟨htmp, rfl⟩ | ⟨htmp, s', rtn, hadd, hs₁⟩
      · exact ⟨_, if_pos htmp, rfl⟩
      · have hadd' := directAddSubtitle_tmp r.parser n r.parser.tmp r.parser.tmp r.parser.tmpStart
          r.parser.tmpEnd
        rw [hadd] at hadd'
        rw [SrtParser.flush, if_neg htmp]
        exact ⟨_, congrArg _ hadd', hs₁.symm⟩
    by_cases hempty : line = []
    · rw [if_neg (not_not.mpr hempty), Option.bind_some]
      exact iff_of_true (htype 0) (.inl hempty)
    · rw [if_pos hempty, or_iff_right hempty]
      by_cases htwo : 2 ≤ r.parser.mLastType
      · rw [handleLine_of_text htwo, or_iff_right (by omega)]
        exact handleText_flush_iff htwo hflush
      · refine iff_of_true ?_ (.inl (by omega))
        have hskip : ∀ text, r.parser.handleText text = some r.parser := fun text => if_neg htwo
        rw [SrtParser.handleLine]
        split
        · exact htype 1
        · split
          · rw [SrtParser.handleTimes]
            split
            · rw [hflush, Option.map_some, Option.bind_some]
              exact ⟨_, if_pos rfl, rfl⟩
            · rw [hskip, Option.bind_some]
              exact ⟨s₁, hflush, rfl⟩
          · rw [hskip, Option.bind_some]
            exact ⟨s₁, hflush, rfl⟩
  · rw [if_neg hchars, Option.bind_none]
    refine iff_of_false ?_ fun h => hchars h.1
    rintro ⟨_, h, -⟩
    cases h

/-! ## The file -/

/-- **A newline behind the file leaves the list as it is** exactly when its last line is idle in
the state in front of it. -/
theorem sameList_iff (hwhole : e.Whole text)
    (hdetect : Encoding.detect behind (e.mark ++ text) = e)
    (hdetect' : Encoding.detect behind' (e.mark ++ (text ++ e.lineFeed)) = e)
    (hload : s.load toWide behind (e.mark ++ text) = some s₁) :
    (∃ s₂, s.load toWide behind' (e.mark ++ (text ++ e.lineFeed)) = some s₂ ∧
        s₂.entries = s₁.entries) ↔
      ∀ r ∈ s.readTo toWide e text, r.Idle := by
  rw [load_of_detect hdetect, Option.bind_eq_some_iff] at hload
  obtain ⟨r, hr, hflush⟩ := hload
  rw [load_lineFeed hwhole hdetect', hr, Option.bind_some, ended_flush_iff hflush]
  simp

def roomForTwo : SrtParser := .init 2 (List.replicate 8 1) []

/-- Bytes for characters. -/
def latin (_ : CodePage) (line : List UInt8) : List UInt16 := line.map fun b => UInt16.ofNat b.toNat

/-- A number, a line with times and `Hi`, with no newline behind it. -/
def unendedHi : List UInt8 :=
  (wide "1\n00:00:01,000 --> 00:00:02,000\nHi".toList).map fun c => UInt8.ofNat c.toNat

theorem sameList_iff_hi : ∃ s₁,
    roomForTwo.load latin [] (Encoding.ansi.mark ++ (unendedHi ++ [10])) = some s₁ ∧
      s₁.entries = [⟨1000, 2000, false, 0, [72, 105]⟩] ∧
      ((∃ s₂, roomForTwo.load latin []
          (Encoding.ansi.mark ++ (unendedHi ++ [10] ++ Encoding.ansi.lineFeed)) = some s₂ ∧
          s₂.entries = s₁.entries) ↔
        ∀ r ∈ roomForTwo.readTo latin .ansi (unendedHi ++ [10]), r.Idle) := by
  have hentries : (roomForTwo.load latin [] (Encoding.ansi.mark ++ (unendedHi ++ [10]))).map
      SrtParser.entries = some [⟨1000, 2000, false, 0, [72, 105]⟩] := by
    decide +kernel
  obtain ⟨s₁, hload, hs₁⟩ := Option.map_eq_some_iff.mp hentries
  exact ⟨s₁, hload, hs₁, @sameList_iff roomForTwo s₁ .ansi (unendedHi ++ [10]) latin [] []
    (one_dvd _) (by decide) (by decide) hload⟩

/-- **A last line without a newline is lost.** -/
theorem last_line_is_lost :
    (roomForTwo.load latin [] unendedHi).map SrtParser.entries = some [] ∧
      (roomForTwo.load latin [] (unendedHi ++ [10])).map SrtParser.entries =
        some [⟨1000, 2000, false, 0, [72, 105]⟩] := by
  decide +kernel

end DWindow.Srt
