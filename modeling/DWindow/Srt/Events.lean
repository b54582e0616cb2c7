import DWindow.Srt.AssTimes
import DWindow.Srt.Braces
import DWindow.Srt.Lines
import DWindow.Srt.Overrun

/-!
# The events of an ASS file

A dialogue line behind `[Events]` asks for an entry with its two times and with everything
behind its ninth comma for a text; no other line asks for one.  `handle_line` compares the line
with `[Events]` the wrong way round, so that the first other line of the file begins the events
and goes on to the part for SRT files, and from there on any line with three commas is taken for
a dialogue, whatever it begins with.  `loadAdds_iff` says for which files the list gets what
they ask for.
-/

namespace DWindow.Srt.Events

open Decimal Groups Runs WString

/-! ## What a line asks for -/

/-- A time of an event, `H:MM:SS.CC`, in milliseconds. -/
def clockTime (str : List UInt16) : Option Int :=
  match str.splitOn 58 with
  | [h, m, rest] =>
    match rest.splitOn 46 with
    | [s, c] =>
      let time := (value h : Int) * 3600000 + (value m : Int) * 60000 + (value s : Int) * 1000 +
        10 * (value c : Int)
      if Numeral h ∧ (Numeral m ∧ m.length = 2) ∧ (Numeral s ∧ s.length = 2) ∧
          (Numeral c ∧ c.length = 2) ∧ time < 2 ^ 31 then some time
      else none
    | _ => none
  | _ => none

structure Event where
  start : Int
  stop : Int
  text : List UInt16
deriving DecidableEq, Repr

/-- The dialogue of a line with ten fields or more. -/
def eventOf (line : List UInt16) : Option Event :=
  match line.splitOn 44 with
  | kind :: start :: stop :: fields =>
    if wide "Dialogue:".toList <+: kind ∧ 7 ≤ fields.length then do
      let start ← clockTime (trim 32 start)
      let stop ← clockTime (trim 32 stop)
      some ⟨start, stop, [44].intercalate (fields.drop 6)⟩
    else none
  | _ => none

/-- A text with its `\N` and `\n` as newlines. -/
def lineBreaks (text : List UInt16) : List UInt16 :=
  let text := wcsReplace (wide ['\\', 'N']) (wide ['\n']) text.length text
  wcsReplace (wide ['\\', 'n']) (wide ['\n']) text.length text

def plainText (text : List UInt16) : List UInt16 := lineBreaks (removeGroups 123 125 false text)

/-- An entry has nearly the same times. -/
def Listed (s : SrtParser) (start stop : Int) : Prop :=
  s.mIndex.any (fun i => isDuplicate i start stop) = true

instance (s : SrtParser) (start stop : Int) : Decidable (Listed s start stop) :=
  inferInstanceAs (Decidable (_ = _))

/-- The entry of a text, with the warning behind it. -/
def entryOf (s : SrtParser) (start stop : Int) (text : List UInt16) : Entry :=
  ⟨start, stop, (findOffset (s.warned text)).isSome, (findOffset (s.warned text)).getD 0,
    s.storedText text⟩

/-- The entry that a line asks for; `seen` is whether `[Events]` has been read. -/
def asked (s : SrtParser) (seen : Bool) (line : List UInt16) : Option Entry :=
  match eventOf line with
  | some e =>
    if seen = true ∧ ¬ Listed s e.start e.stop then
      some (entryOf s e.start e.stop (plainText e.text))
    else none
  | none => none

/-! ## What a line gets -/

/-- The state behind the call of `direct_add_subtitle` for a line of the events. -/
def ownStep (a : AssParser) (line : List UInt16) : Option SrtParser :=
  if a.mAssEventsStart = true then
    match dialogueTimes line with
    | none => some a.srt
    | some (start, stop) =>
      (dialogueText line).bind fun text => (a.srt.directAddSubtitle text start stop).map Prod.fst
  else some a.srt

/-- **A line adds what it asks for**: its own call adds it, and nothing else does. -/
def LineAdds (seen : Bool) (a a' : AssParser) (line : List UInt16) : Prop :=
  ∃ s new, ownStep a line = some s ∧ s.mIndex = a.srt.mIndex ++ new ∧
    a'.srt.mIndex = s.mIndex ∧ new.map a'.srt.entry = (asked a.srt seen line).toList

def eventsLine : List UInt16 := wide "[Events]".toList

section Reading

variable {α : Type} [DecidableEq α] (newline : α) (toWide chars : List α → List UInt16)

/-- The loop over the characters, with whether `[Events]` has been read. -/
def lineStep (r : Option (AssParser.Reading α) × Bool) (c : α) :
    Option (AssParser.Reading α) × Bool :=
  (r.1.bind fun r => AssParser.feed newline toWide r c,
    r.2 || r.1.any fun r => c = newline ∧ trim 13 (trim 32 (toWide r.line)) = eventsLine)

/-- A newline makes a line that adds what it asks for. -/
def FeedAdds (seen : Bool) (r : AssParser.Reading α) (c : α) : Prop :=
  c = newline → ∃ r' ∈ AssParser.feed newline toWide r c,
    LineAdds seen r.parser r'.parser (trim 13 (trim 32 (toWide r.line)))

/-- What stands behind the last newline. -/
def pending (data : List α) : List α := data.rtakeWhile (· ≠ newline)

/-- **The lines of a file add what they ask for**, and the end of the file adds nothing; what
stands behind the last newline, in `chars`, asks for nothing. -/
structure ReadsAdd (a : AssParser) (data : List α) : Prop where
  loop : Along (lineStep newline toWide) (fun r c => ∀ r' ∈ r.1, FeedAdds newline toWide r.2 r' c)
    (some ⟨a, [], []⟩, false) data
  last : ∀ r ∈ (run (lineStep newline toWide) (some ⟨a, [], []⟩, false) data).1,
    ∃ a' ∈ r.parser.flush r.calls, a'.1.srt.mIndex = r.parser.srt.mIndex ∧
      asked r.parser.srt (run (lineStep newline toWide) (some ⟨a, [], []⟩, false) data).2
        (trim 13 (trim 32 (chars (pending newline data)))) = none

end Reading

/-- The loop that `load` chooses for an ASS file. -/
def LoadAdds (toWide : CodePage → List UInt8 → List UInt16) (a : AssParser)
    (behind data : List UInt8) : Prop :=
  let a : AssParser := ⟨{ a.srt with mAss := true }, false⟩
  let toWide8 := fun page line => cstr ((toWide page line).take lineSize)
  match Encoding.detect behind data with
  | .bigEndian => ReadsAdd 10 wideLine wideLine a (toUnits true (data.drop 2))
  | .littleEndian => ReadsAdd 10 wideLine wideLine a (toUnits false (data.drop 2))
  | .utf8 => ReadsAdd 10 (toWide8 .utf8) (fun line => cstr (toWide .utf8 line)) a (data.drop 3)
  | .ansi => ReadsAdd 10 (toWide8 .acp) (fun line => cstr (toWide .acp line)) a data

/-! ## The condition -/

/-- A line that goes on to the part for SRT files adds nothing there; `known` is whether the
text that waits has the times of an entry. -/
def SrtQuiet (s : SrtParser) (known : Prop) (line : List UInt16) : Prop :=
  if line.all isDigit = true ∧ s.mLastType = 0 then True
  else
    match findSub arrow line with
    | some p =>
      if 0 ≤ timeToDecimal (trim 32 (line.take p)) ∧
          0 < timeToDecimal (trim 32 (line.drop (p + arrow.length))) ∧ s.mLastType = 1 then
        s.tmp = [] ∨ known
      else Overrun.TextFits s (trim 32 (line.take p))
    | none => Overrun.TextFits s line

def RoomFor (s : SrtParser) (text : List UInt16) : Prop :=
  s.mIndex.length < s.num ∧ s.nextPos + (s.storedText text).length + 1 ≤ s.mTextData.length

/-- A line with two times behind the start of the events is a dialogue that is asked for, or its
times are those of an entry; it has its braces in order, and adds nothing more. -/
def TimesMeet (s : SrtParser) (seen : Bool) (line : List UInt16) (start stop : Int) : Prop :=
  let text := plainText (dropFields 9 line)
  Braces.Ordered (dropFields 9 line) ∧
    (Listed s start stop ∨ (seen = true ∧ (eventOf line).isSome) ∧ RoomFor s text) ∧
    SrtQuiet s (Listed s s.tmpStart s.tmpEnd ∨ ¬ Listed s start stop ∧
      nearly start s.tmpStart = true ∧ nearly stop s.tmpEnd = true) (s.storedText text)

/-- A line in front of the start of the events asks for nothing and adds nothing, and one behind
it has no two times or is as above. -/
def LineMeets (seen : Bool) (a : AssParser) (line : List UInt16) : Prop :=
  if a.mAssEventsStart = false then
    line ≠ eventsLine → asked a.srt seen line = none ∧
      SrtQuiet a.srt (Listed a.srt a.srt.tmpStart a.srt.tmpEnd) line
  else ∀ times ∈ dialogueTimes line, TimesMeet a.srt seen line times.1 times.2

section Reading

variable {α : Type} [DecidableEq α] (newline : α) (toWide chars : List α → List UInt16)

/-- A line has room for its terminator and is as above, if it is not empty. -/
def FeedMeets (seen : Bool) (r : AssParser.Reading α) (c : α) : Prop :=
  c = newline → r.line.length < lineSize ∧ (trim 13 (trim 32 (toWide r.line)) ≠ [] →
    LineMeets seen r.parser (trim 13 (trim 32 (toWide r.line))))

/-- Every line is as above, the text that waits at the end has the times of an entry, and
behind the last newline nothing is asked for. -/
structure ReadsMeet (a : AssParser) (data : List α) : Prop where
  loop : Along (lineStep newline toWide)
    (fun r c => ∀ r' ∈ r.1, FeedMeets newline toWide r.2 r' c) (some ⟨a, [], []⟩, false) data
  last : ∀ r ∈ (run (lineStep newline toWide) (some ⟨a, [], []⟩, false) data).1,
    (r.parser.srt.tmp = [] ∨ Listed r.parser.srt r.parser.srt.tmpStart r.parser.srt.tmpEnd) ∧
      asked r.parser.srt (run (lineStep newline toWide) (some ⟨a, [], []⟩, false) data).2
        (trim 13 (trim 32 (chars (pending newline data)))) = none

end Reading

/-- The condition for the loop that `load` chooses. -/
def LoadMeets (toWide : CodePage → List UInt8 → List UInt16) (a : AssParser)
    (behind data : List UInt8) : Prop :=
  let a : AssParser := ⟨{ a.srt with mAss := true }, false⟩
  let toWide8 := fun page line => cstr ((toWide page line).take lineSize)
  match Encoding.detect behind data with
  | .bigEndian => ReadsMeet 10 wideLine wideLine a (toUnits true (data.drop 2))
  | .littleEndian => ReadsMeet 10 wideLine wideLine a (toUnits false (data.drop 2))
  | .utf8 => ReadsMeet 10 (toWide8 .utf8) (fun line => cstr (toWide .utf8 line)) a (data.drop 3)
  | .ansi => ReadsMeet 10 (toWide8 .acp) (fun line => cstr (toWide .acp line)) a data

/-! ## The fields of a line -/

variable {line str : List UInt16} {e : Event} {fields : List (List UInt16)}

theorem splitComma_intercalate {f : List UInt16} (h : (44 : UInt16) ∉ f) (hne : fields ≠ []) :
    splitComma ([44].intercalate (f :: fields)) = some (f, [44].intercalate fields) := by
  rw [List.intercalate_cons_of_ne_nil hne, List.append_assoc, List.singleton_append,
    splitComma_append h]

theorem dropFields_intercalate : ∀ (n : Nat) {fields : List (List UInt16)}, n < fields.length →
    (∀ f ∈ fields, (44 : UInt16) ∉ f) →
      dropFields n ([44].intercalate fields) = [44].intercalate (fields.drop n) := by
  intro n
  induction n with
  | zero => intro fields _ _; rfl
  | succ n ih =>
    intro fields hlen hcomma
    cases fields with
    | nil => cases hlen
    | cons f fields =>
      rw [List.forall_mem_cons] at hcomma
      rw [List.length_cons, Nat.succ_lt_succ_iff] at hlen
      have hne : fields ≠ [] := List.length_pos_iff.mp (by omega)
      rw [dropFields, splitComma_intercalate hcomma.1 hne]
      exact ih hlen hcomma.2

/-- The two times of a line are its second and its third field. -/
theorem dialogueTimes_intercalate {kind start stop : List UInt16} (hne : fields ≠ [])
    (hcomma : ∀ f ∈ kind :: start :: stop :: fields, (44 : UInt16) ∉ f) :
    dialogueTimes ([44].intercalate (kind :: start :: stop :: fields)) =
      some (assTime start, assTime stop) := by
  simp only [List.forall_mem_cons] at hcomma
  obtain ⟨hkind, hstart, hstop, -⟩ := hcomma
  rw [List.intercalate_cons_cons, List.intercalate_cons_cons,
    List.intercalate_cons_of_ne_nil hne]
  simp only [List.append_assoc, List.singleton_append]
  exact dialogueTimes_fields hkind hstart hstop _

/-- `handle_line` takes the time of an event for what it is. -/
theorem assTime_of_clockTime {t : Int} (h : clockTime (trim 32 str) = some t) :
    assTime str = t := by
  have hjoin : ∀ {c : UInt16} {text : List UInt16} {parts : List (List UInt16)},
      text.splitOn c = parts → text = [c].intercalate parts :=
    fun hparts => hparts ▸ (List.intercalate_splitOn _).symm
  unfold clockTime at h
  split at h
  · next hour m rest hcolons =>
    split at h
    · next sec c hpoint =>
      dsimp only at h
      split at h
      · next hclock =>
        obtain ⟨hh, ⟨hm, -⟩, ⟨hs, -⟩, ⟨hc, htwo⟩, hlt⟩ := hclock
        have htrim : trim 32 str = clock 46 hour m sec c := by
          rw [hjoin hcolons, hjoin hpoint]
          simp [clock, List.intercalate_cons_cons, List.intercalate_singleton]
        have hagain : trim 32 (clock 46 hour m sec c) = clock 46 hour m sec c :=
          trim_of_not_mem (not_mem_clock (by decide) (by decide) (by decide) hh hm hs hc)
        have hsame : assTime str = assTime (clock 46 hour m sec c) := by
          rw [assTime, assTime, htrim, hagain]
        rw [hsame, assTime_clock hh hm hs hc htwo hlt]
        exact Option.some.inj h
      · cases h
    · cases h
  · cases h

/-- **A dialogue is read with its times and its text.** -/
theorem eventOf_spec (h : eventOf line = some e) :
    dialogueTimes line = some (e.start, e.stop) ∧ dropFields 9 line = e.text := by
  unfold eventOf at h
  split at h
  · next kind start stop fields hsplit =>
    split at h
    · next hkind =>
      rw [Option.bind_eq_bind, Option.bind_eq_some_iff] at h
      obtain ⟨t₁, h₁, h⟩ := h
      rw [Option.bind_eq_some_iff] at h
      obtain ⟨t₂, h₂, h⟩ := h
      cases h
      have hline : line = [44].intercalate (kind :: start :: stop :: fields) := by
        rw [← hsplit, List.intercalate_splitOn]
      have hcomma : ∀ f ∈ kind :: start :: stop :: fields, (44 : UInt16) ∉ f :=
        fun f hf => (mem_splitOn (hsplit ▸ hf)).1
      have hne : fields ≠ [] := List.length_pos_iff.mp (by omega)
      rw [hline, dialogueTimes_intercalate hne hcomma, assTime_of_clockTime h₁,
        assTime_of_clockTime h₂]
      refine ⟨rfl, ?_⟩
      rw [dropFields_intercalate 9 (by simp only [List.length_cons]; omega) hcomma]
      rfl
    · cases h
  · cases h

theorem dialogueText_eq (line : List UInt16) : dialogueText line =
    if Braces.Ordered (dropFields 9 line) then some (plainText (dropFields 9 line)) else none := by
  rw [dialogueText, Braces.stripBraces_eq _ (Nat.le_refl _)]
  split
  · rfl
  · rfl

/-! ## The part for SRT files -/

variable {s s' : SrtParser}

/-- A call for times that are listed leaves the parser as it is. -/
theorem directAddSubtitle_of_listed {start stop : Int} (h : Listed s start stop)
    (text : List UInt16) : s.directAddSubtitle text start stop = some (s, -1) := if_pos h

theorem directAddSubtitle_of_room {start stop : Int} {text : List UInt16}
    (h : ¬ Listed s start stop) (hroom : RoomFor s text) : ∃ new textData,
      s.directAddSubtitle text start stop = some (s.added new textData, 0) ∧
      new.timeStart = start ∧ new.timeEnd = stop ∧ ∀ s' : SrtParser, s'.mTextData = textData →
        s'.entry new = entryOf s start stop text := by
  have hnew : ¬ (s.mIndex.any (fun i => isDuplicate i start stop) = true) := h
  obtain ⟨textData, hcopy⟩ : ∃ t, wcscpyAt s.mTextData s.nextPos (s.storedText text) = some t :=
    ⟨_, if_pos hroom.2⟩
  refine ⟨⟨start, stop, s.nextPos, (findOffset (s.warned text)).getD 0,
    (findOffset (s.warned text)).isSome⟩, textData, ?_, rfl, rfl, fun s' hdata => ?_⟩
  · rw [SrtParser.directAddSubtitle]
    dsimp only
    rw [if_neg hnew, if_pos hroom.1, ← SrtParser.storedText, hcopy]
    rfl
  · rw [SrtParser.entry, hdata, cstrAt_wcscpyAt hcopy (SrtParser.not_mem_storedText s text)]
    rfl

theorem directAddSubtitle_of_not_room {start stop : Int} {text : List UInt16}
    (h : ¬ Listed s start stop) (hroom : ¬ RoomFor s text) :
    s.directAddSubtitle text start stop = none := by
  have hnew : ¬ (s.mIndex.any (fun i => isDuplicate i start stop) = true) := h
  rw [SrtParser.directAddSubtitle]
  dsimp only
  rw [if_neg hnew]
  split
  · next hnum =>
    have hcopy : wcscpyAt s.mTextData s.nextPos (s.storedText text) = none :=
      if_neg fun hfits => hroom ⟨hnum, hfits⟩
    rw [← SrtParser.storedText, hcopy]
    rfl
  · rfl

/-- A call that adds no entry was for times that are listed. -/
theorem listed_of_same {start stop rtn : Int} {text : List UInt16}
    (h : s.directAddSubtitle text start stop = some (s', rtn)) (hindex : s'.mIndex = s.mIndex) :
    Listed s start stop := by
  rcases SrtParser.directAddSubtitle_cases h with ⟨hlisted, -, -⟩ | ⟨-, -, textData, -, rfl⟩
  · exact hlisted
  · have hlen := congrArg List.length hindex
    rw [SrtParser.added, List.length_append, List.length_singleton] at hlen
    omega

/-- **The text that waits adds nothing** when it is empty, or its times are listed. -/
theorem flush_iff : (∃ s', s.flush = some s' ∧ s'.mIndex = s.mIndex) ↔
    s.tmp = [] ∨ Listed s s.tmpStart s.tmpEnd := by
  unfold SrtParser.flush
  by_cases htmp : s.tmp = []
  · rw [if_pos htmp]
    exact iff_of_true ⟨s, rfl, rfl⟩ (.inl htmp)
  · rw [if_neg htmp, or_iff_right htmp]
    constructor
    · rintro ⟨s', h, hindex⟩
      obtain ⟨⟨t, rtn⟩, hadd, rfl⟩ := Option.map_eq_some_iff.mp h
      exact listed_of_same hadd hindex
    · intro h
      rw [directAddSubtitle_of_listed h]
      exact ⟨_, rfl, rfl⟩

/-- A line that adds nothing leaves the texts as they are. -/
theorem mTextData_flush (h : s.flush = some s') (hindex : s'.mIndex = s.mIndex) :
    s'.mTextData = s.mTextData := by
  unfold SrtParser.flush at h
  split at h
  · cases h
    rfl
  · obtain ⟨⟨t, rtn⟩, hadd, rfl⟩ := Option.map_eq_some_iff.mp h
    have hlisted := listed_of_same hadd hindex
    rw [directAddSubtitle_of_listed hlisted] at hadd
    cases hadd
    rfl

theorem handleText_iff (line : List UInt16) :
    (∃ s', s.handleText line = some s' ∧ s'.mIndex = s.mIndex) ↔ Overrun.TextFits s line := by
  have htext : s.handleText line = if 2 ≤ s.mLastType then
      (if (s.joined line).length < lineSize then
        some { s with mLastType := 3, tmp := s.joined line }
      else none) else some s := rfl
  rw [htext, Overrun.TextFits]
  split
  · next htype =>
    rw [imp_iff_right htype]
    split
    · next hfits => exact iff_of_true ⟨_, rfl, rfl⟩ hfits
    · next hfits =>
      refine iff_of_false ?_ hfits
      rintro ⟨_, h, -⟩
      cases h
  · next htype => exact iff_of_true ⟨_, rfl, rfl⟩ fun h => absurd h htype

/-- **The part for SRT files adds nothing** exactly for a quiet line. -/
theorem srtQuiet_iff (line : List UInt16) :
    (∃ s', s.handleLine line = some s' ∧ s'.mIndex = s.mIndex) ↔
      SrtQuiet s (Listed s s.tmpStart s.tmpEnd) line := by
  unfold SrtParser.handleLine SrtQuiet
  split
  · exact iff_of_true ⟨_, rfl, rfl⟩ trivial
  · cases findSub arrow line with
    | none => exact handleText_iff _
    | some p =>
      dsimp only
      unfold SrtParser.handleTimes
      split
      · rw [← flush_iff]
        constructor
        · rintro ⟨s', h, hindex⟩
          obtain ⟨t, ht, rfl⟩ := Option.map_eq_some_iff.mp h
          exact ⟨t, ht, hindex⟩
        · rintro ⟨t, ht, hindex⟩
          rw [ht]
          exact ⟨_, rfl, hindex⟩
      · exact handleText_iff _

/-- What the part for SRT files does: it sets the kind of the line and the text that waits, or
adds that text for new times. -/
theorem handleLine_cases (h : s.handleLine line = some s') :
    (∃ n tmp, s' = { s with mLastType := n, tmp := tmp }) ∨
    ∃ t, s.flush = some t ∧ ∃ start stop,
      s' = { t with mLastType := 2, tmpStart := start, tmpEnd := stop, tmp := [] } := by
  have htext : ∀ line, s.handleText line = some s' →
      ∃ n tmp, s' = { s with mLastType := n, tmp := tmp } := by
    intro line h
    unfold SrtParser.handleText at h
    split at h
    · dsimp only at h
      split at h
      · split at h
        · exact ⟨_, _, (Option.some.inj h).symm⟩
        · cases h
      · split at h
        · exact ⟨_, _, (Option.some.inj h).symm⟩
        · cases h
    · exact ⟨_, _, (Option.some.inj h).symm⟩
  unfold SrtParser.handleLine at h
  split at h
  · exact .inl ⟨1, s.tmp, (Option.some.inj h).symm⟩
  · split at h
    · unfold SrtParser.handleTimes at h
      split at h
      · obtain ⟨t, ht, rfl⟩ := Option.map_eq_some_iff.mp h
        exact .inr ⟨t, ht, _, _, rfl⟩
      · exact .inl (htext _ h)
    · exact .inl (htext _ h)

theorem mTextData_handleLine (h : s.handleLine line = some s') (hindex : s'.mIndex = s.mIndex) :
    s'.mTextData = s.mTextData := by
  rcases handleLine_cases h with ⟨n, tmp, rfl⟩ | ⟨t, ht, start, stop, rfl⟩
  · rfl
  · have hdata : t.mTextData = s.mTextData := mTextData_flush ht hindex
    exact hdata

theorem mAss_directAddSubtitle {start stop rtn : Int} {text : List UInt16}
    (h : s.directAddSubtitle text start stop = some (s', rtn)) : s'.mAss = s.mAss := by
  rcases SrtParser.directAddSubtitle_cases h with ⟨-, rfl, -⟩ | ⟨-, -, textData, -, rfl⟩
  · rfl
  · rfl

theorem mAss_handleLine (h : s.handleLine line = some s') : s'.mAss = s.mAss := by
  rcases handleLine_cases h with ⟨n, tmp, rfl⟩ | ⟨t, ht, start, stop, rfl⟩
  · rfl
  · unfold SrtParser.flush at ht
    split at ht
    · cases ht
      rfl
    · obtain ⟨⟨u, rtn⟩, hadd, rfl⟩ := Option.map_eq_some_iff.mp ht
      have hass : u.mAss = s.mAss := mAss_directAddSubtitle hadd
      exact hass

/-! ## A line -/

variable {a a' : AssParser} {calls : List AssCall} {seen : Bool} {start stop : Int}

theorem handleLine_times (hass : a.srt.mAss = true) (hstart : a.mAssEventsStart = true)
    (htimes : dialogueTimes line = some (start, stop)) : a.handleLine line =
      (dialogueText line).bind fun text =>
        (a.srt.directAddSubtitle text start stop).bind fun r =>
          (r.1.handleLine (a.srt.storedText text)).map fun s =>
            ({ a with srt := s }, [⟨a.srt.mAss, text, start, stop⟩] ++
              r.1.lineCalls (a.srt.storedText text)) := by
  rw [AssParser.handleLine, if_pos hass, if_neg (by rw [hstart]; decide), htimes]
  rfl

theorem ownStep_times (hstart : a.mAssEventsStart = true)
    (htimes : dialogueTimes line = some (start, stop)) : ownStep a line =
      (dialogueText line).bind fun text =>
        (a.srt.directAddSubtitle text start stop).map Prod.fst := by
  rw [ownStep, if_pos hstart, htimes]

theorem asked_of_times (s : SrtParser) (htimes : dialogueTimes line = some (start, stop)) :
    asked s seen line =
      if (seen = true ∧ (eventOf line).isSome) ∧ ¬ Listed s start stop then
        some (entryOf s start stop (plainText (dropFields 9 line)))
      else none := by
  unfold asked
  cases hevent : eventOf line with
  | none => rw [if_neg (by simp)]
  | some e =>
    obtain ⟨htimes', htext⟩ := eventOf_spec hevent
    rw [htimes', Option.some.injEq, Prod.mk.injEq] at htimes
    obtain ⟨rfl, rfl⟩ := htimes
    dsimp only
    rw [htext]
    exact if_congr (by simp) rfl rfl

/-- The text that waits, behind a new entry. -/
theorem srtQuiet_added {new : SubtitleIndex} (textData : List UInt16) (line : List UInt16) :
    SrtQuiet (s.added new textData)
        (Listed (s.added new textData) (s.added new textData).tmpStart
          (s.added new textData).tmpEnd) line ↔
      SrtQuiet s (Listed s s.tmpStart s.tmpEnd ∨ nearly new.timeStart s.tmpStart = true ∧
        nearly new.timeEnd s.tmpEnd = true) line := by
  have hlisted : Listed (s.added new textData) s.tmpStart s.tmpEnd ↔
      Listed s s.tmpStart s.tmpEnd ∨ nearly new.timeStart s.tmpStart = true ∧
        nearly new.timeEnd s.tmpEnd = true := by
    unfold Listed
    rw [SrtParser.added, List.any_append, Bool.or_eq_true, List.any_cons, List.any_nil,
      Bool.or_false, isDuplicate, Bool.and_eq_true]
  rw [← propext hlisted]
  exact Iff.rfl

/-- **A line with two times adds what it asks for** exactly when it meets the condition. -/
theorem times_iff (hass : a.srt.mAss = true) (hstart : a.mAssEventsStart = true)
    (htimes : dialogueTimes line = some (start, stop)) :
    (∃ r ∈ a.handleLine line, LineAdds seen a r.1 line) ↔
      TimesMeet a.srt seen line start stop := by
  unfold LineAdds TimesMeet
  rw [handleLine_times hass hstart htimes, ownStep_times hstart htimes, dialogueText_eq,
    asked_of_times a.srt htimes]
  dsimp only
  by_cases hord : Braces.Ordered (dropFields 9 line)
  · obtain ⟨text, htext⟩ : ∃ t, t = plainText (dropFields 9 line) := ⟨_, rfl⟩
    rw [if_pos hord, and_iff_right hord, ← htext, Option.bind_some, Option.bind_some]
    by_cases hlisted : Listed a.srt start stop
    · rw [directAddSubtitle_of_listed hlisted, Option.bind_some, Option.map_some,
        if_neg fun h => h.2 hlisted, and_iff_right (.inl hlisted)]
      have hknown : (Listed a.srt a.srt.tmpStart a.srt.tmpEnd ∨ ¬ Listed a.srt start stop ∧
          nearly start a.srt.tmpStart = true ∧ nearly stop a.srt.tmpEnd = true) =
          Listed a.srt a.srt.tmpStart a.srt.tmpEnd :=
        propext (or_iff_left fun h => h.1 hlisted)
      rw [hknown, ← srtQuiet_iff]
      constructor
      · rintro ⟨r, hr, s, new, hs, -, hindex, -⟩
        obtain ⟨s', hs', rfl⟩ := Option.map_eq_some_iff.mp hr
        cases hs
        exact ⟨s', hs', hindex⟩
      · rintro ⟨s', hs', hindex⟩
        rw [hs']
        exact ⟨_, rfl, a.srt, [], rfl, (List.append_nil _).symm, hindex, rfl⟩
    · by_cases hroom : RoomFor a.srt text
      · obtain ⟨new, textData, hadd, hstart', hstop', hentry⟩ :=
          directAddSubtitle_of_room hlisted hroom
        have hknown : (Listed a.srt a.srt.tmpStart a.srt.tmpEnd ∨ ¬ Listed a.srt start stop ∧
            nearly start a.srt.tmpStart = true ∧ nearly stop a.srt.tmpEnd = true) =
            (Listed a.srt a.srt.tmpStart a.srt.tmpEnd ∨
              nearly new.timeStart a.srt.tmpStart = true ∧
                nearly new.timeEnd a.srt.tmpEnd = true) := by
          rw [hstart', hstop', and_iff_right hlisted]
        rw [hadd, Option.bind_some, Option.map_some, or_iff_right hlisted, and_iff_left hroom,
          hknown, ← srtQuiet_added textData, ← srtQuiet_iff]
        constructor
        · rintro ⟨r, hr, s, added, hs, hnew, hindex, hasked⟩
          obtain ⟨s', hs', rfl⟩ := Option.map_eq_some_iff.mp hr
          cases hs
          refine ⟨?_, s', hs', hindex⟩
          by_contra hno
          rw [if_neg fun h => hno h.1, Option.toList_none, List.map_eq_nil_iff] at hasked
          rw [hasked, SrtParser.added, List.append_nil] at hnew
          exact List.cons_ne_nil _ _ (List.append_right_eq_self.mp hnew)
        · rintro ⟨hask, s', hs', hindex⟩
          rw [hs']
          refine ⟨_, rfl, _, [new], rfl, rfl, hindex, ?_⟩
          rw [if_pos ⟨hask, hlisted⟩, List.map_singleton,
            hentry s' (mTextData_handleLine hs' hindex)]
          rfl
      · rw [directAddSubtitle_of_not_room hlisted hroom]
        refine iff_of_false ?_ fun h => hroom (h.1.resolve_left hlisted).2
        rintro ⟨r, hr, -⟩
        cases hr
  · rw [if_neg hord]
    refine iff_of_false ?_ fun h => hord h.1
    rintro ⟨r, hr, -⟩
    cases hr

theorem asked_of_no_times (s : SrtParser) (htimes : dialogueTimes line = none) :
    asked s seen line = none := by
  unfold asked
  cases hevent : eventOf line with
  | none => rfl
  | some e =>
    rw [(eventOf_spec hevent).1] at htimes
    cases htimes

theorem lineAdds_same (hown : ownStep a line = some a.srt) :
    LineAdds seen a a' line ↔ asked a.srt seen line = none ∧ a'.srt.mIndex = a.srt.mIndex := by
  constructor
  · rintro ⟨s, new, hs, hnew, hindex, hasked⟩
    obtain rfl : a.srt = s := Option.some.inj (hown.symm.trans hs)
    obtain rfl : new = [] := List.append_right_eq_self.mp hnew.symm
    cases ha : asked a.srt seen line with
    | none => exact ⟨rfl, hindex⟩
    | some e =>
      rw [ha] at hasked
      cases hasked
  · rintro ⟨hasked, hindex⟩
    refine ⟨a.srt, [], hown, (List.append_nil _).symm, hindex, ?_⟩
    rw [hasked]
    rfl

theorem handleLine_front (hass : a.srt.mAss = true) (hstart : a.mAssEventsStart = false)
    (line : List UInt16) : a.handleLine line =
      if line ≠ eventsLine then AssParser.srtLine { a with mAssEventsStart := true } [] line
      else some (a, []) := by
  rw [AssParser.handleLine, if_pos hass, if_pos hstart]
  rfl

/-- **A line adds what it asks for** exactly when it meets the condition. -/
theorem line_iff (hass : a.srt.mAss = true) (line : List UInt16) :
    (∃ r ∈ a.handleLine line, LineAdds seen a r.1 line) ↔ LineMeets seen a line := by
  have hself : ∀ {r : AssParser × List AssCall}, (∃ r' ∈ some r, LineAdds seen a r'.1 line) ↔
      LineAdds seen a r.1 line := by simp
  unfold LineMeets
  cases hstart : a.mAssEventsStart with
  | false =>
    have hown : ownStep a line = some a.srt := by rw [ownStep, hstart, if_neg (by decide)]
    rw [if_pos rfl, handleLine_front hass hstart]
    by_cases hline : line ≠ eventsLine
    · rw [if_pos hline, imp_iff_right hline, ← srtQuiet_iff]
      constructor
      · rintro ⟨r, hr, hadds⟩
        obtain ⟨s', hs', rfl⟩ := Option.map_eq_some_iff.mp hr
        obtain ⟨hasked, hindex⟩ := (lineAdds_same hown).mp hadds
        exact ⟨hasked, s', hs', hindex⟩
      · rintro ⟨hasked, s', hs', hindex⟩
        rw [AssParser.srtLine, hs']
        exact ⟨_, rfl, (lineAdds_same hown).mpr ⟨hasked, hindex⟩⟩
    · rw [if_neg hline, hself, lineAdds_same hown]
      refine iff_of_true ⟨?_, rfl⟩ fun h => absurd h hline
      rw [not_not.mp hline]
      rfl
  | true =>
    rw [if_neg (by decide)]
    cases htimes : dialogueTimes line with
    | none =>
      have hown : ownStep a line = some a.srt := by rw [ownStep, hstart, if_pos rfl, htimes]
      have hhandle : a.handleLine line = some (a, []) := by
        rw [AssParser.handleLine, if_pos hass, if_neg (by rw [hstart]; decide), htimes]
      rw [hhandle, hself, lineAdds_same hown]
      exact iff_of_true ⟨asked_of_no_times _ htimes, rfl⟩ fun _ h => by cases h
    | some times =>
      rw [times_iff hass hstart htimes]
      simp

section Feed

variable {α : Type} [DecidableEq α] {newline : α} {toWide chars : List α → List UInt16}

theorem feedAdds_iff {r : AssParser.Reading α} (hass : r.parser.srt.mAss = true) (c : α) :
    FeedAdds newline toWide seen r c ↔ FeedMeets newline toWide seen r c := by
  unfold FeedAdds FeedMeets
  refine forall_congr' fun hc => ?_
  rw [AssParser.feed, if_neg (not_not.mpr hc)]
  by_cases hfits : r.line.length < lineSize
  · rw [if_pos hfits, and_iff_right hfits, AssParser.endLine]
    dsimp only
    by_cases hline : trim 13 (trim 32 (toWide r.line)) = []
    · have hown : ownStep r.parser [] = some r.parser.srt := by
        unfold ownStep
        split
        · rfl
        · rfl
      rw [hline, if_neg (not_not.mpr rfl)]
      refine iff_of_true ⟨_, rfl, (lineAdds_same hown).mpr ⟨rfl, rfl⟩⟩ fun h => absurd rfl h
    · rw [if_pos hline, imp_iff_right hline, ← line_iff hass]
      constructor
      · rintro ⟨r', hr', hadds⟩
        obtain ⟨r'', hr'', rfl⟩ := Option.map_eq_some_iff.mp hr'
        exact ⟨r'', hr'', hadds⟩
      · rintro ⟨r'', hr'', hadds⟩
        rw [Option.mem_def.mp hr'']
        exact ⟨_, rfl, hadds⟩
  · rw [if_neg hfits]
    refine iff_of_false ?_ fun h => hfits h.1
    rintro ⟨r', hr', -⟩
    cases hr'

theorem mAss_feed {r r' : AssParser.Reading α} {c : α} (hass : r.parser.srt.mAss = true)
    (h : AssParser.feed newline toWide r c = some r') : r'.parser.srt.mAss = true := by
  have hsrt : ∀ {b : AssParser} {calls : List AssCall} {line : List UInt16}
      {q : AssParser × List AssCall}, b.srt.mAss = true → b.srtLine calls line = some q →
        q.1.srt.mAss = true := by
    intro b calls line q hb h
    obtain ⟨s, hs, rfl⟩ := Option.map_eq_some_iff.mp h
    exact (mAss_handleLine hs).trans hb
  unfold AssParser.feed at h
  split at h
  · cases h
    split
    · exact hass
    · exact hass
  · split at h
    · obtain ⟨q, hq, rfl⟩ := Option.map_eq_some_iff.mp h
      unfold AssParser.endLine at hq
      dsimp only at hq ⊢
      split at hq
      · cases hstart : r.parser.mAssEventsStart with
        | false =>
          rw [handleLine_front hass hstart] at hq
          split at hq
          · exact hsrt (b := { r.parser with mAssEventsStart := true }) hass hq
          · cases hq
            exact hass
        | true =>
          cases htimes : dialogueTimes (trim 13 (trim 32 (toWide r.line))) with
          | none =>
            rw [AssParser.handleLine, if_pos hass, if_neg (by rw [hstart]; decide), htimes] at hq
            cases hq
            exact hass
          | some times =>
            rw [handleLine_times hass hstart htimes, Option.bind_eq_some_iff] at hq
            obtain ⟨text, -, hq⟩ := hq
            obtain ⟨⟨s, rtn⟩, hadd, hq⟩ := Option.bind_eq_some_iff.mp hq
            exact hsrt (b := { r.parser with srt := s })
              ((mAss_directAddSubtitle hadd).trans hass) hq
      · cases hq
        exact hass
    · cases h

/-- **Reading a file adds what its lines ask for** exactly when they meet the condition. -/
theorem readsAdd_iff {a : AssParser} (hass : a.srt.mAss = true) (data : List α) :
    ReadsAdd newline toWide chars a data ↔ ReadsMeet newline toWide chars a data := by
  have hkeep : ∀ (st : Option (AssParser.Reading α) × Bool) (c : α),
      (∀ r ∈ st.1, r.parser.srt.mAss = true) →
        ∀ r' ∈ (lineStep newline toWide st c).1, r'.parser.srt.mAss = true := by
    intro st c hst r' hr'
    obtain ⟨r, hr, hfeed⟩ := Option.bind_eq_some_iff.mp hr'
    exact mAss_feed (hst r hr) hfeed
  have hstart : ∀ r ∈ (some ⟨a, [], []⟩ : Option (AssParser.Reading α)),
      r.parser.srt.mAss = true := by
    rintro r ⟨⟩
    exact hass
  have hlast : ∀ r : AssParser.Reading α, (∃ q ∈ r.parser.flush r.calls,
      q.1.srt.mIndex = r.parser.srt.mIndex) ↔ r.parser.srt.tmp = [] ∨
        Listed r.parser.srt r.parser.srt.tmpStart r.parser.srt.tmpEnd := by
    intro r
    rw [← flush_iff]
    constructor
    · rintro ⟨q, hq, hindex⟩
      obtain ⟨s, hs, rfl⟩ := Option.map_eq_some_iff.mp hq
      exact ⟨s, hs, hindex⟩
    · rintro ⟨s, hs, hindex⟩
      rw [AssParser.flush, hs]
      exact ⟨_, rfl, hindex⟩
  constructor
  · rintro ⟨hloop, hend⟩
    refine ⟨along_of_invariant (fun st => ∀ r ∈ st.1, r.parser.srt.mAss = true)
      (fun st c hst _ => hkeep st c hst)
      (fun st c hst h r hr => (feedAdds_iff (hst r hr) c).mp (h r hr)) data _ hstart hloop,
      fun r hr => ?_⟩
    obtain ⟨q, hq, hindex, hasked⟩ := hend r hr
    exact ⟨(hlast r).mp ⟨q, hq, hindex⟩, hasked⟩
  · rintro ⟨hloop, hend⟩
    refine ⟨along_of_invariant (fun st => ∀ r ∈ st.1, r.parser.srt.mAss = true)
      (fun st c hst _ => hkeep st c hst)
      (fun st c hst h r hr => (feedAdds_iff (hst r hr) c).mpr (h r hr)) data _ hstart hloop,
      fun r hr => ?_⟩
    obtain ⟨q, hq, hindex⟩ := (hlast r).mpr (hend r hr).1
    exact ⟨q, hq, hindex, (hend r hr).2⟩

theorem run_lineStep : ∀ (data : List α) (st : Option (AssParser.Reading α) × Bool),
    (run (lineStep newline toWide) st data).1 =
      run (Overrun.readStep newline toWide) st.1 data := by
  intro data
  induction data with
  | nil => intro st; rfl
  | cons c data ih => intro st; exact ih _

/-- Such a file is read to its end, and entries are only added. -/
theorem ReadsAdd.handleData {a : AssParser} {data : List α}
    (h : ReadsAdd newline toWide chars a data) : ∃ q new,
      ((a.handleData newline toWide data).bind fun r => r.1.flush r.2) = some q ∧
        q.1.srt.mIndex = a.srt.mIndex ++ new := by
  obtain ⟨r, hr, new, hnew⟩ : ∃ r, (run (lineStep newline toWide) (some ⟨a, [], []⟩, false)
      data).1 = some r ∧ ∃ new, r.parser.srt.mIndex = a.srt.mIndex ++ new := by
    refine along_run (fun st => ∃ r, st.1 = some r ∧ ∃ new,
      r.parser.srt.mIndex = a.srt.mIndex ++ new) ?_ data _
        ⟨_, rfl, [], (List.append_nil _).symm⟩ h.loop
    rintro ⟨_, seen⟩ c ⟨r, rfl, new, hnew⟩ hadds
    by_cases hc : c = newline
    · obtain ⟨r', hr', s, more, -, hmore, hindex, -⟩ := hadds r rfl hc
      exact ⟨r', hr', new ++ more, by rw [hindex, hmore, hnew, List.append_assoc]⟩
    · refine ⟨_, if_pos hc, new, ?_⟩
      split
      · exact hnew
      · exact hnew
  obtain ⟨q, hq, hindex, -⟩ := h.last r hr
  rw [run_lineStep, Overrun.run_readStep] at hr
  refine ⟨q, new, ?_, hindex.trans hnew⟩
  rw [AssParser.handleData, hr]
  exact hq

end Feed

/-- **An ASS file leads to the entries that its lines ask for** exactly when they meet the
condition. -/
theorem loadAdds_iff (toWide : CodePage → List UInt8 → List UInt16) (a : AssParser)
    (behind data : List UInt8) :
    LoadAdds toWide a behind data ↔ LoadMeets toWide a behind data := by
  unfold LoadAdds LoadMeets
  dsimp only
  cases Encoding.detect behind data with
  | bigEndian => exact readsAdd_iff rfl _
  | littleEndian => exact readsAdd_iff rfl _
  | utf8 => exact readsAdd_iff rfl _
  | ansi => exact readsAdd_iff rfl _

theorem load_eq (toWide : CodePage → List UInt8 → List UInt16) (a : AssParser)
    (behind data : List UInt8) : a.load toWide true behind data =
      let a : AssParser := ⟨{ a.srt with mAss := true }, false⟩
      let toWide8 := fun page line => cstr ((toWide page line).take lineSize)
      (match Encoding.detect behind data with
        | .bigEndian => a.handleData 10 wideLine (toUnits true (data.drop 2))
        | .littleEndian => a.handleData 10 wideLine (toUnits false (data.drop 2))
        | .utf8 => a.handleData 10 (toWide8 .utf8) (data.drop 3)
        | .ansi => a.handleData 10 (toWide8 .acp) data).bind fun r => r.1.flush r.2 := by
  unfold AssParser.load Encoding.detect
  dsimp only
  split
  · rfl
  · split
    · rfl
    · split
      · rfl
      · rfl

/-- `load` ends for such a file, and entries are only added. -/
theorem LoadAdds.load {toWide : CodePage → List UInt8 → List UInt16} {a : AssParser}
    {behind data : List UInt8} (h : LoadAdds toWide a behind data) : ∃ q new,
      a.load toWide true behind data = some q ∧ q.1.srt.mIndex = a.srt.mIndex ++ new := by
  unfold LoadAdds at h
  rw [load_eq]
  revert h
  dsimp only
  cases Encoding.detect behind data with
  | bigEndian => exact fun h => ReadsAdd.handleData h
  | littleEndian => exact fun h => ReadsAdd.handleData h
  | utf8 => exact fun h => ReadsAdd.handleData h
  | ansi => exact fun h => ReadsAdd.handleData h

/-- A dialogue at the front of the events, without its newline. -/
def firstDialogue : List UInt8 :=
  (wide "[Events]\nDialogue: 0,0:00:01.00,0:00:02.00,,,,,,,Hi".toList).map fun c =>
    UInt8.ofNat c.toNat

/-- A line of styles, behind one that begins the events for `handle_line`. -/
def stylesLine : List UInt8 :=
  (wide "[V4+ Styles]\nStyle: a,b,c,d\n".toList).map fun c => UInt8.ofNat c.toNat

def roomForHi : AssParser := .init 1 (List.replicate 8 1) []

/-- **The first dialogue is lost**, and a line of styles becomes an entry. -/
theorem first_dialogue_is_lost :
    ¬ LoadAdds latin roomForHi [] (firstDialogue ++ [10]) ∧
      (roomForHi.load latin true [] (firstDialogue ++ [10])).map (·.1.srt.entries) = some [] ∧
      (roomForHi.load latin true [] stylesLine).map (·.1.srt.entries) =
        some [⟨0, 0, false, 0, [100, 10]⟩] := by
  refine ⟨fun h => ?_, by decide +kernel, by decide +kernel⟩
  have hansi : Encoding.detect [] (firstDialogue ++ [10]) = .ansi := by decide
  unfold LoadAdds at h
  dsimp only at h
  rw [hansi] at h
  have hlast := ((along_append _ _ _).mp h.loop).2.1
  obtain ⟨st, hst⟩ : ∃ st, st = run (lineStep 10 fun line => cstr ((latin .acp line).take lineSize))
    (some ⟨⟨{ roomForHi.srt with mAss := true }, false⟩, [], []⟩, false) firstDialogue := ⟨_, rfl⟩
  have hstate : st.1.map (fun r => (r.parser, r.line)) =
      some (⟨{ roomForHi.srt with mAss := true }, false⟩, firstDialogue.drop 9) := by
    rw [hst]
    decide +kernel
  have hseen : st.2 = true := by
    rw [hst]
    decide
  have hasked : (asked { roomForHi.srt with mAss := true } true (trim 13 (trim 32 (cstr
      ((latin .acp (firstDialogue.drop 9)).take lineSize))))).isSome = true := by decide
  obtain ⟨r, hr, hfacts⟩ := Option.map_eq_some_iff.mp hstate
  obtain ⟨hparser, hline⟩ := Prod.mk.inj hfacts
  rw [← hst] at hlast
  obtain ⟨r', -, hadds⟩ := hlast r hr rfl
  rw [hseen, hparser, hline] at hadds
  have hown := (lineAdds_same (a := ⟨{ roomForHi.srt with mAss := true }, false⟩) rfl).mp hadds
  rw [hown.1] at hasked
  cases hasked

end DWindow.Srt.Events
