import DWindow.Lib.Groups
import DWindow.Lib.Runs
import DWindow.Srt.Ass
import DWindow.Srt.LastLine

/-!
# Where a file is written while it is read

`handle_data` collects a line in a buffer of 1024 characters, `handle_line` takes the times of
a dialogue line apart in two more, changes the line in its place and joins the lines of a text in
`tmp`, and `direct_add_subtitle` puts a warning behind a text for ASS files.  Each of these
writes is an extent of a buffer.  The splitters drop what does not fit into a line but not its
terminator, and neither the lines of a text nor the warning are counted: all writes are inside
exactly when no line is full at its newline, the joined lines and the text with the warning fit,
and no brace removal runs over the end (`loadsInside_iff`).
-/

namespace DWindow.Srt.Overrun

open Decimal Groups Runs WString

/-! ## Extents -/

/-- The buffers, of 1024 characters each. -/
inductive Buffer
  | line
  | lineW
  | strStart
  | strEnd
  | tmp
deriving DecidableEq, Repr

/-- Characters that are written to a buffer: those in front of a place, or no end of them. -/
structure Extent where
  buffer : Buffer
  upto : Option Nat
deriving DecidableEq, Repr

def Extent.Inside (e : Extent) : Prop := ∃ n ∈ e.upto, n ≤ lineSize

def stringTo (b : Buffer) (str : List UInt16) : Extent := ⟨b, some (str.length + 1)⟩

/-- The warning that `direct_add_subtitle` puts behind a text. -/
def warnWrites (s : SrtParser) (b : Buffer) (text : List UInt16) : List Extent :=
  if s.mAss = true then [stringTo b (s.warned text)] else []

/-- `handle_line` from `//text:` on. -/
def textWrites (s : SrtParser) (line : List UInt16) : List Extent :=
  if 2 ≤ s.mLastType then [stringTo .tmp (s.joined line)] else []

/-- `handle_line` from `//timecode:` on, for a line with an arrow. -/
def timesWrites (s : SrtParser) (left right : List UInt16) : List Extent :=
  if 0 ≤ timeToDecimal left ∧ 0 < timeToDecimal right ∧ s.mLastType = 1 then
    (if s.tmp = [] then [] else warnWrites s .tmp s.tmp) ++ [stringTo .tmp []]
  else textWrites s left

/-- `handle_line` from `// number` on. -/
def srtWrites (s : SrtParser) (line : List UInt16) : List Extent :=
  if line.all isDigit = true ∧ s.mLastType = 0 then []
  else
    match findSub arrow line with
    | some p => timesWrites s (trim 32 (line.take p)) (trim 32 (line.drop (p + arrow.length)))
    | none => textWrites s line

/-- A time as it stands in `str_start` or `str_end` at the end. -/
def timeField (str : List UInt16) : List UInt16 :=
  let str := trim 32 str
  (if str[1]? = some 58 then 48 :: str else str) ++ [48]

theorem assTime_eq (str : List UInt16) : assTime str = timeToDecimal (timeField str) := rfl

/-- The copies of a dialogue line into `str_start` and `str_end`. -/
def fieldWrites (line : List UInt16) : List Extent :=
  match splitComma line with
  | none => []
  | some (_, line) =>
    stringTo .strStart line ::
      match splitComma line with
      | none => []
      | some (start, line) =>
        stringTo .strEnd line ::
          match splitComma line with
          | none => []
          | some (stop, _) =>
            [stringTo .strStart (timeField start), stringTo .strEnd (timeField stop)]

/-- The turns of the loop that removes `{XXX}`.  A copy to the back reads what it has written,
and goes on without end. -/
def braceWrites : Nat → List UInt16 → List Extent
  | 0, _ => []
  | fuel + 1, line =>
    match findSub (wide ['{']) line, findSub (wide ['}']) line with
    | some l, some r =>
      if r + 1 < l then [⟨.lineW, none⟩]
      else if r < l then [stringTo .lineW line]
      else
        let line := line.take l ++ line.drop (r + 1)
        stringTo .lineW line :: braceWrites fuel line
    | _, _ => []

/-- A dialogue line, up to the end of `direct_add_subtitle`. -/
def dialogueWrites (s : SrtParser) (line : List UInt16) : List Extent :=
  stringTo .lineW line :: braceWrites line.length (dropFields 9 line) ++
    match dialogueText line with
    | none => []
    | some text => warnWrites s .lineW text

/-- `handle_line`. -/
def lineWrites (a : AssParser) (line : List UInt16) : List Extent :=
  if a.srt.mAss = true then
    if a.mAssEventsStart = false then
      if line ≠ wide ['[', 'E', 'v', 'e', 'n', 't', 's', ']'] then srtWrites a.srt line else []
    else
      fieldWrites line ++
        match dialogueTimes line with
        | none => []
        | some (start, stop) =>
          dialogueWrites a.srt line ++
            (((dialogueText line).bind fun text =>
              (a.srt.directAddSubtitle text start stop).map fun r =>
                srtWrites r.1 (a.srt.storedText text)).getD [])
  else srtWrites a.srt line

/-- What comes in front of `handle_line` at a newline: the terminator, and the characters of
`MultiByteToWideChar` for a line of bytes. -/
def newlineWrites (b : Buffer) (chars : Nat) (line : List UInt16) : List Extent :=
  ⟨b, some (chars + 1)⟩ :: (if b = .line then [⟨.lineW, some lineSize⟩] else []) ++
    [stringTo .lineW line]

/-- One character of `handle_data_16` or `handle_data_8`, which collects in `b`. -/
def feedWrites {α : Type} [DecidableEq α] (b : Buffer) (newline : α)
    (toWide : List α → List UInt16) (r : AssParser.Reading α) (c : α) : List Extent :=
  if c ≠ newline then
    if r.line.length < lineSize then [⟨b, some (r.line.length + 1)⟩] else []
  else
    newlineWrites b r.line.length (toWide r.line) ++
      let line := trim 13 (trim 32 (toWide r.line))
      if line ≠ [] then lineWrites r.parser line else []

/-- `// add last srt subtitle`. -/
def flushWrites (a : AssParser) : List Extent :=
  if a.srt.tmp = [] then [] else warnWrites a.srt .tmp a.srt.tmp

/-! ## Loading -/

section Reading

variable {α : Type} [DecidableEq α] (b : Buffer) (newline : α) (toWide : List α → List UInt16)

/-- The loop over the characters; it is left when a step has no result. -/
def readStep (r : Option (AssParser.Reading α)) (c : α) : Option (AssParser.Reading α) :=
  r.bind fun r => AssParser.feed newline toWide r c

theorem run_readStep : ∀ (data : List α) (r : AssParser.Reading α),
    run (readStep newline toWide) (some r) data =
      data.foldlM (AssParser.feed newline toWide) r := by
  have hnone : ∀ data : List α, run (readStep newline toWide) none data = none := by
    intro data
    induction data with
    | nil => rfl
    | cons c data ih => exact ih
  intro data
  induction data with
  | nil => intro r; rfl
  | cons c data ih =>
    intro r
    rw [run_cons, List.foldlM_cons]
    change run _ (AssParser.feed newline toWide r c) data = _
    cases AssParser.feed newline toWide r c with
    | none => exact hnone data
    | some r' => exact ih r'

/-- **All writes of the loop, and those of the last subtitle, are inside.** -/
structure ReadsInside (a : AssParser) (data : List α) : Prop where
  loop : Along (readStep newline toWide)
    (fun r c => ∀ r' ∈ r, ∀ e ∈ feedWrites b newline toWide r' c, e.Inside) (some ⟨a, [], []⟩) data
  last : ∀ r ∈ data.foldlM (AssParser.feed newline toWide) ⟨a, [], []⟩,
    ∀ e ∈ flushWrites r.parser, e.Inside

end Reading

/-- The loop that `load` chooses. -/
def LoadsInside (toWide : CodePage → List UInt8 → List UInt16) (a : AssParser) (ass : Bool)
    (behind data : List UInt8) : Prop :=
  let a : AssParser := ⟨{ a.srt with mAss := ass }, false⟩
  let toWide8 := fun page line => cstr ((toWide page line).take lineSize)
  match Encoding.detect behind data with
  | .bigEndian => ReadsInside .lineW 10 wideLine a (toUnits true (data.drop 2))
  | .littleEndian => ReadsInside .lineW 10 wideLine a (toUnits false (data.drop 2))
  | .utf8 => ReadsInside .line 10 (toWide8 .utf8) a (data.drop 3)
  | .ansi => ReadsInside .line 10 (toWide8 .acp) a data

/-! ## What has to fit -/

/-- The lines of a text fit into `tmp`. -/
def TextFits (s : SrtParser) (line : List UInt16) : Prop :=
  2 ≤ s.mLastType → (s.joined line).length < lineSize

def WarningFits (s : SrtParser) (text : List UInt16) : Prop :=
  s.mAss = true → (s.warned text).length < lineSize

/-- A line that goes to the part for SRT files fits. -/
def SrtFits (s : SrtParser) (line : List UInt16) : Prop :=
  if line.all isDigit = true ∧ s.mLastType = 0 then True
  else
    match findSub arrow line with
    | some p =>
      if 0 ≤ timeToDecimal (trim 32 (line.take p)) ∧
          0 < timeToDecimal (trim 32 (line.drop (p + arrow.length))) ∧ s.mLastType = 1 then
        s.tmp ≠ [] → WarningFits s s.tmp
      else TextFits s (trim 32 (line.take p))
    | none => TextFits s line

/-- Behind a stray `}` no `{` comes, or it comes at once. -/
abbrev BracesFit (line : List UInt16) : Prop :=
  Grouped 123 125 (fun rest => 123 ∈ rest → rest.head? = some 123) false line

def DialogueFits (s : SrtParser) (line : List UInt16) (start stop : Int) : Prop :=
  BracesFit (dropFields 9 line) ∧ ∀ text ∈ dialogueText line, WarningFits s text ∧
    ∀ r ∈ s.directAddSubtitle text start stop, SrtFits r.1 (s.storedText text)

def LineFits (a : AssParser) (line : List UInt16) : Prop :=
  if a.srt.mAss = true then
    if a.mAssEventsStart = false then
      line ≠ wide ['[', 'E', 'v', 'e', 'n', 't', 's', ']'] → SrtFits a.srt line
    else ∀ times ∈ dialogueTimes line, DialogueFits a.srt line times.1 times.2
  else SrtFits a.srt line

section Reading

variable {α : Type} [DecidableEq α] (newline : α) (toWide : List α → List UInt16)

/-- A newline finds room for its terminator, and a line that fits. -/
def FeedFits (r : AssParser.Reading α) (c : α) : Prop :=
  c = newline → r.line.length < lineSize ∧
    (trim 13 (trim 32 (toWide r.line)) ≠ [] →
      LineFits r.parser (trim 13 (trim 32 (toWide r.line))))

/-- All lines fit, and so does the last subtitle. -/
structure ReadsFit (a : AssParser) (data : List α) : Prop where
  loop : Along (readStep newline toWide) (fun r c => ∀ r' ∈ r, FeedFits newline toWide r' c)
    (some ⟨a, [], []⟩) data
  last : ∀ r ∈ data.foldlM (AssParser.feed newline toWide) ⟨a, [], []⟩,
    r.parser.srt.tmp ≠ [] → WarningFits r.parser.srt r.parser.srt.tmp

end Reading

/-- The condition for the loop that `load` chooses. -/
def LoadFits (toWide : CodePage → List UInt8 → List UInt16) (a : AssParser) (ass : Bool)
    (behind data : List UInt8) : Prop :=
  let a : AssParser := ⟨{ a.srt with mAss := ass }, false⟩
  let toWide8 := fun page line => cstr ((toWide page line).take lineSize)
  match Encoding.detect behind data with
  | .bigEndian => ReadsFit 10 wideLine a (toUnits true (data.drop 2))
  | .littleEndian => ReadsFit 10 wideLine a (toUnits false (data.drop 2))
  | .utf8 => ReadsFit 10 (toWide8 .utf8) a (data.drop 3)
  | .ansi => ReadsFit 10 (toWide8 .acp) a data

/-! ## Each write -/

variable {a : AssParser} {s : SrtParser} {line : List UInt16}

theorem inside_stringTo {b : Buffer} {str : List UInt16} :
    (stringTo b str).Inside ↔ str.length < lineSize := by
  simp only [Extent.Inside, stringTo, Option.mem_some_iff, exists_eq_left', Nat.succ_le_iff]

theorem inside_warnWrites {b : Buffer} {text : List UInt16} :
    (∀ e ∈ warnWrites s b text, e.Inside) ↔ WarningFits s text := by
  unfold warnWrites WarningFits
  split
  · next h => rw [List.forall_mem_singleton, inside_stringTo, imp_iff_right h]
  · next h => exact iff_of_true (fun _ he => absurd he List.not_mem_nil) fun h' => absurd h' h

theorem inside_textWrites : (∀ e ∈ textWrites s line, e.Inside) ↔ TextFits s line := by
  unfold textWrites TextFits
  split
  · next h => rw [List.forall_mem_singleton, inside_stringTo, imp_iff_right h]
  · next h => exact iff_of_true (fun _ he => absurd he List.not_mem_nil) fun h' => absurd h' h

theorem inside_srtWrites : (∀ e ∈ srtWrites s line, e.Inside) ↔ SrtFits s line := by
  unfold srtWrites SrtFits
  split
  · exact iff_of_true (fun _ he => absurd he List.not_mem_nil) trivial
  · split
    · unfold timesWrites
      split
      · rw [List.forall_mem_append, List.forall_mem_singleton, inside_stringTo,
          and_iff_left (by decide)]
        split
        · next htmp =>
          exact iff_of_true (fun _ he => absurd he List.not_mem_nil) fun h => absurd htmp h
        · next htmp => rw [inside_warnWrites, imp_iff_right htmp]
      · exact inside_textWrites
    · exact inside_textWrites

theorem length_splitComma {str front rest : List UInt16} (h : splitComma str = some (front, rest)) :
    str.length = front.length + 1 + rest.length := by
  obtain ⟨p, hp, hsplit⟩ := Option.map_eq_some_iff.mp h
  have hlt := (List.getElem?_eq_some_iff.mp (getElem?_findSub hp)).1
  rw [Prod.mk.injEq] at hsplit
  obtain ⟨rfl, rfl⟩ := hsplit
  rw [List.length_take, List.length_drop]
  omega

theorem length_timeField_le (str : List UInt16) : (timeField str).length ≤ str.length + 2 := by
  have htrim := length_trim_le 32 str
  unfold timeField
  dsimp only
  rw [List.length_append, List.length_singleton]
  split
  · rw [List.length_cons]
    omega
  · omega

/-- **The times of a dialogue line fit** into their buffers whenever the line does. -/
theorem inside_fieldWrites (h : line.length < lineSize) : ∀ e ∈ fieldWrites line, e.Inside := by
  unfold fieldWrites
  cases h₁ : splitComma line with
  | none => exact fun _ he => absurd he List.not_mem_nil
  | some f₁ =>
    obtain ⟨front, rest₁⟩ := f₁
    have hlen₁ := length_splitComma h₁
    dsimp only
    rw [List.forall_mem_cons, inside_stringTo]
    refine ⟨by omega, ?_⟩
    cases h₂ : splitComma rest₁ with
    | none => exact fun _ he => absurd he List.not_mem_nil
    | some f₂ =>
      obtain ⟨start, rest₂⟩ := f₂
      have hlen₂ := length_splitComma h₂
      dsimp only
      rw [List.forall_mem_cons, inside_stringTo]
      refine ⟨by omega, ?_⟩
      cases h₃ : splitComma rest₂ with
      | none => exact fun _ he => absurd he List.not_mem_nil
      | some f₃ =>
        obtain ⟨stop, rest₃⟩ := f₃
        have hlen₃ := length_splitComma h₃
        have hstart := length_timeField_le start
        have hstop := length_timeField_le stop
        dsimp only
        rw [List.forall_mem_cons, List.forall_mem_singleton, inside_stringTo, inside_stringTo]
        exact ⟨by omega, by omega⟩

/-- **Brace removal stays in the line** when no copy goes to the back. -/
theorem inside_braceWrites : ∀ (fuel : Nat) {line : List UInt16}, line.length ≤ fuel →
    line.length < lineSize → ((∀ e ∈ braceWrites fuel line, e.Inside) ↔ BracesFit line) := by
  intro fuel
  induction fuel with
  | zero =>
    intro line hlen _
    obtain rfl := List.length_eq_zero_iff.mp (Nat.le_zero.mp hlen)
    exact iff_of_true (fun _ he => absurd he List.not_mem_nil) trivial
  | succ fuel ih =>
    intro line hlen hsize
    rw [braceWrites]
    rcases group_cases (by decide : (123 : UInt16) ≠ 125) line with
      hmiss | ⟨a, b, rest, rfl, ho, hc, hb⟩ | ⟨a, rest, rfl, ho, hc, hrest⟩
    · refine iff_of_true ?_ (grouped_of_not_mem (by decide) (fun _ h h' => absurd h' h) hmiss)
      split
      · next l r hl hr =>
        rcases hmiss with hmiss | hmiss
        · rw [show findSub (wide ['{']) line = none from findSub_of_not_mem hmiss] at hl
          cases hl
        · rw [show findSub (wide ['}']) line = none from findSub_of_not_mem hmiss] at hr
          cases hr
      · exact fun _ he => absurd he List.not_mem_nil
    · obtain ⟨hopen, hclose⟩ := findSub_pair (by decide) ho hc hb rest
      rw [show findSub (wide ['{']) _ = _ from hopen, show findSub (wide ['}']) _ = _ from hclose]
      dsimp only
      have hcut : (a ++ rest).length < (a ++ 123 :: (b ++ 125 :: rest)).length := by
        simp only [List.length_append, List.length_cons]
        omega
      rw [if_neg (by omega), if_neg (by omega), cut_pair, List.forall_mem_cons, inside_stringTo,
        ih (by omega) (by omega), and_iff_right (by omega)]
      exact (grouped_group ho hc hb rest).symm
    · obtain ⟨b, rest, rfl, hb⟩ := List.eq_append_cons_of_mem hrest
      obtain ⟨hclose, hopen⟩ := findSub_pair (by decide) hc ho hb rest
      rw [show findSub (wide ['{']) _ = _ from hopen, show findSub (wide ['}']) _ = _ from hclose]
      dsimp only
      rw [BracesFit, grouped_close (by decide) ho hc]
      cases b with
      | nil =>
        rw [if_neg (by simp), if_pos (by simp), List.forall_mem_singleton, inside_stringTo]
        exact iff_of_true hsize fun _ => rfl
      | cons x b =>
        rw [List.mem_cons, not_or] at hb
        rw [if_pos (by rw [List.length_cons]; omega), List.forall_mem_singleton]
        refine iff_of_false ?_ fun h => ?_
        · rintro ⟨n, hn, -⟩
          cases hn
        · have hhead := h (by simp)
          rw [List.cons_append, List.head?_cons, Option.some.injEq] at hhead
          exact hb.1 hhead.symm

theorem length_dropFields_le : ∀ (left : Nat) (line : List UInt16),
    (dropFields left line).length ≤ line.length := by
  intro left
  induction left with
  | zero => intro line; exact Nat.le_refl _
  | succ left ih =>
    intro line
    rw [dropFields]
    split
    · exact Nat.le_refl _
    · next front rest hsplit =>
      have hlen := length_splitComma hsplit
      have hle := ih rest
      omega

theorem inside_dialogueWrites (h : line.length < lineSize) :
    (∀ e ∈ dialogueWrites s line, e.Inside) ↔
      BracesFit (dropFields 9 line) ∧ ∀ text ∈ dialogueText line, WarningFits s text := by
  have hdrop := length_dropFields_le 9 line
  rw [dialogueWrites, List.forall_mem_append, List.forall_mem_cons, inside_stringTo,
    and_iff_right h, inside_braceWrites _ hdrop (by omega)]
  refine and_congr_right fun _ => ?_
  cases dialogueText line with
  | none => exact iff_of_true (fun _ he => absurd he List.not_mem_nil) fun _ ht => by cases ht
  | some text => simpa using inside_warnWrites

/-- **A line that is in its buffer** is handled inside of all buffers when it fits. -/
theorem inside_lineWrites (h : line.length < lineSize) :
    (∀ e ∈ lineWrites a line, e.Inside) ↔ LineFits a line := by
  unfold lineWrites LineFits
  split
  · split
    · split
      · next hline => rw [inside_srtWrites, imp_iff_right hline]
      · next hline =>
        exact iff_of_true (fun _ he => absurd he List.not_mem_nil) fun h' => absurd h' hline
    · rw [List.forall_mem_append, and_iff_right (inside_fieldWrites h)]
      cases dialogueTimes line with
      | none => exact iff_of_true (fun _ he => absurd he List.not_mem_nil) fun _ ht => by cases ht
      | some times =>
        dsimp only
        rw [List.forall_mem_append, inside_dialogueWrites h]
        simp only [Option.mem_some_iff, forall_eq', DialogueFits]
        rw [and_assoc]
        refine and_congr_right fun _ => ?_
        cases dialogueText line with
        | none => simp
        | some text =>
          simp only [Option.mem_some_iff, forall_eq', Option.bind_some]
          refine and_congr_right fun _ => ?_
          cases a.srt.directAddSubtitle text times.1 times.2 with
          | none => simp
          | some r => simpa using inside_srtWrites
  · exact inside_srtWrites

theorem inside_feedWrites {α : Type} [DecidableEq α] {newline : α} {toWide : List α → List UInt16}
    (hwide : ∀ line, (toWide line).length ≤ line.length) (b : Buffer) (r : AssParser.Reading α)
    (c : α) : (∀ e ∈ feedWrites b newline toWide r c, e.Inside) ↔ FeedFits newline toWide r c := by
  unfold feedWrites FeedFits
  split
  · next hc =>
    refine iff_of_true ?_ fun h => absurd h hc
    split
    · next hlen =>
      rw [List.forall_mem_singleton]
      exact ⟨_, rfl, hlen⟩
    · exact fun _ he => absurd he List.not_mem_nil
  · next hc =>
    rw [not_not] at hc
    rw [imp_iff_right hc, List.forall_mem_append]
    have hterminator : (∀ e ∈ newlineWrites b r.line.length (toWide r.line), e.Inside) ↔
        r.line.length < lineSize := by
      have hline := hwide r.line
      unfold newlineWrites
      rw [List.forall_mem_append, List.forall_mem_cons, List.forall_mem_singleton, inside_stringTo]
      constructor
      · rintro ⟨⟨⟨n, hn, hle⟩, -⟩, -⟩
        rw [Option.mem_some_iff] at hn
        omega
      · intro hlen
        refine ⟨⟨⟨_, rfl, hlen⟩, ?_⟩, by omega⟩
        split
        · rw [List.forall_mem_singleton]
          exact ⟨_, rfl, Nat.le_refl _⟩
        · exact fun _ he => absurd he List.not_mem_nil
    rw [hterminator]
    refine and_congr_right fun hlen => ?_
    have hshort : (trim 13 (trim 32 (toWide r.line))).length < lineSize := by
      have h₁ := length_trim_le 13 (trim 32 (toWide r.line))
      have h₂ := length_trim_le 32 (toWide r.line)
      have h₃ := hwide r.line
      omega
    dsimp only
    split
    · next hne => rw [inside_lineWrites hshort, imp_iff_right hne]
    · next hne => exact iff_of_true (fun _ he => absurd he List.not_mem_nil) fun h' => absurd h' hne

/-! ## Files -/

theorem inside_flushWrites : (∀ e ∈ flushWrites a, e.Inside) ↔
    (a.srt.tmp ≠ [] → WarningFits a.srt a.srt.tmp) := by
  unfold flushWrites
  split
  · next h => exact iff_of_true (fun _ he => absurd he List.not_mem_nil) fun h' => absurd h h'
  · next h => rw [inside_warnWrites, imp_iff_right h]

theorem readsInside_iff {α : Type} [DecidableEq α] {newline : α} {toWide : List α → List UInt16}
    (hwide : ∀ line, (toWide line).length ≤ line.length) (b : Buffer) (a : AssParser)
    (data : List α) : ReadsInside b newline toWide a data ↔ ReadsFit newline toWide a data := by
  have hstep : ∀ (r : Option (AssParser.Reading α)) (c : α),
      (∀ r' ∈ r, ∀ e ∈ feedWrites b newline toWide r' c, e.Inside) ↔
        ∀ r' ∈ r, FeedFits newline toWide r' c := by
    intro r c
    simp only [inside_feedWrites hwide]
  have hloop : Along (readStep newline toWide) _ (some ⟨a, [], []⟩) data ↔
      Along (readStep newline toWide) _ (some ⟨a, [], []⟩) data :=
    along_congr hstep data _
  constructor
  · rintro ⟨h, hlast⟩
    exact ⟨hloop.mp h, fun r hr => inside_flushWrites.mp (hlast r hr)⟩
  · rintro ⟨h, hlast⟩
    exact ⟨hloop.mpr h, fun r hr => inside_flushWrites.mpr (hlast r hr)⟩

theorem length_wideLine_le (line : List UInt16) : (wideLine line).length ≤ line.length :=
  (List.takeWhile_prefix _).length_le

/-- `MultiByteToWideChar` makes no more characters than it is given bytes. -/
def Narrow (toWide : CodePage → List UInt8 → List UInt16) : Prop :=
  ∀ page line, (toWide page line).length ≤ line.length

theorem Narrow.bytes {toWide : CodePage → List UInt8 → List UInt16} (h : Narrow toWide)
    (page : CodePage) (line : List UInt8) :
    (cstr ((toWide page line).take lineSize)).length ≤ line.length :=
  ((List.takeWhile_prefix _).length_le.trans (List.length_take_le' _ _)).trans (h page line)

/-- **A file is read inside of the buffers** exactly when every line fits. -/
theorem loadsInside_iff {toWide : CodePage → List UInt8 → List UInt16} (hwide : Narrow toWide)
    (a : AssParser) (ass : Bool) (behind data : List UInt8) :
    LoadsInside toWide a ass behind data ↔ LoadFits toWide a ass behind data := by
  unfold LoadsInside LoadFits
  dsimp only
  cases Encoding.detect behind data with
  | bigEndian => exact readsInside_iff length_wideLine_le ..
  | littleEndian => exact readsInside_iff length_wideLine_le ..
  | utf8 => exact readsInside_iff (hwide.bytes .utf8) ..
  | ansi => exact readsInside_iff (hwide.bytes .acp) ..

theorem narrow_latin : Narrow latin := fun _ _ => (List.length_map _).le

theorem loadsInside_iff_hi :
    LoadsInside latin (.init 1 [0, 0] []) false [] [72, 105, 10] ↔
      LoadFits latin (.init 1 [0, 0] []) false [] [72, 105, 10] :=
  loadsInside_iff narrow_latin ..

theorem foldlM_feed_chars {α : Type} [DecidableEq α] {newline : α} {toWide : List α → List UInt16} :
    ∀ (chars : List α) (r : AssParser.Reading α), newline ∉ chars →
      r.line.length + chars.length ≤ lineSize →
      chars.foldlM (AssParser.feed newline toWide) r = some { r with line := r.line ++ chars } := by
  intro chars
  induction chars with
  | nil => intro r _ _; rw [List.append_nil]; rfl
  | cons c chars ih =>
    intro r hnew hfits
    rw [List.mem_cons, not_or] at hnew
    rw [List.length_cons] at hfits
    rw [List.foldlM_cons, AssParser.feed, if_pos (Ne.symm hnew.1), if_pos (by omega),
      Option.bind_eq_bind, Option.bind_some, ih _ hnew.2 (by
        rw [List.length_append, List.length_singleton]
        omega)]
    simp only [List.append_assoc, List.singleton_append]

/-- A full line does not find room for its terminator. -/
theorem not_readsInside_full {α : Type} [DecidableEq α] {newline : α}
    {toWide : List α → List UInt16} {chars : List α} (hnew : newline ∉ chars)
    (hfull : chars.length = lineSize) (b : Buffer) (a : AssParser) (rest : List α) :
    ¬ ReadsInside b newline toWide a (chars ++ newline :: rest) := by
  intro h
  have hlast := ((along_append _ _ _).mp h.loop).2.1
  rw [run_readStep, foldlM_feed_chars _ _ hnew (by rw [hfull]; exact (Nat.zero_add _).le)] at hlast
  obtain ⟨n, hn, hle⟩ := hlast _ rfl ⟨b, some (chars.length + 1)⟩ (by
    rw [feedWrites, if_neg (not_not.mpr rfl)]
    exact List.mem_append_left _ (List.mem_append_left _ (List.mem_cons_self ..)))
  rw [Option.mem_some_iff] at hn
  omega

/-- **The terminator of a full line** is written behind the buffer. -/
theorem full_line_overruns :
    ¬ LoadsInside latin (.init 1 [0, 0] []) false [] (List.replicate 1024 97 ++ [10]) := by
  intro h
  have hansi : Encoding.detect [] (List.replicate 1024 97 ++ [10]) = .ansi := by decide
  unfold LoadsInside at h
  dsimp only at h
  rw [hansi] at h
  exact not_readsInside_full (fun hmem => absurd (List.eq_of_mem_replicate hmem) (by decide))
    List.length_replicate _ _ _ h

end DWindow.Srt.Overrun
