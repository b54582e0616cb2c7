import DWindow.PGS.Chunks
import DWindow.PGS.Replay
import DWindow.VobSub.Alike

/-!
# The tables of the bitmap subtitles

`PGSParser` and `VobSubParser` keep their subtitles in arrays of 40960 entries, which `reset`
allocates, and `m_subtitles[m_subtitle_count++]` stands in `parsePresentaionSegment`, in the
case of `handle_line` for a timestamp and in `add_subtitle`, without a look at the count.
Here memory goes on behind the tables, and a run is taken apart into steps that append one
entry at most: a round of `parse`, a byte or character of an index file, a call of
`add_subtitle`.  `tables_bounded_iff` says which steps keep the count inside.
-/

namespace DWindow.PGS

open BigEndian Runs

variable (yuv2rgb : UInt8 → UInt8 → UInt8 → UInt8 → UInt32)

namespace Decoder

/-- The segment ends a picture that the table has not got yet. -/
def AddsPicture (d : Decoder) (time : Int) : Prop :=
  d.mCurrentSubtitle.complete = true ∧
    d.mSubtitles.any (fun i => i.near { d.mCurrentSubtitle with stop := time }) = false

/-- `parsePresentaionSegment`, with memory behind the table. -/
def presentOn (d : Decoder) (data : Nat → UInt8) (size : Nat) (time : Int) : Decoder × HRESULT :=
  if d.mCurrentSubtitle.complete then
    let current := { d.mCurrentSubtitle with stop := time }
    if d.mSubtitles.any (fun i => i.near current) then
      ({ d with mCurrentSubtitle := .zero }, .sFalse)
    else ({ d with mSubtitles := d.mSubtitles ++ [current] }.present data size time, .ok)
  else (d.present data size time, .ok)

/-- `parse_raw_element`, with memory behind the table. -/
def parseElementOn (d : Decoder) (data : Nat → UInt8) (type : UInt8) (size : Nat) (start : Int) :
    Option (Decoder × HRESULT) :=
  if type = 0x16 then some (d.presentOn data size start)
  else d.parseRawElement yuv2rgb data type size start

/-- **What a presentation segment does to the count.** -/
theorem length_presentOn_le_iff {d : Decoder} {data : Nat → UInt8} {size : Nat} {time : Int}
    (h : d.mSubtitles.length ≤ maxSubtitles) :
    (d.presentOn data size time).1.mSubtitles.length ≤ maxSubtitles ↔
      (d.AddsPicture time → d.mSubtitles.length < maxSubtitles) := by
  rw [presentOn, AddsPicture]
  by_cases hcomplete : d.mCurrentSubtitle.complete = true
  · by_cases hdup : d.mSubtitles.any
        (fun i => i.near { d.mCurrentSubtitle with stop := time }) = true
    · simp [hcomplete, hdup, h]
    · rw [if_pos hcomplete, if_neg hdup, present_mSubtitles, List.length_append,
        List.length_singleton, Nat.add_one_le_iff]
      exact ⟨fun hroom _ => hroom, fun hroom => hroom ⟨hcomplete, Bool.eq_false_iff.mpr hdup⟩⟩
  · simp [hcomplete, h]

/-- As long as there is room, memory behind the table makes no difference. -/
theorem parsePresentaionSegment_eq {d : Decoder} {time : Int}
    (h : d.AddsPicture time → d.mSubtitles.length < maxSubtitles) (data : Nat → UInt8)
    (size : Nat) :
    d.parsePresentaionSegment data size time = some (d.presentOn data size time) := by
  rw [parsePresentaionSegment, presentOn]
  by_cases hcomplete : d.mCurrentSubtitle.complete = true
  · by_cases hdup : d.mSubtitles.any
        (fun i => i.near { d.mCurrentSubtitle with stop := time }) = true
    · simp [hcomplete, hdup]
    · simp [hcomplete, hdup, h ⟨hcomplete, Bool.eq_false_iff.mpr hdup⟩]
  · simp [hcomplete]

theorem mSubtitles_parseRawElement {d d' : Decoder} {data : Nat → UInt8} {type : UInt8}
    {size : Nat} {start : Int} {hr : HRESULT} (htype : type ≠ 0x16)
    (h : d.parseRawElement yuv2rgb data type size start = some (d', hr)) :
    d'.mSubtitles = d.mSubtitles := by
  have hedit : ∀ {f : Subtitle → Option (Subtitle × HRESULT)}, d.edit f = some (d', hr) →
      d'.mSubtitles = d.mSubtitles := fun hf => by rw [edit_frame hf]
  rw [parseRawElement, if_neg htype] at h
  split at h
  · exact hedit h
  split at h
  · exact hedit h
  split at h
  · exact hedit h
  split at h
  · exact hedit h
  split at h <;> cases h <;> rfl

theorem parseElementOn_eq {d : Decoder} {type : UInt8} {time : Int}
    (h : type = 0x16 → d.AddsPicture time → d.mSubtitles.length < maxSubtitles)
    (data : Nat → UInt8) (size : Nat) :
    d.parseElementOn yuv2rgb data type size time =
      d.parseRawElement yuv2rgb data type size time := by
  by_cases htype : type = 0x16
  · rw [parseElementOn, parseRawElement, if_pos htype, if_pos htype,
      parsePresentaionSegment_eq (h htype)]
  · rw [parseElementOn, if_neg htype]

end Decoder

namespace PGSParser

/-- The parser where a round of `parse` has found a header, and whether the whole element is
there. -/
def atElement (p : PGSParser) : PGSParser × Bool :=
  if p.mDataPos < 2 then (p, false)
  else
    let (p, found) := findHeader (p.mDataPos + 1) p
    (p, found && headerSize ≤ p.mDataPos && headerSize + readWORD p.mData 11 ≤ p.mDataPos)

def timeStart (p : PGSParser) : Int := (readDWORD p.mData 2 / 90 : Nat)

/-- One round of `parse`. -/
def round (p : PGSParser) : Option PGSParser :=
  let (p, whole) := p.atElement
  if whole then
    let size := readWORD p.mData 11
    (p.toDecoder.parseElementOn yuv2rgb (fun i => p.mData (headerSize + i)) (p.mData 10) size
      p.timeStart).map fun r => { p with toDecoder := r.1 }.removeHead (headerSize + size)
  else some p

inductive TableStep
  | feed (data : List UInt8)
  | round
  | seek

inductive Call
  | addData (data : List UInt8)
  | seek

/-- `add_data` stores the data and goes round; no data needs more rounds than the buffer has
bytes. -/
def Call.steps : Call → List TableStep
  | .addData data => .feed data :: List.replicate bufferSize .round
  | .seek => [.seek]

/-- One step; no parser stands for a crash. -/
def tableStep (o : Option PGSParser) : TableStep → Option PGSParser
  | .feed data => o.map fun p =>
    if p.mDataPos + data.length ≥ bufferSize then { p with mDataPos := 0 } else p.append data
  | .round => o.bind (round yuv2rgb)
  | .seek => o.map seek

def Bounded (o : Option PGSParser) : Prop := ∀ p ∈ o, p.mSubtitles.length ≤ maxSubtitles

/-- When the element is a presentation segment that ends a picture which is not in the table,
there is room for it. -/
def FindsRoom (o : Option PGSParser) : TableStep → Prop
  | .round => ∀ p ∈ o, p.atElement.2 = true → p.atElement.1.mData 10 = 0x16 →
      p.atElement.1.AddsPicture p.atElement.1.timeStart → p.mSubtitles.length < maxSubtitles
  | _ => True

theorem findHeader_toDecoder : ∀ (fuel : Nat) (p : PGSParser),
    (findHeader fuel p).1.toDecoder = p.toDecoder := by
  intro fuel
  induction fuel with
  | zero => intro p; rfl
  | succ fuel ih =>
    intro p
    rw [findHeader]
    split
    · split
      · rfl
      · exact ih _
    · rfl

theorem atElement_toDecoder (p : PGSParser) : p.atElement.1.toDecoder = p.toDecoder := by
  rw [atElement]
  split
  · rfl
  · exact findHeader_toDecoder _ p

theorem bounded_step_iff {o : Option PGSParser} (h : Bounded o) (e : TableStep) :
    Bounded (tableStep yuv2rgb o e) ↔ FindsRoom o e := by
  cases o with
  | none => cases e <;> exact iff_of_true (fun _ hp => by cases hp) (by simp [FindsRoom])
  | some p =>
    have hp : p.mSubtitles.length ≤ maxSubtitles := h p rfl
    cases e with
    | feed data =>
      refine iff_of_true ?_ trivial
      rintro _ ⟨⟩
      dsimp only
      split <;> exact hp
    | seek =>
      refine iff_of_true ?_ trivial
      rintro _ ⟨⟩
      exact hp
    | round =>
      have hsame := p.atElement_toDecoder
      obtain ⟨⟨q, whole⟩, hq⟩ : ∃ r, p.atElement = r := ⟨_, rfl⟩
      simp only [Bounded, tableStep, FindsRoom, Option.bind_some, Option.mem_def,
        Option.some.injEq, forall_eq', round, hq] at hsame ⊢
      rw [← hsame] at hp ⊢
      cases whole with
      | false => simpa using hp
      | true =>
        by_cases htype : q.mData 10 = 0x16
        · simpa [Decoder.parseElementOn, htype, removeHead] using
            Decoder.length_presentOn_le_iff hp
        · refine iff_of_true ?_ (fun _ h => absurd h htype)
          intro p' hp'
          simp only [if_true, Decoder.parseElementOn, if_neg htype, Option.map_eq_some_iff] at hp'
          obtain ⟨⟨d, hr⟩, hd, rfl⟩ := hp'
          change d.mSubtitles.length ≤ maxSubtitles
          rw [Decoder.mSubtitles_parseRawElement yuv2rgb htype hd]
          exact hp

/-! ### The steps of a call -/

theorem parse_succ (fuel : Nat) (p : PGSParser) : parse yuv2rgb (fuel + 1) p =
    if p.atElement.2 then
      (p.atElement.1.toDecoder.parseRawElement yuv2rgb
        (fun i => p.atElement.1.mData (headerSize + i)) (p.atElement.1.mData 10)
        (readWORD p.atElement.1.mData 11) p.atElement.1.timeStart).bind fun r =>
          parse yuv2rgb fuel ({ p.atElement.1 with toDecoder := r.1 }.removeHead
            (headerSize + readWORD p.atElement.1.mData 11))
    else some p.atElement.1 := by
  rw [parse, atElement]
  by_cases h2 : p.mDataPos < 2
  · rw [if_pos h2, if_pos h2]
    rfl
  rw [if_neg h2, if_neg h2]
  obtain ⟨⟨q, found⟩, hq⟩ : ∃ r, findHeader (p.mDataPos + 1) p = r := ⟨_, rfl⟩
  rw [hq]
  cases found with
  | false => rfl
  | true =>
    by_cases hheader : q.mDataPos < headerSize
    · simp [hheader, Nat.not_le.mpr hheader]
    · by_cases hdata : q.mDataPos < headerSize + readWORD q.mData 11
      · simp [hheader, hdata, Nat.not_le.mpr hdata]
      · simp [hheader, hdata, Nat.not_lt.mp hheader, Nat.not_lt.mp hdata, timeStart]

theorem atElement_of_waits {p q : PGSParser} (h : p.atElement = (q, false)) :
    q.atElement = (q, false) := by
  rw [atElement] at h
  by_cases h2 : p.mDataPos < 2
  · rw [if_pos h2, Prod.mk.injEq] at h
    rw [atElement, ← h.1, if_pos h2]
  rw [if_neg h2] at h
  obtain ⟨-, -, -, hfound⟩ :=
    findHeader_refines (fun _ _ _ _ => 0) (p.mDataPos + 1) p (Nat.lt_succ_self _)
  obtain ⟨⟨r, found⟩, hr⟩ : ∃ r, findHeader (p.mDataPos + 1) p = r := ⟨_, rfl⟩
  rw [hr] at h hfound
  obtain ⟨rfl, hwaits⟩ := Prod.mk.injEq .. ▸ h
  rw [atElement]
  by_cases hr2 : r.mDataPos < 2
  · rw [if_pos hr2]
  · cases found with
    | false => exact absurd hfound hr2
    | true =>
      have hmagic : ¬(r.mData 0 ≠ 80 ∨ r.mData 1 ≠ 0x47) := by
        rw [if_pos rfl] at hfound
        rw [hfound.1, hfound.2]
        decide
      rw [if_neg hr2, findHeader, if_neg hmagic]
      exact congrArg (Prod.mk r) hwaits

theorem mDataPos_findHeader (fuel : Nat) (p : PGSParser) :
    (findHeader fuel p).1.mDataPos ≤ p.mDataPos := by
  induction fuel generalizing p with
  | zero => exact Nat.le_refl _
  | succ fuel ih =>
    rw [findHeader]
    split
    · split
      · exact Nat.le_refl _
      · exact (ih (p.removeHead 1)).trans (Nat.sub_le _ _)
    · exact Nat.le_refl _

theorem run_tableStep_none : ∀ l : List TableStep, run (tableStep yuv2rgb) none l = none := by
  intro l
  induction l with
  | nil => rfl
  | cons e l ih =>
    rw [run_cons]
    cases e <;> exact ih

/-- **As many rounds as there are bytes are what `parse` does**, as long as there is room. -/
theorem run_rounds : ∀ (n : Nat) {fuel : Nat} {p : PGSParser}, p.mDataPos < fuel →
    p.mDataPos ≤ n → Along (tableStep yuv2rgb) FindsRoom (some p) (List.replicate n .round) →
    run (tableStep yuv2rgb) (some p) (List.replicate n .round) = parse yuv2rgb fuel p := by
  intro n
  induction n with
  | zero =>
    intro fuel p hfuel hn _
    obtain ⟨fuel, rfl⟩ : ∃ f, fuel = f + 1 := ⟨fuel - 1, by omega⟩
    rw [parse, if_pos (by omega)]
    rfl
  | succ n ih =>
    intro fuel p hfuel hn hroom
    obtain ⟨fuel, rfl⟩ : ∃ f, fuel = f + 1 := ⟨fuel - 1, by omega⟩
    obtain ⟨hfinds, hroom⟩ := hroom
    obtain ⟨⟨q, whole⟩, hq⟩ : ∃ r, p.atElement = r := ⟨_, rfl⟩
    have hstep : tableStep yuv2rgb (some p) .round = round yuv2rgb p := rfl
    have hpos : q.mDataPos ≤ p.mDataPos := by
      rw [atElement] at hq
      split at hq
      · cases hq
        exact Nat.le_refl _
      · cases hq
        exact mDataPos_findHeader (p.mDataPos + 1) p
    rw [List.replicate_succ, run_cons, hstep, parse_succ, hq]
    rw [hstep] at hroom
    cases whole with
    | false =>
      have hwaits := atElement_of_waits hq
      have hround : round yuv2rgb p = some q := by
        rw [round, hq]
        rfl
      have hstays : ∀ m, run (tableStep yuv2rgb) (some q) (List.replicate m .round) = some q := by
        intro m
        induction m with
        | zero => rfl
        | succ m ihm =>
          have hq' : tableStep yuv2rgb (some q) .round = some q := by
            change round yuv2rgb q = some q
            rw [round, hwaits]
            rfl
          rw [List.replicate_succ, run_cons, hq', ihm]
      rw [hround, hstays]
      rfl
    | true =>
      have h2 : ¬p.mDataPos < 2 := by
        intro h2
        rw [atElement, if_pos h2, Prod.mk.injEq] at hq
        exact absurd hq.2 (by decide)
      have hsame : q.toDecoder = p.toDecoder := by
        rw [← p.atElement_toDecoder, hq]
      have helement : ∀ data, q.toDecoder.parseElementOn yuv2rgb data (q.mData 10)
          (readWORD q.mData 11) q.timeStart = q.toDecoder.parseRawElement yuv2rgb data (q.mData 10)
          (readWORD q.mData 11) q.timeStart := fun data => by
        refine Decoder.parseElementOn_eq yuv2rgb (fun htype hadds => ?_) data _
        have hlt := hfinds p rfl (by rw [hq]) (by rw [hq]; exact htype) (by rw [hq]; exact hadds)
        rwa [hsame]
      rw [round, hq] at hroom ⊢
      simp only [if_true, helement] at hroom ⊢
      cases hnext : q.toDecoder.parseRawElement yuv2rgb (fun i => q.mData (headerSize + i))
          (q.mData 10) (readWORD q.mData 11) q.timeStart with
      | none => exact run_tableStep_none yuv2rgb _
      | some r =>
        rw [hnext] at hroom
        have hshorter : ({ q with toDecoder := r.1 }.removeHead
            (headerSize + readWORD q.mData 11)).mDataPos < p.mDataPos := by
          change q.mDataPos - (headerSize + readWORD q.mData 11) < p.mDataPos
          rw [headerSize]
          omega
        exact ih (Nat.lt_of_lt_of_le hshorter (Nat.le_of_lt_succ hfuel))
          (Nat.le_of_lt_succ (Nat.lt_of_lt_of_le hshorter hn)) hroom

/-- **The steps of `add_data` are what `add_data` does**, as long as there is room. -/
theorem run_addData {p : PGSParser} {data : List UInt8}
    (hroom : Along (tableStep yuv2rgb) FindsRoom (some p) (Call.addData data).steps) :
    run (tableStep yuv2rgb) (some p) (Call.addData data).steps = addData yuv2rgb p data := by
  obtain ⟨-, hroom⟩ := hroom
  rw [Call.steps, run_cons, addData]
  change Along (tableStep yuv2rgb) FindsRoom (some (if p.mDataPos + data.length ≥ bufferSize then
    { p with mDataPos := 0 } else p.append data)) _ at hroom
  change run (tableStep yuv2rgb) (some (if p.mDataPos + data.length ≥ bufferSize then
    { p with mDataPos := 0 } else p.append data)) _ = _
  by_cases hfull : p.mDataPos + data.length ≥ bufferSize
  · have hempty : ({ p with mDataPos := 0 } : PGSParser).mDataPos < 1 := Nat.zero_lt_one
    rw [if_pos hfull] at hroom ⊢
    rw [if_pos hfull, run_rounds yuv2rgb bufferSize hempty (Nat.zero_le _) hroom]
    rfl
  · rw [if_neg hfull] at hroom ⊢
    rw [if_neg hfull]
    exact run_rounds yuv2rgb bufferSize (Nat.lt_succ_self _)
      (Nat.le_of_lt (Nat.not_le.mp hfull)) hroom

end PGSParser

end DWindow.PGS

/-! ## Index files and packets -/

namespace DWindow.VobSub

open CInt WString Scanf Runs

namespace VobSubParser

/-- `add_subtitle`; `data` are the `size` bytes. -/
def addSubtitle (p : VobSubParser) (start stop : Int) (data : List UInt8) : VobSubParser :=
  let word := fun i : Nat => (data.getD i 0).toNat * 256 + (data.getD (i + 1) 0).toNat
  if p.mSubtitles.any fun i => (toInt32 (i.start - start)).natAbs < 5 then p
  else if data.length ≤ 4 ∨ word 0 ≠ data.length then p
  else { p with mSubtitles := p.mSubtitles ++ [⟨start, stop, 0, 0, 0, 0, word 2, word 0, data⟩] }

/-- `add_subtitle` gets a whole packet and has none of about that time. -/
def AddsPacket (p : VobSubParser) (start : Int) (data : List UInt8) : Prop :=
  p.mSubtitles.any (fun i => (toInt32 (i.start - start)).natAbs < 5) = false ∧ 4 < data.length ∧
    (data.getD 0 0).toNat * 256 + (data.getD 1 0).toNat = data.length

/-- What `read_packet_from_subfile` answers for a timestamp. -/
def packetOf (w : World) (p : VobSubParser) (part : List UInt16) : Option (Bool × Subtitle) :=
  let str := wcslower (wcstrim 32 part)
  (findSub (wide "filepos:".toList) str).bind fun i =>
    let sFilepos := wcstrim 32 (str.drop (i + 8))
    if part.length < 12 then none
    else
      w.readPacket p.mLangId (toDWORD ((scanf [.hex] sFilepos).getD 0 (w.stack 0)))
        ⟨timeToDecimal w ((str.take (i + 8) ++ sFilepos).take 12), 0, 0, 0, 0, 0, 0, 0, []⟩

/-- The key of a line is that of a timestamp, and no other case comes before. -/
def isTimestamp (key : List UInt16) : Prop :=
  ¬(has "size" key ∨ has "scale" key ∨ has "time offset" key ∨ has "delay" key ∨
    has "palette" key ∨ has "custom colors" key ∨ has "id" key) ∧ has "timestamp" key

/-- `handle_line` comes to the case of a timestamp, and its packet is read. -/
def AddsEntry (w : World) (p : VobSubParser) (line : List UInt16) : Prop :=
  p.mScanForLangId = false ∧ p.mFirstLine = false ∧ line.head? ≠ some 35 ∧
    ∃ r ∈ explode line, isTimestamp (wcslower (wcstrim 32 r.1)) ∧ p.mSubFile = true ∧
      ∃ q ∈ p.packetOf w r.2, q.1 = true

def withTable (p : VobSubParser) (t : List Subtitle) : VobSubParser := { p with mSubtitles := t }

/-- A part of the parser that does not look at the table and appends one entry at most, with
memory behind the table. -/
def onward {β : Type} (f : VobSubParser → Option (β × VobSubParser)) (p : VobSubParser) :
    Option (β × VobSubParser) :=
  (f (p.withTable [])).map fun r => (r.1, r.2.withTable (p.mSubtitles ++ r.2.mSubtitles))

/-! ### What a line does to the table -/

@[simp] theorem withTable_withTable (p : VobSubParser) (t u : List Subtitle) :
    (p.withTable t).withTable u = p.withTable u := rfl

/-- What `f` makes of the parser does not look at the table, and leaves it as it is. -/
def Keeps (f : VobSubParser → Option VobSubParser) (p : VobSubParser) : Prop :=
  ∃ o : Option VobSubParser, ∀ t, f (p.withTable t) = o.map (·.withTable t)

/-- What `f` makes of the parser does not look at the table, and appends an entry. -/
def Appends (f : VobSubParser → Option VobSubParser) (p : VobSubParser) : Prop :=
  ∃ (q : VobSubParser) (e : Subtitle), ∀ t, f (p.withTable t) =
    if t.length < 40960 then some (q.withTable (t ++ [e])) else none

/-- `f` appends an entry when `adds` holds, and leaves the table as it is otherwise. -/
structure AppendsIf (f : VobSubParser → Option VobSubParser) (adds : Prop) (p : VobSubParser) :
    Prop where
  appends : adds → Appends f p
  keeps : ¬adds → Keeps f p

theorem AppendsIf.of_keeps {f : VobSubParser → Option VobSubParser} {adds : Prop}
    {p : VobSubParser} (hadds : ¬adds) (h : Keeps f p) : AppendsIf f adds p :=
  ⟨fun h' => absurd h' hadds, fun _ => h⟩

theorem AppendsIf.congr {f g : VobSubParser → Option VobSubParser} {adds adds' : Prop}
    {p : VobSubParser} (h : AppendsIf g adds' p) (hf : ∀ t, f (p.withTable t) = g (p.withTable t))
    (hadds : adds ↔ adds') : AppendsIf f adds p := by
  refine ⟨fun ha => ?_, fun ha => ?_⟩
  · obtain ⟨q, e, hq⟩ := h.appends (hadds.mp ha)
    exact ⟨q, e, fun t => (hf t).trans (hq t)⟩
  · obtain ⟨o, ho⟩ := h.keeps (mt hadds.mpr ha)
    exact ⟨o, fun t => (hf t).trans (ho t)⟩

theorem keeps_handleCustomColors (w : World) (str : List UInt16) (p : VobSubParser) :
    Keeps (fun p => p.handleCustomColors w str) p := by
  refine ⟨p.handleCustomColors w str, fun t => ?_⟩
  change (p.withTable t).handleCustomColors w str = _
  rw [handleCustomColors, handleCustomColors]
  cases behind "tridx:" str with
  | none => rfl
  | some sTridx =>
    cases behind "colors:" str with
    | none => rfl
    | some sColor =>
      simp only [Option.bind_some, Option.map_some]
      by_cases hon : wide "on".toList <+: str ∨ wide "1".toList <+: str
      · rw [if_pos hon, if_pos hon]
        rfl
      · by_cases hoff : wide "off".toList <+: str ∨ wide "0".toList <+: str
        · rw [if_neg hon, if_neg hon, if_pos hoff, if_pos hoff]
          rfl
        · rw [if_neg hon, if_neg hon, if_neg hoff, if_neg hoff]
          rfl

theorem appendsIf_handleTimestamp (w : World) (part : List UInt16) (p : VobSubParser) :
    AppendsIf (fun p => p.handleTimestamp w part.length (wcslower (wcstrim 32 part)))
      (p.mSubFile = true ∧ ∃ r ∈ p.packetOf w part, r.1 = true) p := by
  suffices h : ((p.mSubFile = true ∧ ∃ r ∈ p.packetOf w part, r.1 = true) →
      Appends (fun p => p.handleTimestamp w part.length (wcslower (wcstrim 32 part))) p) ∧
      (¬(p.mSubFile = true ∧ ∃ r ∈ p.packetOf w part, r.1 = true) →
      Keeps (fun p => p.handleTimestamp w part.length (wcslower (wcstrim 32 part))) p) from
    ⟨h.1, h.2⟩
  simp only [packetOf, Keeps, Appends, handleTimestamp]
  cases hfind : findSub (wide "filepos:".toList) (wcslower (wcstrim 32 part)) with
  | none => exact ⟨fun h => by simp at h, fun _ => ⟨none, fun _ => rfl⟩⟩
  | some i =>
    simp only [Option.bind_some]
    generalize decide ((scanf [.hex] (wcstrim 32 ((wcslower (wcstrim 32 part)).drop
      (i + 8)))).length ≠ 1) = b
    by_cases hroom : part.length < 12
    · simp only [if_pos hroom]
      exact ⟨fun h => by simp at h, fun _ => ⟨none, fun _ => rfl⟩⟩
    · simp only [if_neg hroom]
      by_cases hsub : p.mSubFile = true
      · have hsub' : ∀ t : List Subtitle, ((p.withTable t).bad b).mSubFile = true := fun _ => hsub
        have hlang : ∀ t : List Subtitle, ((p.withTable t).bad b).mLangId = p.mLangId :=
          fun _ => rfl
        simp only [hsub', hlang, hsub, if_true]
        generalize w.readPacket p.mLangId _ _ = packet
        cases packet with
        | none => exact ⟨fun h => by simp at h, fun _ => ⟨none, fun _ => rfl⟩⟩
        | some r =>
          obtain ⟨read, sub⟩ := r
          cases read with
          | false =>
            exact ⟨fun h => by simp at h,
              fun _ => ⟨some { p.bad b with mSubFile := true, mCurrentSubtitle := sub },
                fun _ => rfl⟩⟩
          | true =>
            exact ⟨fun _ => ⟨{ p.bad b with mSubFile := true, mCurrentSubtitle := sub }, sub,
              fun _ => rfl⟩, fun h => absurd ⟨trivial, _, rfl, rfl⟩ h⟩
      · have hsub' : ∀ t : List Subtitle, ((p.withTable t).bad b).mSubFile = false :=
          fun _ => Bool.eq_false_iff.mpr hsub
        simp only [hsub', Bool.eq_false_iff.mpr hsub]
        exact ⟨fun h => absurd h.1 (by decide),
          fun _ => ⟨some { p.bad b with mSubFile := false, mCurrentSubtitle := _ }, fun _ => rfl⟩⟩

theorem keeps_scanLine (line : List UInt16) (p : VobSubParser) :
    Keeps (fun p => some (p.scanLine line)) p := by
  refine ⟨some (p.scanLine line), fun t => congrArg some ?_⟩
  rw [scanLine, scanLine]
  split
  · rename_i id _ _
    have hsame : (p.withTable t).mMaxLangId = p.mMaxLangId := rfl
    dsimp only
    rw [hsame]
    split <;> rfl
  · rfl

theorem appendsIf_handleEntry (w : World) (entry part : List UInt16) (p : VobSubParser) :
    AppendsIf (fun p => p.handleEntry w entry part)
      (isTimestamp (wcslower (wcstrim 32 entry)) ∧ p.mSubFile = true ∧
        ∃ r ∈ p.packetOf w part, r.1 = true) p := by
  obtain ⟨key, hkey⟩ : ∃ key, wcslower (wcstrim 32 entry) = key := ⟨_, rfl⟩
  simp only [handleEntry, hkey]
  by_cases hsize : has "size" key = true
  · simp only [if_pos hsize]
    exact .of_keeps (fun h => h.1.1 (by simp [hsize])) ⟨some (p.handleSize _), fun _ => rfl⟩
  by_cases hscale : has "scale" key = true
  · simp only [if_neg hsize, if_pos hscale]
    exact .of_keeps (fun h => h.1.1 (by simp [hscale])) ⟨some (p.handleScale _), fun _ => rfl⟩
  by_cases htime : has "time offset" key = true ∨ has "delay" key = true
  · simp only [if_neg hsize, if_neg hscale, if_pos htime]
    exact .of_keeps (fun h => h.1.1 (.inr (.inr (htime.imp_right .inl))))
      ⟨some p, fun _ => rfl⟩
  by_cases hpalette : has "palette" key = true
  · simp only [if_neg hsize, if_neg hscale, if_neg htime, if_pos hpalette]
    exact .of_keeps (fun h => h.1.1 (by simp [hpalette])) ⟨some (p.handlePalette _), fun _ => rfl⟩
  by_cases hcolors : has "custom colors" key = true
  · simp only [if_neg hsize, if_neg hscale, if_neg htime, if_neg hpalette, if_pos hcolors]
    exact .of_keeps (fun h => h.1.1 (by simp [hcolors])) (keeps_handleCustomColors w _ p)
  by_cases hid : has "id" key = true
  · simp only [if_neg hsize, if_neg hscale, if_neg htime, if_neg hpalette, if_neg hcolors,
      if_pos hid]
    exact .of_keeps (fun h => h.1.1 (by simp [hid])) ⟨some p, fun _ => rfl⟩
  simp only [if_neg hsize, if_neg hscale, if_neg htime, if_neg hpalette, if_neg hcolors,
    if_neg hid]
  by_cases htimestamp : has "timestamp" key = true
  · simp only [if_pos htimestamp]
    have his : isTimestamp key := by
      rw [not_or] at htime
      simp only [isTimestamp, not_or]
      exact ⟨⟨hsize, hscale, htime.1, htime.2, hpalette, hcolors, hid⟩, htimestamp⟩
    exact (appendsIf_handleTimestamp w part p).congr (fun _ => rfl)
      ⟨fun h => h.2, fun h => ⟨his, h⟩⟩
  · simp only [if_neg htimestamp]
    exact .of_keeps (fun h => htimestamp h.1.2) ⟨some p, fun _ => rfl⟩

/-- **A line** adds an entry when it is a timestamp whose packet is read. -/
theorem appendsIf_handleLine (w : World) (line : List UInt16) (p : VobSubParser) :
    AppendsIf (fun p => p.handleLine w line) (p.AddsEntry w line) p := by
  by_cases hscan : p.mScanForLangId = true
  · obtain ⟨o, ho⟩ := keeps_scanLine line p
    refine .of_keeps (fun h => ?_) ⟨o, fun t => (if_pos hscan).trans (ho t)⟩
    rw [h.1] at hscan
    cases hscan
  by_cases hfirst : p.mFirstLine = true
  · refine .of_keeps (fun h => ?_)
      ⟨some (bad { p with mFirstLine := false } (!has "VobSub index file" line)),
        fun t => (if_neg hscan).trans (if_pos hfirst)⟩
    rw [h.2.1] at hfirst
    cases hfirst
  have hstart : ∀ t, (p.withTable t).handleLine w line =
      if line.head? = some 35 ∨ line = [] then some (p.withTable t)
      else (explode line).bind fun r => (p.withTable t).handleEntry w r.1 r.2 :=
    fun t => (if_neg hscan).trans (if_neg hfirst)
  by_cases hskip : line.head? = some 35 ∨ line = []
  · refine .of_keeps (fun h => ?_) ⟨some p, fun t => (hstart t).trans (if_pos hskip)⟩
    obtain ⟨-, -, hcomment, r, hr, -⟩ := h
    obtain hhead | rfl := hskip
    · exact hcomment hhead
    · cases hr
  have hbehind : ∀ t, (p.withTable t).handleLine w line =
      (explode line).bind fun r => (p.withTable t).handleEntry w r.1 r.2 :=
    fun t => (hstart t).trans (if_neg hskip)
  cases hexplode : explode line with
  | none =>
    refine .of_keeps (fun h => ?_) ⟨none, fun t => (hbehind t).trans (by rw [hexplode]; rfl)⟩
    obtain ⟨-, -, -, r, hr, -⟩ := h
    rw [hexplode] at hr
    cases hr
  | some r =>
    refine (appendsIf_handleEntry w r.1 r.2 p).congr
      (fun t => (hbehind t).trans (by rw [hexplode]; rfl)) ⟨fun h => ?_, fun h => ?_⟩
    · obtain ⟨-, -, -, q, hq, h⟩ := h
      rw [hexplode] at hq
      cases hq
      exact h
    · exact ⟨Bool.eq_false_iff.mpr hscan, Bool.eq_false_iff.mpr hfirst,
        fun hhead => hskip (.inl hhead), r, hexplode, h⟩

/-! ### Steps -/

/-- Where `load_file` is: the line so far, and the parser. -/
structure Reading where
  bytes : List UInt8
  chars : List UInt16
  parser : VobSubParser

/-- What the calls of the parser do, in steps.  A character comes as `handle_data_16` sees it,
turned round if the file is big-endian. -/
inductive TableStep
  | start (langId : Int)
  | byte (w : World) (codePage : CodePage) (b : UInt8)
  | char (w : World) (c : UInt16)
  | readPast
  | addSubtitle (start stop : Int) (data : List UInt8)

inductive Call
  | loadFile (w : World) (langId : Int) (data : List UInt8)
  | addSubtitle (start stop : Int) (data : List UInt8)

/-- The characters of `handle_data_16`, and a read past the end if there are too few. -/
def charSteps (w : World) (data : List UInt8) (big : Bool) : List TableStep :=
  let n := if big then data.length else data.length / 2
  let line := (units data).take n
  (if big then line.map swap else line).map (.char w) ++
    if (units data).length < n then [.readPast] else []

def Call.steps : Call → List TableStep
  | .loadFile w langId data =>
    .start langId ::
      match mark data with
      | none => [.readPast]
      | some .utf16be => charSteps w (data.drop 2) true
      | some .utf16le => charSteps w (data.drop 2) false
      | some .utf8 => (data.drop 3).map (.byte w .utf8)
      | some .unknown => data.map (.byte w .acp)
  | .addSubtitle start stop data => [.addSubtitle start stop data]

/-- One step; no parser stands for a crash. -/
def tableStep (o : Option Reading) : TableStep → Option Reading
  | .start langId => o.map fun r => ⟨[], [], r.parser.start langId⟩
  | .byte w codePage b => o.bind fun r =>
    (onward (fun p => feed8 w codePage (r.bytes, p) b) r.parser).map fun s => ⟨s.1, r.chars, s.2⟩
  | .char w c => o.bind fun r =>
    (onward (fun p => feed16 w (r.chars, p) c) r.parser).map fun s => ⟨r.bytes, s.1, s.2⟩
  | .readPast => none
  | .addSubtitle start stop data => o.map fun r =>
    { r with parser := r.parser.addSubtitle start stop data }

def Bounded (o : Option Reading) : Prop := ∀ r ∈ o, r.parser.mSubtitles.length ≤ 40960

/-- When a line ends that adds an entry, or a packet comes that the table has not got, there is
room for it. -/
def FindsRoom (o : Option Reading) : TableStep → Prop
  | .byte w codePage b => ∀ r ∈ o, b = 10 ∨ b = 13 → r.bytes.length < 1024 →
      r.parser.AddsEntry w
        (wcstrim 32 (cstr (w.multiByteToWideChar codePage (r.bytes.takeWhile (· ≠ 0))))) →
      r.parser.mSubtitles.length < 40960
  | .char w c => ∀ r ∈ o, c = 13 → r.chars.length < 1024 →
      r.parser.AddsEntry w (wcstrim 32 (cstr r.chars)) → r.parser.mSubtitles.length < 40960
  | .addSubtitle start _ data => ∀ r ∈ o, r.parser.AddsPacket start data →
      r.parser.mSubtitles.length < 40960
  | _ => True

section Onward

variable {β : Type} {g : VobSubParser → Option VobSubParser} {adds : Prop} {p : VobSubParser}

theorem appendsIf_some (p : VobSubParser) : AppendsIf some False p :=
  .of_keeps id ⟨some p, fun _ => rfl⟩

/-- With memory behind the table, the count is inside it when there was room. -/
theorem AppendsIf.bounded_onward_iff (h : AppendsIf g adds p) (hp : p.mSubtitles.length ≤ 40960)
    (c : β) : (∀ s ∈ onward (fun p => (g p).map fun q => (c, q)) p,
      s.2.mSubtitles.length ≤ 40960) ↔ (adds → p.mSubtitles.length < 40960) := by
  by_cases hadds : adds
  · obtain ⟨q, e, hq⟩ := h.appends hadds
    have honward : onward (fun p => (g p).map fun q => (c, q)) p =
        some (c, q.withTable (p.mSubtitles ++ [e])) := by
      rw [onward, hq, if_pos (by decide)]
      rfl
    simp [honward, hadds, withTable]
  · obtain ⟨o, ho⟩ := h.keeps hadds
    refine iff_of_true (fun s hs => ?_) fun h => absurd h hadds
    rw [onward, ho] at hs
    cases o with
    | none => cases hs
    | some q =>
      cases hs
      simpa [withTable] using hp

/-- As long as there is room, memory behind the table makes no difference. -/
theorem AppendsIf.onward_eq (h : AppendsIf g adds p) (hroom : adds → p.mSubtitles.length < 40960)
    (c : β) : onward (fun p => (g p).map fun q => (c, q)) p = (g p).map fun q => (c, q) := by
  have hself : p.withTable p.mSubtitles = p := rfl
  by_cases hadds : adds
  · obtain ⟨q, e, hq⟩ := h.appends hadds
    have hp := hq p.mSubtitles
    rw [hself, if_pos (hroom hadds)] at hp
    rw [onward, hq, if_pos (by decide), hp]
    rfl
  · obtain ⟨o, ho⟩ := h.keeps hadds
    have hp := ho p.mSubtitles
    rw [hself] at hp
    rw [onward, ho, hp]
    cases o with
    | none => rfl
    | some q => simp [withTable]

end Onward

theorem feed8_cases (w : World) (codePage : CodePage) (bytes : List UInt8) (b : UInt8) :
    ∃ (g : VobSubParser → Option VobSubParser) (c : List UInt8),
      (∀ p, feed8 w codePage (bytes, p) b = (g p).map fun q => (c, q)) ∧
      ∀ p, AppendsIf g ((b = 10 ∨ b = 13) ∧ bytes.length < 1024 ∧ p.AddsEntry w
        (wcstrim 32 (cstr (w.multiByteToWideChar codePage (bytes.takeWhile (· ≠ 0)))))) p := by
  by_cases hplain : b ≠ 10 ∧ b ≠ 13 ∧ bytes.length < 1024
  · exact ⟨some, bytes ++ [b], fun p => if_pos hplain, fun p => (appendsIf_some p).congr
      (fun _ => rfl) (iff_of_false (fun h => h.1.elim hplain.1 hplain.2.1) id)⟩
  by_cases hend : b = 10 ∨ b = 13
  · by_cases hshort : bytes.length < 1024
    · exact ⟨fun p => p.handleLine w _, [], fun p => (if_neg hplain).trans
        ((if_pos hend).trans (if_pos hshort)), fun p => (appendsIf_handleLine w _ p).congr
          (fun _ => rfl) ⟨fun h => h.2.2, fun h => ⟨hend, hshort, h⟩⟩⟩
    · exact ⟨fun _ => none, [], fun p => (if_neg hplain).trans
        ((if_pos hend).trans (if_neg hshort)), fun p => .of_keeps (fun h => hshort h.2.1)
          ⟨none, fun _ => rfl⟩⟩
  · exact ⟨some, [], fun p => (if_neg hplain).trans (if_neg hend), fun p =>
      (appendsIf_some p).congr (fun _ => rfl) (iff_of_false (fun h => hend h.1) id)⟩

theorem feed16_cases (w : World) (chars : List UInt16) (c : UInt16) :
    ∃ (g : VobSubParser → Option VobSubParser) (l : List UInt16),
      (∀ p, feed16 w (chars, p) c = (g p).map fun q => (l, q)) ∧
      ∀ p, AppendsIf g (c = 13 ∧ chars.length < 1024 ∧
        p.AddsEntry w (wcstrim 32 (cstr chars))) p := by
  by_cases hplain : c ≠ 10 ∧ c ≠ 13 ∧ chars.length < 1024
  · exact ⟨some, chars ++ [c], fun p => if_pos hplain, fun p => (appendsIf_some p).congr
      (fun _ => rfl) (iff_of_false (fun h => hplain.2.1 h.1) id)⟩
  by_cases hend : c = 13
  · by_cases hshort : chars.length < 1024
    · obtain ⟨line, hline⟩ : ∃ line, wcstrim 32 (cstr chars) = line := ⟨_, rfl⟩
      refine ⟨fun p => p.handleLine w line,
        (line ++ 0 :: chars.drop (line.length + 1)).take chars.length, fun p => ?_, fun p => ?_⟩
      · rw [feed16, if_neg hplain, if_pos hend, if_pos hshort, hline]
      · rw [hline]
        exact (appendsIf_handleLine w line p).congr (fun _ => rfl)
          ⟨fun h => h.2.2, fun h => ⟨hend, hshort, h⟩⟩
    · exact ⟨fun _ => none, [], fun p => (if_neg hplain).trans
        ((if_pos hend).trans (if_neg hshort)), fun p => .of_keeps (fun h => hshort h.2.1)
          ⟨none, fun _ => rfl⟩⟩
  · exact ⟨some, [], fun p => (if_neg hplain).trans (if_neg hend), fun p =>
      (appendsIf_some p).congr (fun _ => rfl) (iff_of_false (fun h => hend h.1) id)⟩

theorem mSubtitles_addSubtitle {p : VobSubParser} {start : Int} {data : List UInt8}
    (h : p.AddsPacket start data) (stop : Int) : ∃ e, e.start = start ∧
      (p.addSubtitle start stop data).mSubtitles = p.mSubtitles ++ [e] := by
  obtain ⟨hnear, hlength, hsize⟩ := h
  simp only [addSubtitle, hnear, Nat.zero_add]
  rw [if_neg (by decide), if_neg (by omega)]
  exact ⟨_, rfl, rfl⟩

theorem addSubtitle_of_not {p : VobSubParser} {start : Int} {data : List UInt8}
    (h : ¬p.AddsPacket start data) (stop : Int) : p.addSubtitle start stop data = p := by
  simp only [addSubtitle, Nat.zero_add]
  by_cases hnear : (p.mSubtitles.any fun i => (toInt32 (i.start - start)).natAbs < 5) = true
  · rw [if_pos hnear]
  · rw [if_neg hnear, if_pos]
    have hsize := fun hlength hsize => h ⟨Bool.eq_false_iff.mpr hnear, hlength, hsize⟩
    by_contra hboth
    exact hsize (by omega) (by omega)

theorem length_addSubtitle_le_iff {p : VobSubParser} {start stop : Int} {data : List UInt8}
    (hp : p.mSubtitles.length ≤ 40960) :
    (p.addSubtitle start stop data).mSubtitles.length ≤ 40960 ↔
      (p.AddsPacket start data → p.mSubtitles.length < 40960) := by
  by_cases hadds : p.AddsPacket start data
  · obtain ⟨e, -, he⟩ := mSubtitles_addSubtitle hadds stop
    simp [he, hadds]
  · simp [addSubtitle_of_not hadds, hadds, hp]

theorem bounded_map {β : Type} {o : Option (β × VobSubParser)} {f : β × VobSubParser → Reading}
    (hf : ∀ s, (f s).parser = s.2) :
    Bounded (o.map f) ↔ ∀ s ∈ o, s.2.mSubtitles.length ≤ 40960 := by
  cases o <;> simp [Bounded, hf]

theorem bounded_step_iff {o : Option Reading} (h : Bounded o) (e : TableStep) :
    Bounded (tableStep o e) ↔ FindsRoom o e := by
  cases o with
  | none => cases e <;> exact iff_of_true (fun _ hr => by cases hr) (by simp [FindsRoom])
  | some r =>
    have hr : r.parser.mSubtitles.length ≤ 40960 := h r rfl
    cases e with
    | start langId =>
      refine iff_of_true ?_ trivial
      rintro _ ⟨⟩
      change (r.parser.start langId).mSubtitles.length ≤ 40960
      rw [VobSubParser.start]
      split <;> exact Nat.zero_le _
    | byte w codePage b =>
      obtain ⟨g, c, hg, hadds⟩ := feed8_cases w codePage r.bytes b
      refine (bounded_map (f := fun s => ⟨s.1, r.chars, s.2⟩) fun _ => rfl).trans ?_
      simp only [hg]
      refine ((hadds r.parser).bounded_onward_iff hr c).trans ?_
      simp [FindsRoom]
    | char w c =>
      obtain ⟨g, l, hg, hadds⟩ := feed16_cases w r.chars c
      refine (bounded_map (f := fun s => ⟨r.bytes, s.1, s.2⟩) fun _ => rfl).trans ?_
      simp only [hg]
      refine ((hadds r.parser).bounded_onward_iff hr l).trans ?_
      simp [FindsRoom]
    | readPast => exact iff_of_true (fun _ hr => by cases hr) trivial
    | addSubtitle start stop data =>
      simpa [Bounded, tableStep, FindsRoom] using length_addSubtitle_le_iff hr

/-! ### The steps of a call -/

theorem run_tableStep_none : ∀ l : List TableStep, run tableStep none l = none := by
  intro l
  induction l with
  | nil => rfl
  | cons e l ih =>
    rw [run_cons]
    cases e <;> exact ih

theorem run_bytes (w : World) (codePage : CodePage) : ∀ (data : List UInt8) (r : Reading),
    Along tableStep FindsRoom (some r) (data.map (.byte w codePage)) →
    run tableStep (some r) (data.map (.byte w codePage)) =
      (data.foldlM (feed8 w codePage) (r.bytes, r.parser)).map fun s => ⟨s.1, r.chars, s.2⟩ := by
  intro data
  induction data with
  | nil => intro r _; rfl
  | cons b data ih =>
    intro r hroom
    obtain ⟨hfinds, hroom⟩ := hroom
    obtain ⟨g, c, hg, hadds⟩ := feed8_cases w codePage r.bytes b
    have hstep : tableStep (some r) (.byte w codePage b) =
        (feed8 w codePage (r.bytes, r.parser) b).map fun s => ⟨s.1, r.chars, s.2⟩ := by
      rw [tableStep, Option.bind_some]
      simp only [hg]
      rw [(hadds r.parser).onward_eq (fun h => hfinds r rfl h.1 h.2.1 h.2.2)]
    rw [List.map_cons, run_cons, hstep, List.foldlM_cons, Option.bind_eq_bind]
    rw [hstep] at hroom
    cases hfeed : feed8 w codePage (r.bytes, r.parser) b with
    | none => exact run_tableStep_none _
    | some s =>
      rw [hfeed] at hroom
      exact ih ⟨s.1, r.chars, s.2⟩ hroom

theorem run_chars (w : World) : ∀ (l : List UInt16) (r : Reading),
    Along tableStep FindsRoom (some r) (l.map (.char w)) →
    run tableStep (some r) (l.map (.char w)) =
      (l.foldlM (feed16 w) (r.chars, r.parser)).map fun s => ⟨r.bytes, s.1, s.2⟩ := by
  intro l
  induction l with
  | nil => intro r _; rfl
  | cons c l ih =>
    intro r hroom
    obtain ⟨hfinds, hroom⟩ := hroom
    obtain ⟨g, line, hg, hadds⟩ := feed16_cases w r.chars c
    have hstep : tableStep (some r) (.char w c) =
        (feed16 w (r.chars, r.parser) c).map fun s => ⟨r.bytes, s.1, s.2⟩ := by
      rw [tableStep, Option.bind_some]
      simp only [hg]
      rw [(hadds r.parser).onward_eq (fun h => hfinds r rfl h.1 h.2.1 h.2.2)]
    rw [List.map_cons, run_cons, hstep, List.foldlM_cons, Option.bind_eq_bind]
    rw [hstep] at hroom
    cases hfeed : feed16 w (r.chars, r.parser) c with
    | none => exact run_tableStep_none _
    | some s =>
      rw [hfeed] at hroom
      exact ih ⟨r.bytes, s.1, s.2⟩ hroom

theorem run_charSteps (w : World) (data : List UInt8) (big : Bool) (p : VobSubParser)
    (hroom : Along tableStep FindsRoom (some ⟨[], [], p⟩) (charSteps w data big)) :
    (run tableStep (some ⟨[], [], p⟩) (charSteps w data big)).map Reading.parser =
      (p.handleData16 w data big).map Prod.fst := by
  rw [charSteps, along_append] at hroom
  rw [charSteps, run_append, run_chars w _ _ hroom.1, handleData16]
  by_cases hshort : (units data).length < if big then data.length else data.length / 2
  · simp [hshort, tableStep]
  · rw [if_neg hshort, if_neg hshort, run_nil, Option.map_map, Option.map_map]
    rfl

theorem run_bytes_start (w : World) (codePage : CodePage) (data : List UInt8) (p : VobSubParser)
    (hroom : Along tableStep FindsRoom (some ⟨[], [], p⟩) (data.map (.byte w codePage))) :
    (run tableStep (some ⟨[], [], p⟩) (data.map (.byte w codePage))).map Reading.parser =
      p.handleData8 w codePage data := by
  rw [run_bytes w codePage data _ hroom, handleData8, Option.map_map]
  rfl

/-- **The steps of `load_file` are what `load_file` does**, as long as there is room. -/
theorem run_loadFile {w : World} {r : Reading} {langId : Int} {data : List UInt8}
    (hroom : Along tableStep FindsRoom (some r) (Call.loadFile w langId data).steps) :
    (run tableStep (some r) (Call.loadFile w langId data).steps).map Reading.parser =
      (loadFile w r.parser langId data).map Loaded.parser := by
  obtain ⟨-, hroom⟩ := hroom
  rw [Call.steps, run_cons, loadFile]
  change Along tableStep FindsRoom (some ⟨[], [], r.parser.start langId⟩) _ at hroom
  change (run tableStep (some ⟨[], [], r.parser.start langId⟩) _).map Reading.parser = _
  cases hmark : mark data with
  | none => rfl
  | some m =>
    rw [hmark] at hroom
    cases m with
    | utf16be =>
      refine (run_charSteps w _ true _ hroom).trans ?_
      simp only [Option.bind_some, Option.map_map]
      rfl
    | utf16le =>
      refine (run_charSteps w _ false _ hroom).trans ?_
      simp only [Option.bind_some, Option.map_map]
      rfl
    | utf8 =>
      refine (run_bytes_start w .utf8 _ _ hroom).trans ?_
      simp [Function.comp_def]
    | unknown =>
      refine (run_bytes_start w .acp _ _ hroom).trans ?_
      simp [Function.comp_def]

end VobSubParser

end DWindow.VobSub

/-! ## Runs -/

namespace DWindow.BitmapTables

open Runs VobSub VobSub.VobSubParser

def opened (p : VobSubParser) : Option Reading := some ⟨[], [], p.reset⟩

/-- **The tables are not overrun**, exactly: the counts of the two parsers stay inside the
tables, whatever is called, if and only if every entry that is appended finds room. -/
theorem tables_bounded_iff (yuv2rgb : UInt8 → UInt8 → UInt8 → UInt8 → UInt32)
    (pgs : PGS.PGSParser) (pgsCalls : List PGS.PGSParser.Call) (p : VobSubParser)
    (calls : List Call) :
    ((∀ k, PGS.PGSParser.Bounded (run (PGS.PGSParser.tableStep yuv2rgb) (some pgs.reset)
        ((pgsCalls.flatMap PGS.PGSParser.Call.steps).take k))) ↔
      Along (PGS.PGSParser.tableStep yuv2rgb) PGS.PGSParser.FindsRoom (some pgs.reset)
        (pgsCalls.flatMap PGS.PGSParser.Call.steps)) ∧
    ((∀ k, Bounded (run tableStep (opened p) ((calls.flatMap Call.steps).take k))) ↔
      Along tableStep FindsRoom (opened p) (calls.flatMap Call.steps)) := by
  constructor
  · refine forall_take_iff_along PGS.PGSParser.Bounded
      (fun _ e h => PGS.PGSParser.bounded_step_iff yuv2rgb h e) _ _ ?_
    rintro _ ⟨⟩
    exact Nat.zero_le _
  · refine forall_take_iff_along Bounded (fun _ e h => bounded_step_iff h e) _ _ ?_
    rintro _ ⟨⟩
    exact Nat.zero_le _

/-! ### A table that is full -/

/-- The packets of a film, every ten milliseconds one. -/
def packets (n : Nat) : List Call :=
  (List.range n).map fun i : Nat => .addSubtitle (10 * (i : Int)) 0 [0, 5, 0, 0, 0]

theorem packets_succ (n : Nat) :
    packets (n + 1) = packets n ++ [.addSubtitle (10 * n) 0 [0, 5, 0, 0, 0]] := by
  rw [packets, packets, List.range_succ, List.map_append]
  rfl

theorem run_packets (p : VobSubParser) : ∀ n ≤ 40961,
    ∃ r, run tableStep (opened p) ((packets n).flatMap Call.steps) = some r ∧
      r.parser.mSubtitles.length = n ∧
      ∀ i ∈ r.parser.mSubtitles, 0 ≤ i.start ∧ i.start + 10 ≤ 10 * n := by
  intro n
  induction n with
  | zero => exact fun _ => ⟨_, rfl, rfl, fun _ hi => by cases hi⟩
  | succ n ih =>
    intro hn
    obtain ⟨r, hr, hlength, hstart⟩ := ih (by omega)
    have hadds : r.parser.AddsPacket (10 * n) [0, 5, 0, 0, 0] := by
      refine ⟨List.any_eq_false.mpr fun i hi => ?_, by decide, by decide⟩
      obtain ⟨hlow, hhigh⟩ := hstart i hi
      rw [decide_eq_true_eq, CInt.toInt32_of_lt (by omega) (by omega)]
      omega
    obtain ⟨e, he, hentries⟩ := mSubtitles_addSubtitle hadds 0
    rw [packets_succ, List.flatMap_append, run_append, hr]
    refine ⟨_, rfl, ?_⟩
    change (r.parser.addSubtitle (10 * n) 0 [0, 5, 0, 0, 0]).mSubtitles.length = n + 1 ∧
      ∀ i ∈ (r.parser.addSubtitle (10 * n) 0 [0, 5, 0, 0, 0]).mSubtitles, _
    rw [hentries, List.length_append, hlength]
    refine ⟨rfl, fun i hi => ?_⟩
    push_cast
    obtain hi | rfl : i ∈ r.parser.mSubtitles ∨ i = e := by simpa using hi
    · have := hstart i hi
      omega
    · omega

/-- One packet too many: the table is overrun. -/
theorem forty_thousand_packets_overrun :
    ¬∀ k, Bounded (run tableStep (opened idle) (((packets 40961).flatMap Call.steps).take k)) := by
  intro h
  obtain ⟨r, hr, hlength, -⟩ := run_packets idle 40961 (Nat.le_refl _)
  have hall := h ((packets 40961).flatMap Call.steps).length
  rw [List.take_length, hr] at hall
  have := hall r rfl
  omega

end DWindow.BitmapTables
