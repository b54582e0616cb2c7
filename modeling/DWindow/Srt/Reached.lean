import DWindow.Lib.Fallible
import DWindow.Srt.Pool
import DWindow.Srt.Printed

/-!
# The states that are reached

A parser that was initialised loads files and offset metadata.  `Kept` is what holds of it
at all times: its times are those of lines with times, no two of its subtitles are at nearly
the same times, no tag is left in a text, and the texts stand in the text memory as in a
blank or a filled state, where the first text of a filled state is not empty.
-/

namespace DWindow.Srt

open CInt WString

/-- A subtitle as it is read: the fields of its entry, and its text. -/
structure Entry where
  timeStart : Int
  timeEnd : Int
  hasOffset : Bool
  offset : Int
  text : List UInt16
deriving DecidableEq, Repr

/-- The entry for `e`, with its text. -/
def SrtParser.entry (s : SrtParser) (e : SubtitleIndex) : Entry :=
  ⟨e.timeStart, e.timeEnd, e.hasOffset, e.offset, cstrAt s.mTextData e.pos⟩

def SrtParser.entries (s : SrtParser) : List Entry := s.mIndex.map s.entry

def TimesFit (start stop : Int) : Prop :=
  (0 ≤ start ∧ start < 2 ^ 31) ∧ 0 < stop ∧ stop < 2 ^ 31

/-- An offset that a tag has, or none. -/
def OffsetFits (hasOffset : Bool) (offset : Int) : Prop :=
  (-2 ^ 31 ≤ offset ∧ offset < 2 ^ 31) ∧ (hasOffset = false → offset = 0)

/-- The texts stand in the text memory as in a blank or a filled state.  The first text of a
filled state is not empty, and if every entry has a text of its own, they follow each
other. -/
def SrtParser.Laid (s : SrtParser) : Prop :=
  s.Blank ∨ s.Filled ∧ (∃ text texts, s.texts = text :: texts ∧ text ≠ []) ∧
    ((s.mIndex.map SubtitleIndex.pos).Nodup →
      (s.texts.map fun text => text.length + 1).sum = s.endPos)

/-- **What holds at all times** of a parser with room for `num` entries and `size`
characters. -/
structure Kept (num size : Nat) (s : SrtParser) : Prop where
  num_eq : s.num = num
  size_eq : s.mTextData.length = size
  room : s.mIndex.length ≤ num
  times : ∀ e ∈ s.mIndex, TimesFit e.timeStart e.timeEnd
  offsets : ∀ e ∈ s.mIndex, OffsetFits e.hasOffset e.offset
  apart : s.mIndex.Pairwise fun e e' => isDuplicate e e'.timeStart e'.timeEnd = false
  stripped : ∀ text ∈ s.texts, Stripped text
  laid : s.Laid
  pending : s.tmp ≠ [] ∨ 2 ≤ s.mLastType → TimesFit s.tmpStart s.tmpEnd

/-! ## Adding a subtitle -/

theorem wtoi_fits (str : List UInt16) : -2 ^ 31 ≤ wtoi str ∧ wtoi str < 2 ^ 31 := by
  unfold wtoi
  split
  · exact ⟨by decide, by decide⟩
  · omega

theorem findOffset_fits (line : List UInt16) :
    OffsetFits (findOffset line).isSome ((findOffset line).getD 0) := by
  cases hfind : findOffset line with
  | none => exact ⟨⟨by decide, by decide⟩, fun _ => rfl⟩
  | some n =>
    obtain ⟨p, -, rfl⟩ := Option.map_eq_some_iff.mp hfind
    refine ⟨wtoi_fits _, ?_⟩
    rintro ⟨⟩

namespace SrtParser

theorem mIndex_length_lt {s s' : SrtParser} {line : List UInt16} {start stop : Int}
    (h : s.directAddSubtitle line start stop = some (s', 0)) : s.mIndex.length < s.num := by
  rw [directAddSubtitle] at h
  dsimp only at h
  split at h
  · cases h
  · split at h
    · next hlt => exact hlt
    · cases h

theorem texts_of_blank {s : SrtParser} (hs : s.Blank) : ∀ text ∈ s.texts, text = [] := by
  intro text htext
  obtain ⟨e, he, rfl⟩ := List.mem_map.mp htext
  rw [hs.pos e he]
  exact cstr_of_head? hs.head

/-- **The texts of a state with one more.** -/
theorem Laid.added {s : SrtParser} {text textData : List UInt16} (hlaid : s.Laid)
    (h0 : (0 : UInt16) ∉ text) (hcopy : wcscpyAt s.mTextData s.nextPos text = some textData)
    (entry : SubtitleIndex) (hpos : entry.pos = s.nextPos) :
    (∀ t ∈ (s.added entry textData).texts, t ∈ s.texts ∨ t = text) ∧
      (s.added entry textData).Laid := by
  rcases hlaid with hblank | ⟨hfilled, ⟨t, ts, htexts, ht⟩, hsum⟩
  · obtain ⟨htexts, hempty, hfull⟩ := hblank.added h0 hcopy entry hpos
    refine ⟨fun t ht => Or.inr ?_, ?_⟩
    · rw [htexts] at ht
      exact List.eq_of_mem_replicate ht
    · rcases eq_or_ne text [] with htext | htext
      · exact Or.inl (hempty htext)
      · obtain ⟨hfilled, hend⟩ := hfull htext
        refine Or.inr ⟨hfilled, ⟨text, _, htexts, htext⟩, fun hnodup => ?_⟩
        cases hindex : s.mIndex with
        | nil =>
          rw [htexts, hend, hindex]
          rfl
        | cons e es =>
          -- two entries at place zero
          have hzero : entry.pos = e.pos := by
            rw [hpos, hblank.nextPos, hblank.pos e (hindex ▸ List.mem_cons_self ..)]
          have hmap : ((s.added entry textData).mIndex.map SubtitleIndex.pos) =
              e.pos :: (es.map SubtitleIndex.pos ++ [entry.pos]) := by
            rw [SrtParser.added, hindex, List.map_append]
            rfl
          rw [hmap, List.nodup_cons, List.mem_append, hzero] at hnodup
          exact absurd (Or.inr (List.mem_singleton_self _)) hnodup.1
  · obtain ⟨hfull, hnew, hend⟩ := hfilled.added h0 hcopy entry hpos
    refine ⟨fun t ht => ?_, Or.inr ⟨hfull, ⟨t, ts ++ [text], ?_, ht⟩, fun hnodup => ?_⟩⟩
    · rw [hnew] at ht
      rcases List.mem_append.mp ht with ht | ht
      · exact Or.inl ht
      · exact Or.inr (List.mem_singleton.mp ht)
    · rw [hnew, htexts, List.cons_append]
    · have hold : (s.mIndex.map SubtitleIndex.pos).Nodup := by
        rw [SrtParser.added, List.map_append] at hnodup
        exact hnodup.of_append_left
      rw [hnew, List.map_append, List.sum_append, hsum hold, hend]
      rfl

end SrtParser

variable {num size : Nat}

theorem Kept.directAddSubtitle {s s' : SrtParser} (hs : Kept num size s) {line : List UInt16}
    {start stop rtn : Int} (htimes : TimesFit start stop)
    (h : s.directAddSubtitle line start stop = some (s', rtn)) : Kept num size s' := by
  rcases SrtParser.directAddSubtitle_cases h with ⟨-, rfl, -⟩ | ⟨hdup, rfl, textData, hcopy, rfl⟩
  · exact hs
  · have hlt := SrtParser.mIndex_length_lt h
    obtain ⟨htexts, hlaid⟩ := hs.laid.added (s.not_mem_storedText line) hcopy
      ⟨start, stop, s.nextPos, (findOffset (s.warned line)).getD 0,
        (findOffset (s.warned line)).isSome⟩ rfl
    refine ⟨hs.num_eq, ?_, ?_, ?_, ?_, ?_, ?_, hlaid, hs.pending⟩
    · exact (length_wcscpyAt hcopy).trans hs.size_eq
    · rw [SrtParser.added, List.length_append, List.length_singleton, ← hs.num_eq]
      exact hlt
    · intro e he
      rcases List.mem_append.mp he with he | he
      · exact hs.times e he
      · rw [List.mem_singleton.mp he]
        exact htimes
    · intro e he
      rcases List.mem_append.mp he with he | he
      · exact hs.offsets e he
      · rw [List.mem_singleton.mp he]
        exact findOffset_fits _
    · refine List.pairwise_append.mpr ⟨hs.apart, List.pairwise_singleton _ _, ?_⟩
      intro e he e' he'
      rw [List.mem_singleton.mp he']
      exact Bool.eq_false_iff.mpr (List.any_eq_false.mp hdup e he)
    · intro text htext
      rcases htexts text htext with htext | rfl
      · exact hs.stripped text htext
      · exact stripped_storedText s line

/-! ## Loading a file -/

theorem SrtParser.Laid.of_eq {s s' : SrtParser} (hs : s.Laid) (hindex : s'.mIndex = s.mIndex)
    (hdata : s'.mTextData = s.mTextData) (hpos : s'.mTextPos = s.mTextPos) : s'.Laid := by
  obtain ⟨num', mIndex', mTextData', mLastType', mTextPos', mAss', fonts', tmp', start',
    stop'⟩ := s'
  dsimp only at hindex hdata hpos
  subst hindex hdata hpos
  rcases hs with hblank | ⟨hfilled, hrest⟩
  · exact Or.inl ⟨hblank.head, hblank.textPos, hblank.pos⟩
  · exact Or.inr ⟨⟨hfilled.head, hfilled.fits, hfilled.before⟩, hrest⟩

/-- What is collected does not matter for the subtitles that are there. -/
theorem Kept.of_eq {s s' : SrtParser} (hs : Kept num size s) (hnum : s'.num = s.num)
    (hindex : s'.mIndex = s.mIndex) (hdata : s'.mTextData = s.mTextData)
    (hpos : s'.mTextPos = s.mTextPos)
    (hpending : s'.tmp ≠ [] ∨ 2 ≤ s'.mLastType → TimesFit s'.tmpStart s'.tmpEnd) :
    Kept num size s' := by
  have hlaid : s'.Laid := hs.laid.of_eq hindex hdata hpos
  obtain ⟨num', mIndex', mTextData', mLastType', mTextPos', mAss', fonts', tmp', start',
    stop'⟩ := s'
  dsimp only at hnum hindex hdata hpos
  subst hnum hindex hdata hpos
  exact ⟨hs.num_eq, hs.size_eq, hs.room, hs.times, hs.offsets, hs.apart, hs.stripped, hlaid,
    hpending⟩

theorem Kept.flush {s s' : SrtParser} (hs : Kept num size s) (h : s.flush = some s') :
    Kept num size s' := by
  rw [SrtParser.flush] at h
  split at h
  · cases h
    exact hs
  · next htmp =>
    obtain ⟨⟨t, rtn⟩, hadd, rfl⟩ := Option.map_eq_some_iff.mp h
    have hfit := hs.pending (Or.inl htmp)
    have ht := hs.directAddSubtitle hfit hadd
    refine ht.of_eq rfl rfl rfl rfl fun _ => ?_
    rcases SrtParser.directAddSubtitle_cases hadd with ⟨-, rfl, -⟩ | ⟨-, -, textData, -, rfl⟩
    · exact hfit
    · exact hfit

theorem Kept.handleText {s s' : SrtParser} (hs : Kept num size s) {line : List UInt16}
    (h : s.handleText line = some s') : Kept num size s' := by
  rw [SrtParser.handleText] at h
  split at h
  · next htype =>
    obtain ⟨-, h⟩ := Option.ite_none_right_eq_some.mp h
    cases h
    exact hs.of_eq rfl rfl rfl rfl fun _ => hs.pending (Or.inr htype)
  · cases h
    exact hs

theorem timeWith_lt (sep : UInt16) (str : List UInt16) : timeWith sep str < 2 ^ 31 := by
  unfold timeWith
  split
  · decide
  · exact Int.bmod_lt (by decide)

theorem timeToDecimal_lt (str : List UInt16) : timeToDecimal str < 2 ^ 31 := by
  unfold timeToDecimal
  split
  · exact timeWith_lt 44 str
  · split
    · exact timeWith_lt 46 str
    · decide

theorem Kept.handleTimes {s s' : SrtParser} (hs : Kept num size s) {left right : List UInt16}
    (h : s.handleTimes left right = some s') : Kept num size s' := by
  rw [SrtParser.handleTimes] at h
  split at h
  · next htimes =>
    obtain ⟨t, hflush, rfl⟩ := Option.map_eq_some_iff.mp h
    exact (hs.flush hflush).of_eq rfl rfl rfl rfl fun _ =>
      ⟨⟨htimes.1, timeToDecimal_lt left⟩, htimes.2.1, timeToDecimal_lt right⟩
  · exact hs.handleText h

theorem Kept.handleLine {s s' : SrtParser} (hs : Kept num size s) {line : List UInt16}
    (h : s.handleLine line = some s') : Kept num size s' := by
  rw [SrtParser.handleLine] at h
  split at h
  · cases h
    refine hs.of_eq rfl rfl rfl rfl ?_
    rintro (htmp | htype)
    · exact hs.pending (Or.inl htmp)
    · exact absurd htype (show ¬2 ≤ 1 by decide)
  · split at h
    · exact hs.handleTimes h
    · exact hs.handleText h

theorem Kept.endLine {s s' : SrtParser} (hs : Kept num size s) {line : List UInt16}
    (h : s.endLine line = some s') : Kept num size s' := by
  rw [SrtParser.endLine] at h
  split at h
  · exact hs.handleLine h
  · cases h
    refine hs.of_eq rfl rfl rfl rfl ?_
    rintro (htmp | htype)
    · exact hs.pending (Or.inl htmp)
    · exact absurd htype (show ¬2 ≤ 0 by decide)

theorem Kept.handleData {α : Type} [DecidableEq α] {newline : α} {toWide : List α → List UInt16}
    {s s' : SrtParser} (hs : Kept num size s) {data : List α}
    (h : s.handleData newline toWide data = some s') : Kept num size s' := by
  obtain ⟨acc, hfold, rfl⟩ := Option.map_eq_some_iff.mp h
  refine Fallible.foldlM_invariant (fun acc : SrtParser × List α => Kept num size acc.1) ?_ data
    (s, []) acc hs hfold
  intro acc c acc' hacc hfeed
  rw [SrtParser.feed] at hfeed
  split at hfeed
  · cases hfeed
    split
    · exact hacc
    · exact hacc
  · split at hfeed
    · obtain ⟨t, hline, rfl⟩ := Option.map_eq_some_iff.mp hfeed
      exact hacc.endLine hline
    · cases hfeed

theorem Kept.load {s s' : SrtParser} (hs : Kept num size s)
    {toWide : CodePage → List UInt8 → List UInt16} {behind data : List UInt8}
    (h : s.load toWide behind data = some s') : Kept num size s' := by
  have hs' : Kept num size { s with mAss := false } := hs.of_eq rfl rfl rfl rfl hs.pending
  have hend : ∀ {α : Type} [DecidableEq α] (newline : α) (toWide : List α → List UInt16)
      (units : List α), ((SrtParser.handleData newline toWide { s with mAss := false } units).bind
        fun t => t.flush) = some s' → Kept num size s' := by
    intro α _ newline toWide units hunits
    obtain ⟨t, hdata, hflush⟩ := Option.bind_eq_some_iff.mp hunits
    exact (hs'.handleData hdata).flush hflush
  rw [SrtParser.load] at h
  split at h
  · exact hend _ _ _ h
  · split at h
    · exact hend _ _ _ h
    · split at h
      · exact hend _ _ _ h
      · exact hend _ _ _ h

/-! ## Loading offset metadata -/

theorem mostCommon_fits (offsets : List Int) :
    -128 ≤ mostCommon offsets ∧ mostCommon offsets ≤ 127 := by
  unfold mostCommon
  refine List.foldlRecOn (motive := fun found : Nat × Int => -128 ≤ found.2 ∧ found.2 ≤ 127) _ _
    ⟨by decide, by decide⟩ ?_
  intro found hfound j hj
  rw [List.mem_range] at hj
  split
  · dsimp only
    omega
  · exact hfound

theorem setOffset_keeps {fps : Int} {frameCount : Nat} {data : List UInt8} {e e' : SubtitleIndex}
    (h : setOffset fps frameCount data e = some e') :
    e'.timeStart = e.timeStart ∧ e'.timeEnd = e.timeEnd ∧ e'.pos = e.pos ∧
      (OffsetFits e.hasOffset e.offset → OffsetFits e'.hasOffset e'.offset) := by
  rw [setOffset] at h
  split at h
  · split at h
    · cases h
    · cases h
      refine ⟨rfl, rfl, rfl, fun _ => ?_⟩
      have hfits := mostCommon_fits ((List.range (((toInt32 (e.timeEnd * fps)).tdiv 1001 -
        (toInt32 (e.timeStart * fps)).tdiv 1001 + 1).toNat)).map fun k =>
          offsetAt data (((toInt32 (e.timeStart * fps)).tdiv 1001).toNat + k))
      refine ⟨?_, ?_⟩
      · dsimp only
        omega
      · rintro ⟨⟩
  · cases h
    exact ⟨rfl, rfl, rfl, id⟩

theorem Kept.loadOffsetMetadata {s s' : SrtParser} (hs : Kept num size s)
    {stack heap file : List UInt8} {rtn : Int}
    (h : s.loadOffsetMetadata stack heap file = some (s', rtn)) : Kept num size s' := by
  rw [SrtParser.loadOffsetMetadata] at h
  split at h
  · cases h
    exact hs
  · next fps frameCount data _ =>
    obtain ⟨index, hindex, hs'⟩ := Option.map_eq_some_iff.mp h
    cases hs'
    have hlength : s.mIndex.length = index.length :=
      (Fallible.forall₂_of_mapM _ hindex).length_eq
    have htexts : ({ s with mIndex := index } : SrtParser).texts = s.texts :=
      Fallible.map_eq_of_mapM (fun e e' he => by rw [(setOffset_keeps he).2.2.1]) hindex
    have htimes : index.map (fun e => (e.timeStart, e.timeEnd)) =
        s.mIndex.map fun e => (e.timeStart, e.timeEnd) :=
      Fallible.map_eq_of_mapM (fun e e' he => by
        rw [(setOffset_keeps he).1, (setOffset_keeps he).2.1]) hindex
    refine ⟨hs.num_eq, hs.size_eq, ?_, ?_, ?_, ?_, ?_, ?_, hs.pending⟩
    · rw [← hlength]
      exact hs.room
    · refine Fallible.forall_of_mapM (fun e e' he hfit => ?_) hindex hs.times
      rwa [(setOffset_keeps he).1, (setOffset_keeps he).2.1]
    · exact Fallible.forall_of_mapM (fun e e' he => (setOffset_keeps he).2.2.2) hindex hs.offsets
    · have hpairs : (s.mIndex.map fun e => (e.timeStart, e.timeEnd)).Pairwise fun p p' =>
          (nearly p.1 p'.1 && nearly p.2 p'.2) = false := List.pairwise_map.mpr hs.apart
      rw [← htimes] at hpairs
      exact List.pairwise_map.mp hpairs
    · rw [htexts]
      exact hs.stripped
    · have hplaces : index.map SubtitleIndex.pos = s.mIndex.map SubtitleIndex.pos :=
        Fallible.map_eq_of_mapM (fun e e' he => (setOffset_keeps he).2.2.1) hindex
      rw [SrtParser.Laid, htexts, hplaces]
      refine hs.laid.imp (fun hblank => ?_) (fun hfilled => ?_)
      · refine ⟨hblank.head, hblank.textPos, ?_⟩
        exact Fallible.forall_of_mapM (fun e e' he hpos => (setOffset_keeps he).2.2.1.trans hpos)
          hindex hblank.pos
      · refine ⟨⟨hfilled.1.head, hfilled.1.fits, ?_⟩, hfilled.2⟩
        refine Fallible.forall_of_mapM (fun e e' he hpos => ?_) hindex hfilled.1.before
        rw [(setOffset_keeps he).2.2.1]
        exact hpos

/-! ## Every state -/

/-- The states of a parser with room for `num` entries and `size` characters: it is
initialised, and loads files and offset metadata. -/
inductive Reached (num size : Nat) : SrtParser → Prop
  | init {heap fontsLoading : List UInt16} : heap ≠ [] → heap.length = size →
    Reached num size (.init num heap fontsLoading)
  | load {s s' : SrtParser} (toWide : CodePage → List UInt8 → List UInt16)
    (behind data : List UInt8) : Reached num size s → s.load toWide behind data = some s' →
      Reached num size s'
  | loadOffsetMetadata {s s' : SrtParser} (stack heap file : List UInt8) (rtn : Int) :
    Reached num size s → s.loadOffsetMetadata stack heap file = some (s', rtn) →
      Reached num size s'

theorem laid_init (num : Nat) {heap : List UInt16} (hheap : heap ≠ [])
    (fontsLoading : List UInt16) : (SrtParser.init num heap fontsLoading).Laid :=
  Or.inl (SrtParser.blank_init num hheap fontsLoading)

theorem kept_init {heap : List UInt16} (hheap : heap ≠ []) (hsize : heap.length = size)
    (fontsLoading : List UInt16) : Kept num size (.init num heap fontsLoading) where
  num_eq := rfl
  size_eq := (List.length_set ..).trans hsize
  room := Nat.zero_le _
  times := fun _ he => absurd he List.not_mem_nil
  offsets := fun _ he => absurd he List.not_mem_nil
  apart := List.Pairwise.nil
  stripped := fun _ ht => absurd ht List.not_mem_nil
  laid := laid_init num hheap fontsLoading
  pending := by
    rintro (h | h)
    · exact absurd rfl h
    · exact absurd h (show ¬2 ≤ 0 by decide)

theorem Reached.kept {s : SrtParser} (h : Reached num size s) : Kept num size s := by
  induction h with
  | init hheap hsize => exact kept_init hheap hsize _
  | load toWide behind data _ hload ih => exact ih.load hload
  | loadOffsetMetadata stack heap file rtn _ hload ih => exact ih.loadOffsetMetadata hload

end DWindow.Srt
