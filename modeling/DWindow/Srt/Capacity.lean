import DWindow.Srt.Ass
import DWindow.Srt.Reached

/-!
# How much the subtitle list holds

`init` makes room for `num` entries and `text_size` characters, and nothing else knows these
two numbers: `direct_add_subtitle` writes behind the end of either array.  Here the memory
goes on behind the two arrays, with room for `room` entries and as many characters as `heap`
has, so a state can hold more than they do.

`made_run` says that a run leaves the list that its calls of `direct_add_subtitle` leave, and
`inCapacity_iff` that the arrays are kept exactly when every call fits.
-/

namespace DWindow.Srt

open WString

/-! ## Calls and the list they leave -/

namespace SrtParser

/-- A call of `direct_add_subtitle`. -/
def call (s : SrtParser) (c : AssCall) : Option (SrtParser × Int) :=
  ({ s with mAss := c.ass } : SrtParser).directAddSubtitle c.line c.start c.stop

def callAll (s : SrtParser) (calls : List AssCall) : Option SrtParser :=
  calls.foldlM (fun s c => (s.call c).map Prod.fst) s

/-- The list of subtitles is the same; what is being read may differ. -/
structure SameTables (s t : SrtParser) : Prop where
  num : s.num = t.num
  mIndex : s.mIndex = t.mIndex
  mTextData : s.mTextData = t.mTextData
  mTextPos : s.mTextPos = t.mTextPos
  fontsLoading : s.fontsLoading = t.fontsLoading

theorem SameTables.refl (s : SrtParser) : s.SameTables s := ⟨rfl, rfl, rfl, rfl, rfl⟩

theorem SameTables.symm {s t : SrtParser} (h : s.SameTables t) : t.SameTables s :=
  ⟨h.num.symm, h.mIndex.symm, h.mTextData.symm, h.mTextPos.symm, h.fontsLoading.symm⟩

theorem SameTables.trans {s t u : SrtParser} (h : s.SameTables t) (h' : t.SameTables u) :
    s.SameTables u :=
  ⟨h.num.trans h'.num, h.mIndex.trans h'.mIndex, h.mTextData.trans h'.mTextData,
    h.mTextPos.trans h'.mTextPos, h.fontsLoading.trans h'.fontsLoading⟩

/-- **A call goes by the list alone.** -/
theorem SameTables.call {s t s' : SrtParser} (h : s.SameTables t) {c : AssCall} {rtn : Int}
    (hcall : s.call c = some (s', rtn)) : ∃ t', t.call c = some (t', rtn) ∧ s'.SameTables t' := by
  obtain ⟨num, mIndex, mTextData, mLastType, mTextPos, mAss, fonts, tmp, start, stop⟩ := s
  obtain ⟨num', mIndex', mTextData', mLastType', mTextPos', mAss', fonts', tmp', start', stop'⟩ := t
  obtain ⟨hnum, hindex, hdata, hpos, hfonts⟩ := h
  dsimp only at hnum hindex hdata hpos hfonts
  subst hnum hindex hdata hpos hfonts
  rw [SrtParser.call, directAddSubtitle] at hcall ⊢
  split at hcall
  · next hdup =>
    cases hcall
    rw [if_pos hdup]
    exact ⟨_, rfl, ⟨rfl, rfl, rfl, rfl, rfl⟩⟩
  · next hdup =>
    split at hcall
    · next hroom =>
      obtain ⟨textData, hcopy, hcall⟩ := Option.bind_eq_some_iff.mp hcall
      cases hcall
      rw [if_neg hdup, if_pos hroom]
      exact ⟨_, Option.bind_eq_some_iff.mpr ⟨textData, hcopy, rfl⟩, ⟨rfl, rfl, rfl, rfl, rfl⟩⟩
    · cases hcall

theorem SameTables.callAll : ∀ (calls : List AssCall) {s t s' : SrtParser}, s.SameTables t →
    s.callAll calls = some s' → ∃ t', t.callAll calls = some t' ∧ s'.SameTables t' := by
  intro calls
  induction calls with
  | nil =>
    intro s t s' h hcalls
    cases hcalls
    exact ⟨t, rfl, h⟩
  | cons c calls ih =>
    intro s t s' h hcalls
    rw [SrtParser.callAll, List.foldlM_cons, Option.bind_eq_bind, Option.bind_eq_some_iff] at hcalls
    obtain ⟨s₁, hcall, hcalls⟩ := hcalls
    obtain ⟨⟨u, rtn⟩, hcall', rfl⟩ := Option.map_eq_some_iff.mp hcall
    obtain ⟨t₁, htcall, h₁⟩ := SameTables.call h hcall'
    obtain ⟨t', htcalls, h'⟩ := ih h₁ hcalls
    refine ⟨t', ?_, h'⟩
    rw [SrtParser.callAll, List.foldlM_cons, htcall]
    exact htcalls

/-- **The calls that were made** between two states. -/
def Made (s : SrtParser) (calls : List AssCall) (s' : SrtParser) : Prop :=
  ∃ t, s.callAll calls = some t ∧ t.SameTables s'

theorem made_nil {s s' : SrtParser} (h : s.SameTables s') : s.Made [] s' := ⟨s, rfl, h⟩

theorem Made.append {s s' s'' : SrtParser} {calls calls' : List AssCall} (h : s.Made calls s')
    (h' : s'.Made calls' s'') : s.Made (calls ++ calls') s'' := by
  obtain ⟨t, ht, hsame⟩ := h
  obtain ⟨t', ht', hsame'⟩ := h'
  obtain ⟨u, hu, hsame''⟩ := hsame.symm.callAll calls' ht'
  refine ⟨u, ?_, hsame''.symm.trans hsame'⟩
  rw [callAll, List.foldlM_append, ← callAll, ht]
  exact hu

theorem Made.of_same {s s' s'' : SrtParser} {calls : List AssCall} (h : s.Made calls s')
    (hsame : s'.SameTables s'') : s.Made calls s'' := by
  obtain ⟨t, ht, hsame'⟩ := h
  exact ⟨t, ht, hsame'.trans hsame⟩

theorem made_call {s s' : SrtParser} {line : List UInt16} {start stop rtn : Int}
    (h : s.directAddSubtitle line start stop = some (s', rtn)) :
    s.Made [⟨s.mAss, line, start, stop⟩] s' := by
  refine ⟨s', ?_, SameTables.refl s'⟩
  have hcall : s.call ⟨s.mAss, line, start, stop⟩ = some (s', rtn) := h
  rw [callAll, List.foldlM_cons, hcall]
  rfl

end SrtParser

/-! ## The calls of a run -/

open SrtParser (Made SameTables made_nil made_call)

theorem made_flush {s s' : SrtParser} (h : s.flush = some s') : s.Made s.flushCalls s' := by
  rw [SrtParser.flush] at h
  rw [SrtParser.flushCalls]
  split at h
  · next htmp =>
    cases h
    rw [if_pos htmp]
    exact made_nil (SameTables.refl s)
  · next htmp =>
    obtain ⟨⟨t, rtn⟩, hadd, rfl⟩ := Option.map_eq_some_iff.mp h
    rw [if_neg htmp]
    exact (made_call hadd).of_same ⟨rfl, rfl, rfl, rfl, rfl⟩

theorem sameTables_handleText {s s' : SrtParser} {line : List UInt16}
    (h : s.handleText line = some s') : s.SameTables s' := by
  rw [SrtParser.handleText] at h
  split at h
  · obtain ⟨-, h⟩ := Option.ite_none_right_eq_some.mp h
    cases h
    exact ⟨rfl, rfl, rfl, rfl, rfl⟩
  · cases h
    exact SameTables.refl s

theorem made_handleTimes {s s' : SrtParser} {left right : List UInt16}
    (h : s.handleTimes left right = some s') : s.Made (s.timesCalls left right) s' := by
  rw [SrtParser.handleTimes] at h
  rw [SrtParser.timesCalls]
  split at h
  · next htimes =>
    obtain ⟨t, hflush, rfl⟩ := Option.map_eq_some_iff.mp h
    rw [if_pos htimes]
    exact (made_flush hflush).of_same ⟨rfl, rfl, rfl, rfl, rfl⟩
  · next htimes =>
    rw [if_neg htimes]
    exact made_nil (sameTables_handleText h)

theorem made_handleLine {s s' : SrtParser} {line : List UInt16}
    (h : s.handleLine line = some s') : s.Made (s.lineCalls line) s' := by
  rw [SrtParser.handleLine] at h
  rw [SrtParser.lineCalls]
  split at h
  · next hnumber =>
    cases h
    rw [if_pos hnumber]
    exact made_nil ⟨rfl, rfl, rfl, rfl, rfl⟩
  · next hnumber =>
    rw [if_neg hnumber]
    cases hfind : findSub arrow line with
    | none =>
      rw [hfind] at h
      exact made_nil (sameTables_handleText h)
    | some p =>
      rw [hfind] at h
      exact made_handleTimes h

namespace AssParser

theorem made_srtLine {a : AssParser} {r : AssParser × List AssCall} {s : SrtParser}
    {calls : List AssCall} (hs : s.Made calls a.srt) {line : List UInt16}
    (h : a.srtLine calls line = some r) : s.Made r.2 r.1.srt := by
  obtain ⟨s', hline, rfl⟩ := Option.map_eq_some_iff.mp h
  exact hs.append (made_handleLine hline)

theorem made_handleLine {a : AssParser} {r : AssParser × List AssCall} {line : List UInt16}
    (h : a.handleLine line = some r) : a.srt.Made r.2 r.1.srt := by
  have hself : a.srt.Made [] a.srt := made_nil (SameTables.refl _)
  rw [handleLine] at h
  split at h
  · split at h
    · split at h
      · exact @made_srtLine { a with mAssEventsStart := true } _ _ _ hself _ h
      · cases h
        exact hself
    · split at h
      · cases h
        exact hself
      · next start stop _ =>
        obtain ⟨text, -, h⟩ := Option.bind_eq_some_iff.mp h
        obtain ⟨⟨s, rtn⟩, hadd, h⟩ := Option.bind_eq_some_iff.mp h
        exact made_srtLine (made_call hadd) h
  · exact made_srtLine hself h

theorem made_endLine {a : AssParser} {r : AssParser × List AssCall} {line : List UInt16}
    (h : a.endLine line = some r) : a.srt.Made r.2 r.1.srt := by
  rw [endLine] at h
  split at h
  · exact made_handleLine h
  · cases h
    exact made_nil ⟨rfl, rfl, rfl, rfl, rfl⟩

theorem made_handleData {α : Type} [DecidableEq α] {newline : α} {toWide : List α → List UInt16}
    {a : AssParser} {r : AssParser × List AssCall} {data : List α}
    (h : a.handleData newline toWide data = some r) : a.srt.Made r.2 r.1.srt := by
  obtain ⟨acc, hfold, rfl⟩ := Option.map_eq_some_iff.mp h
  refine Fallible.foldlM_invariant (fun acc : Reading α => a.srt.Made acc.calls acc.parser.srt) ?_
    data ⟨a, [], []⟩ acc (made_nil (SameTables.refl _)) hfold
  intro acc c acc' hacc hfeed
  rw [feed] at hfeed
  split at hfeed
  · cases hfeed
    split
    · exact hacc
    · exact hacc
  · split at hfeed
    · obtain ⟨r, hline, rfl⟩ := Option.map_eq_some_iff.mp hfeed
      exact hacc.append (made_endLine hline)
    · cases hfeed

theorem made_load {toWide : CodePage → List UInt8 → List UInt16} {a : AssParser} {ass : Bool}
    {behind data : List UInt8} {r : AssParser × List AssCall}
    (h : a.load toWide ass behind data = some r) : a.srt.Made r.2 r.1.srt := by
  have hset : a.srt.SameTables { a.srt with mAss := ass } := ⟨rfl, rfl, rfl, rfl, rfl⟩
  obtain ⟨⟨a', calls⟩, hread, hflush⟩ := Option.bind_eq_some_iff.mp h
  obtain ⟨s', hflush', rfl⟩ := Option.map_eq_some_iff.mp hflush
  have hmade : SrtParser.Made { a.srt with mAss := ass } calls a'.srt := by
    split at hread
    · exact made_handleData hread
    · split at hread
      · exact made_handleData hread
      · split at hread
        · exact made_handleData hread
        · exact made_handleData hread
  exact ((made_nil hset).append hmade).append (made_flush hflush')

theorem made_directAddSubtitle {a : AssParser} {line : List UInt16} {start stop : Int}
    {r : AssParser × List AssCall} (h : a.directAddSubtitle line start stop = some r) :
    a.srt.Made r.2 r.1.srt := by
  obtain ⟨⟨s, rtn⟩, hadd, rfl⟩ := Option.map_eq_some_iff.mp h
  exact made_call hadd

variable {toWide : CodePage → List UInt8 → List UInt16}

theorem made_step {a : AssParser} {op : Op} {r : AssParser × List AssCall}
    (h : a.step toWide op = some r) : a.srt.Made r.2 r.1.srt := by
  cases op with
  | load ass behind data => exact made_load h
  | addData data start stop =>
    rw [step, addData] at h
    split at h
    · cases h
      exact made_nil (SameTables.refl _)
    · exact made_directAddSubtitle h
  | directAddSubtitle line start stop => exact made_directAddSubtitle h

/-- **A run leaves the list that its calls leave.** -/
theorem made_run : ∀ (ops : List Op) {a : AssParser} {r : AssParser × List AssCall},
    a.run toWide ops = some r → a.srt.Made r.2 r.1.srt := by
  intro ops
  induction ops with
  | nil =>
    intro a r h
    cases h
    exact made_nil (SameTables.refl _)
  | cons op ops ih =>
    intro a r h
    obtain ⟨⟨a₁, calls⟩, hstep, h⟩ := Option.bind_eq_some_iff.mp h
    obtain ⟨⟨a₂, calls'⟩, hrun, h⟩ := Option.bind_eq_some_iff.mp h
    cases h
    exact (made_step hstep).append (ih hrun)

end AssParser

/-! ## One call -/

namespace SrtParser

/-- At most `num` entries, and every text with its terminator within the first `textSize`
characters. -/
def InCapacity (num textSize : Nat) (s : SrtParser) : Prop :=
  s.mIndex.length ≤ num ∧
    ∀ e ∈ s.mIndex, e.pos + (cstrAt s.mTextData e.pos).length + 1 ≤ textSize

/-- A call for an entry that is there already, or one for which there is room. -/
def CallFits (num textSize : Nat) (s : SrtParser) (c : AssCall) : Prop :=
  s.mIndex.any (fun i => isDuplicate i c.start c.stop) = true ∨
    s.mIndex.length < num ∧
      s.nextPos + (({ s with mAss := c.ass } : SrtParser).storedText c.line).length + 1 ≤ textSize

instance (num textSize : Nat) (s : SrtParser) : Decidable (s.InCapacity num textSize) := by
  unfold InCapacity
  infer_instance

instance (num textSize : Nat) (s : SrtParser) (c : AssCall) :
    Decidable (s.CallFits num textSize c) := by
  unfold CallFits
  infer_instance

variable {num textSize : Nat}

theorem Laid.call {s s' : SrtParser} {c : AssCall} {rtn : Int} (hlaid : s.Laid)
    (h : s.call c = some (s', rtn)) : s'.Laid := by
  have hlaid₁ : SrtParser.Laid { s with mAss := c.ass } := hlaid.of_eq rfl rfl rfl
  rcases directAddSubtitle_cases h with ⟨-, rfl, -⟩ | ⟨-, -, textData, hcopy, rfl⟩
  · exact hlaid₁
  · exact (hlaid₁.added (not_mem_storedText _ _) hcopy _ rfl).2

theorem Laid.callAll {s s' : SrtParser} {calls : List AssCall} (hlaid : s.Laid)
    (h : s.callAll calls = some s') : s'.Laid := by
  refine Fallible.foldlM_invariant Laid (fun t c t' ht hcall => ?_) calls s s' hlaid h
  obtain ⟨⟨u, rtn⟩, hcall', rfl⟩ := Option.map_eq_some_iff.mp hcall
  exact Laid.call ht hcall'

/-- **A call stays inside exactly when it fits.** -/
theorem inCapacity_call {s s' : SrtParser} {c : AssCall} {rtn : Int} (hlaid : s.Laid)
    (hs : s.InCapacity num textSize) (h : s.call c = some (s', rtn)) :
    s'.InCapacity num textSize ↔ s.CallFits num textSize c := by
  obtain ⟨s₁, hs₁⟩ : ∃ s₁ : SrtParser, s₁ = { s with mAss := c.ass } := ⟨_, rfl⟩
  have hlaid₁ : s₁.Laid := hs₁ ▸ hlaid.of_eq rfl rfl rfl
  have hindex : s₁.mIndex = s.mIndex := by rw [hs₁]
  have hnext : s₁.nextPos = s.nextPos := by
    rw [hs₁]
    rfl
  have hcapacity : s₁.InCapacity num textSize := by
    rw [hs₁]
    exact hs
  rw [call, ← hs₁] at h
  have hfits : s.CallFits num textSize c ↔ (s₁.mIndex.any fun i => isDuplicate i c.start c.stop) ∨
      s₁.mIndex.length < num ∧ s₁.nextPos + (s₁.storedText c.line).length + 1 ≤ textSize := by
    rw [CallFits, ← hs₁, hindex, hnext]
  rw [hfits]
  rcases directAddSubtitle_cases h with ⟨hdup, rfl, -⟩ | ⟨hdup, -, textData, hcopy, rfl⟩
  · exact iff_of_true hcapacity (Or.inl hdup)
  obtain ⟨new, hnew⟩ : ∃ new : SubtitleIndex, new = ⟨c.start, c.stop, s₁.nextPos,
    (findOffset (s₁.warned c.line)).getD 0, (findOffset (s₁.warned c.line)).isSome⟩ := ⟨_, rfl⟩
  have hpos : new.pos = s₁.nextPos := by rw [hnew]
  rw [← hnew]
  have h0 := s₁.not_mem_storedText c.line
  have hlength : (s₁.added new textData).mIndex.length = s₁.mIndex.length + 1 := by
    rw [added, List.length_append, List.length_singleton]
  have hread : cstrAt textData new.pos = s₁.storedText c.line := by
    rw [hpos]
    exact cstrAt_wcscpyAt hcopy h0
  -- the texts of the old entries are the old ones, or the new one at place zero
  have hold : ∀ e ∈ s₁.mIndex, cstrAt textData e.pos = cstrAt s₁.mTextData e.pos ∨
      e.pos = new.pos := by
    intro e he
    rcases hlaid₁ with hblank | ⟨hfilled, -⟩
    · exact Or.inr (by rw [hpos, hblank.nextPos, hblank.pos e he])
    · exact Or.inl ((cstrAt_of_texts_added (hfilled.added h0 hcopy new hpos).2.1).1 e he)
  constructor
  · rintro ⟨hnum, htexts⟩
    have hlast := htexts new (List.mem_append_right _ (List.mem_singleton_self _))
    refine Or.inr ⟨by omega, ?_⟩
    rw [← hpos, ← hread]
    exact hlast
  · rintro (hdup' | ⟨hroom, htext⟩)
    · rw [hdup'] at hdup
      cases hdup
    · rw [← hpos, ← hread] at htext
      refine ⟨by omega, fun e he => ?_⟩
      rcases List.mem_append.mp he with he | he
      · rcases hold e he with hsame | hplace
        · show e.pos + (cstrAt textData e.pos).length + 1 ≤ textSize
          rw [hsame]
          exact hcapacity.2 e he
        · rw [hplace]
          exact htext
      · rw [List.mem_singleton.mp he]
        exact htext

theorem callAll_take_succ {s t : SrtParser} {calls : List AssCall} {k : Nat} {c : AssCall}
    (hc : calls[k]? = some c) (ht : s.callAll (calls.take k) = some t) :
    s.callAll (calls.take (k + 1)) = (t.call c).map Prod.fst := by
  rw [List.take_add_one, hc, Option.toList_some, callAll, List.foldlM_append, ← callAll, ht]
  show ((t.call c).map Prod.fst).bind some = (t.call c).map Prod.fst
  exact Option.bind_fun_some _

theorem exists_callAll_take {s t : SrtParser} {calls : List AssCall}
    (h : s.callAll calls = some t) (k : Nat) : ∃ u, s.callAll (calls.take k) = some u := by
  rw [← List.take_append_drop k calls, callAll, List.foldlM_append] at h
  obtain ⟨u, hu, -⟩ := Option.bind_eq_some_iff.mp h
  exact ⟨u, hu⟩

end SrtParser

/-! ## A run -/

/-- **The arrays are kept exactly when every call fits.**  After each call of a run there are
at most `num` entries and the texts end within `textSize` characters, and an entry that does
not fit is refused, if and only if there is no entry that does not fit. -/
theorem inCapacity_iff (toWide : CodePage → List UInt8 → List UInt16) (num textSize room : Nat)
    (heap fontsLoading : List UInt16) (hheap : heap ≠ []) (ops : List AssParser.Op)
    (a : AssParser) (calls : List AssCall)
    (hrun : (AssParser.init room heap fontsLoading).run toWide ops = some (a, calls)) :
    (∃ s, (SrtParser.init room heap fontsLoading).callAll calls = some s ∧ s.SameTables a.srt) ∧
    ((∀ k s, (SrtParser.init room heap fontsLoading).callAll (calls.take k) = some s →
        s.InCapacity num textSize ∧ ∀ c s' rtn, calls[k]? = some c →
          ¬s.CallFits num textSize c → s.call c = some (s', rtn) → s' = s) ↔
      ∀ k s c, (SrtParser.init room heap fontsLoading).callAll (calls.take k) = some s →
        calls[k]? = some c → s.CallFits num textSize c) := by
  obtain ⟨t, ht, hsame⟩ := AssParser.made_run ops hrun
  have hall : (SrtParser.init room heap fontsLoading).callAll calls = some t := ht
  have hlaid : ∀ {k s}, (SrtParser.init room heap fontsLoading).callAll (calls.take k) = some s →
      s.Laid := fun hs => (laid_init room hheap fontsLoading).callAll hs
  refine ⟨⟨t, hall, hsame⟩, fun h k s c hs hc => ?_, fun h k => ?_⟩
  · -- the state after the call is inside, so the call fits
    obtain ⟨u, hu⟩ := SrtParser.exists_callAll_take hall (k + 1)
    have hcall := hu
    rw [SrtParser.callAll_take_succ hc hs] at hcall
    obtain ⟨⟨s', rtn⟩, hcall', rfl⟩ := Option.map_eq_some_iff.mp hcall
    exact (SrtParser.inCapacity_call (hlaid hs) (h k s hs).1 hcall').mp (h (k + 1) _ hu).1
  · have hin : ∀ s, (SrtParser.init room heap fontsLoading).callAll (calls.take k) = some s →
        s.InCapacity num textSize := by
      induction k with
      | zero =>
        intro s hs
        cases hs
        exact ⟨Nat.zero_le _, fun e he => absurd he List.not_mem_nil⟩
      | succ k ih =>
        intro s hs
        cases hc : calls[k]? with
        | none =>
          have hlen := List.getElem?_eq_none_iff.mp hc
          rw [List.take_of_length_le (by omega)] at hs
          exact ih s (by rwa [List.take_of_length_le hlen])
        | some c =>
          obtain ⟨u, hu⟩ := SrtParser.exists_callAll_take hall k
          rw [SrtParser.callAll_take_succ hc hu] at hs
          obtain ⟨⟨s, rtn⟩, hcall, rfl⟩ := Option.map_eq_some_iff.mp hs
          exact (SrtParser.inCapacity_call (hlaid hu) (ih u hu) hcall).mpr (h k u c hu hc)
    intro s hs
    refine ⟨hin s hs, fun c s' rtn hc hfits _ => ?_⟩
    exact absurd (h k s c hs hc) hfits

def twoOps : List AssParser.Op :=
  [.directAddSubtitle (wide ['a', 'b', 'c']) 0 100, .addData [100, 101, 102] 200 300]

def twoCalls : List AssCall :=
  [⟨false, wide ['a', 'b', 'c'], 0, 100⟩, ⟨false, wide ['d', 'e', 'f'], 200, 300⟩]

/-- They stay inside an index for two and eight characters. -/
theorem inCapacity_two : ∃ a calls,
    (AssParser.init 9 (List.replicate 20 65) []).run
      (fun _ line => line.map UInt8.toUInt16) twoOps =
      some (a, calls) ∧
    ∀ k s, (SrtParser.init 9 (List.replicate 20 65) []).callAll (calls.take k) = some s →
      s.InCapacity 2 8 ∧ ∀ c s' rtn, calls[k]? = some c →
        ¬s.CallFits 2 8 c → s.call c = some (s', rtn) → s' = s := by
  have hrun : ((AssParser.init 9 (List.replicate 20 65) []).run
      (fun _ line => line.map UInt8.toUInt16) twoOps).map Prod.snd = some twoCalls := by
    decide
  obtain ⟨⟨a, calls⟩, hrun, rfl⟩ := Option.map_eq_some_iff.mp hrun
  refine ⟨a, _, hrun, (inCapacity_iff _ 2 8 9 _ [] (by decide) _ a _ hrun).2.mpr ?_⟩
  have hfits : ∀ k < 2, ((SrtParser.init 9 (List.replicate 20 65) []).callAll
      (twoCalls.take k)).all (fun s => (twoCalls[k]?).all fun c => decide (s.CallFits 2 8 c)) =
        true := by decide
  intro k s c hs hc
  have hk : k < 2 := (List.getElem?_eq_some_iff.mp hc).1
  have hall := hfits k hk
  change (SrtParser.init 9 (List.replicate 20 65) []).callAll (twoCalls.take k) = some s at hs
  change twoCalls[k]? = some c at hc
  rw [hs, hc] at hall
  exact of_decide_eq_true hall

/-- The second one is written behind the end of an index for one, and behind the end of four
characters. -/
theorem second_overruns : ∃ a calls,
    (AssParser.init 9 (List.replicate 20 65) []).run
      (fun _ line => line.map UInt8.toUInt16) twoOps =
      some (a, calls) ∧
    a.srt.mIndex.length = 2 ∧ a.srt.texts = [wide ['a', 'b', 'c'], wide ['d', 'e', 'f']] ∧
    ¬a.srt.InCapacity 1 20 ∧ ¬a.srt.InCapacity 2 4 := by
  have hrun : ((AssParser.init 9 (List.replicate 20 65) []).run
      (fun _ line => line.map UInt8.toUInt16) twoOps).any (fun r =>
        decide (r.1.srt.mIndex.length = 2 ∧
          r.1.srt.texts = [wide ['a', 'b', 'c'], wide ['d', 'e', 'f']] ∧
          ¬r.1.srt.InCapacity 1 20 ∧ ¬r.1.srt.InCapacity 2 4)) = true := by decide
  obtain ⟨⟨a, calls⟩, hrun, h⟩ := (Option.any_eq_true _ _).mp hrun
  exact ⟨a, calls, hrun, of_decide_eq_true h⟩

end DWindow.Srt
