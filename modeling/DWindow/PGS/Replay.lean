import DWindow.Lib.Runs
import DWindow.PGS.Parser
import Mathlib.Data.List.Infix

/-!
# Display sets delivered again

After a seek the player gets display sets that it has parsed before.  The
presentation segment that ends such a picture finds the entry of the first time
and returns `S_FALSE` before `m_possible_start` and `m_current_subtitle.start` are
set, so the objects of its own display set are taken for a picture that started
with the set before (`replay_adds`).

`InTime` says that this does not happen: an object arrives only while the picture
has no start.  `replay_keeps` then compares the second parse with the first one.
The two are in step, with one current picture, or the last presentation segment
found a duplicate in one of them; then neither has object data and none may
arrive until the next presentation segment, which brings them in step again.
-/

namespace DWindow.PGS

open Runs

variable (yuv2rgb : UInt8 → UInt8 → UInt8 → UInt8 → UInt32)

/-- The arguments of one call of `parse_raw_element`. -/
structure Segment where
  type : UInt8
  payload : List UInt8
  start : Nat
deriving DecidableEq, Repr

def Segment.data (g : Segment) (i : Nat) : UInt8 := g.payload.getD i 0

def Decoder.parseSegment (d : Decoder) (g : Segment) : Option (Decoder × HRESULT) :=
  d.parseRawElement yuv2rgb g.data g.type g.payload.length g.start

/-- Parses a segment, unless an earlier one crashed. -/
def PGSParser.parseSegment (s : Option PGSParser) (g : Segment) : Option PGSParser := do
  let p ← s
  let (d, _) ← p.toDecoder.parseSegment yuv2rgb g
  some { p with toDecoder := d }

namespace Decoder

/-! ## What a segment does -/

@[simp] theorem present_mSubtitles (d : Decoder) (data : Nat → UInt8) (size : Nat) (time : Int) :
    (d.present data size time).mSubtitles = d.mSubtitles := by
  rw [present]
  split <;> rfl

@[simp] theorem present_mCurrentSubtitle (d : Decoder) (data : Nat → UInt8) (size : Nat)
    (time : Int) : (d.present data size time).mCurrentSubtitle = .empty := by
  rw [present]
  split <;> rfl

@[simp] theorem present_mPossibleStart (d : Decoder) (data : Nat → UInt8) (size : Nat)
    (time : Int) : (d.present data size time).mPossibleStart = time := by
  rw [present]
  split <;> rfl

@[simp] theorem present_mHasSeg (d : Decoder) (data : Nat → UInt8) (size : Nat) (time : Int) :
    (d.present data size time).mHasSeg = true := by
  rw [present]
  split <;> rfl

/-- **What a presentation segment does**: there is no picture to end, or it is on
the list already, or it is put there. -/
theorem parsePresentaionSegment_cases {d d' : Decoder} {data : Nat → UInt8} {size : Nat}
    {time : Int} {hr : HRESULT} (h : d.parsePresentaionSegment data size time = some (d', hr)) :
    (d.mCurrentSubtitle.complete = false ∧ d' = d.present data size time) ∨
    (d.mCurrentSubtitle.complete = true ∧
      d.mSubtitles.any (fun i => i.near { d.mCurrentSubtitle with stop := time }) = true ∧
      d' = { d with mCurrentSubtitle := .zero }) ∨
    (d.mCurrentSubtitle.complete = true ∧
      d' = { d with mSubtitles := d.mSubtitles ++
        [{ d.mCurrentSubtitle with stop := time }] }.present data size time) := by
  rw [parsePresentaionSegment] at h
  dsimp only at h
  cases hcomplete : d.mCurrentSubtitle.complete with
  | false =>
    rw [hcomplete, if_neg (by decide), Option.some.injEq, Prod.mk.injEq] at h
    exact Or.inl ⟨rfl, h.1.symm⟩
  | true =>
    rw [hcomplete, if_pos rfl] at h
    split at h
    · next hdup =>
      rw [Option.some.injEq, Prod.mk.injEq] at h
      exact Or.inr (Or.inl ⟨rfl, hdup, h.1.symm⟩)
    · split at h
      · rw [Option.some.injEq, Prod.mk.injEq] at h
        exact Or.inr (Or.inr ⟨rfl, h.1.symm⟩)
      · exact absurd h (by simp)

/-- **What the other segments do**: nothing, or an edit of the current picture; and
only an object segment touches the object data or crashes. -/
theorem parseSegment_cases {g : Segment} (hg : g.type ≠ 0x16) :
    (∃ hr, ∀ d : Decoder, d.parseSegment yuv2rgb g = some (d, hr)) ∨
    (∃ f : Int → Subtitle → Option (Subtitle × HRESULT),
      (∀ d : Decoder, d.parseSegment yuv2rgb g = d.edit (f d.mPossibleStart)) ∧
      (g.type ≠ 0x15 → ∀ t s, ∃ s' hr, f t s = some (s', hr) ∧ s'.rle = s.rle ∧
        (s'.start = s.start ∨ s'.start = t))) := by
  simp only [parseSegment, parseRawElement, if_neg hg]
  by_cases hwindow : g.type = 0x17
  · simp only [if_pos hwindow]
    refine Or.inr ⟨fun _ => _, fun d => rfl, fun _ t s => ?_⟩
    by_cases h : g.data 0 = 0 ∨ g.payload.length < 10
    · exact ⟨s, .ok, if_pos h, rfl, Or.inl rfl⟩
    · exact ⟨_, .ok, if_neg h, rfl, Or.inl rfl⟩
  simp only [if_neg hwindow]
  by_cases hpalette : g.type = 0x14
  · simp only [if_pos hpalette]
    refine Or.inr ⟨fun _ => _, fun d => rfl, fun _ t s => ?_⟩
    by_cases h : (g.payload.length - 2) / 5 ≥ 256
    · exact ⟨s, .eFail, if_pos h, rfl, Or.inl rfl⟩
    · exact ⟨_, .ok, if_neg h, rfl, Or.inl rfl⟩
  simp only [if_neg hpalette]
  by_cases hobject : g.type = 0x15
  · simp only [if_pos hobject]
    exact Or.inr ⟨fun _ => _, fun d => rfl, fun h => absurd hobject h⟩
  simp only [if_neg hobject]
  by_cases hdisplay : g.type = 0x80
  · simp only [if_pos hdisplay]
    exact Or.inr ⟨fun t s => some ({ s with start := t }, .ok), fun d => rfl,
      fun _ t s => ⟨_, .ok, rfl, rfl, Or.inr rfl⟩⟩
  simp only [if_neg hdisplay]
  split
  · exact Or.inl ⟨.ok, fun d => rfl⟩
  · exact Or.inl ⟨.eFail, fun d => rfl⟩

theorem edit_frame {d d' : Decoder} {f : Subtitle → Option (Subtitle × HRESULT)} {hr : HRESULT}
    (h : d.edit f = some (d', hr)) : d' = { d with mCurrentSubtitle := d'.mCurrentSubtitle } := by
  rw [edit] at h
  split at h
  · rw [Option.some.injEq, Prod.mk.injEq] at h
    rw [← h.1]
  · rw [Option.map_eq_some_iff] at h
    obtain ⟨r, -, hr⟩ := h
    rw [Prod.mk.injEq] at hr
    rw [← hr.1]

theorem parseSegment_frame {d d' : Decoder} {g : Segment} {hr : HRESULT} (hg : g.type ≠ 0x16)
    (h : d.parseSegment yuv2rgb g = some (d', hr)) :
    d' = { d with mCurrentSubtitle := d'.mCurrentSubtitle } := by
  rcases parseSegment_cases yuv2rgb hg with ⟨_, hkeep⟩ | ⟨f, hedit, -⟩
  · rw [hkeep, Option.some.injEq, Prod.mk.injEq] at h
    rw [← h.1]
  · rw [hedit] at h
    exact edit_frame h

theorem parseSegment_presentation (d : Decoder) {g : Segment} (hg : g.type = 0x16) :
    d.parseSegment yuv2rgb g = d.parsePresentaionSegment g.data g.payload.length g.start := by
  rw [parseSegment, parseRawElement, if_pos hg]

/-! ## What every run keeps -/

/-- After a presentation segment there is a time, and no time is `-1`. -/
def Timed (d : Decoder) : Prop := d.mHasSeg = true → d.mPossibleStart ≠ -1

theorem timed_of_hasSeg {d : Decoder} (h : d.mHasSeg = false) : d.Timed := by
  intro hseg
  rw [h] at hseg
  exact absurd hseg (by decide)

theorem Timed.parseSegment {d d' : Decoder} {g : Segment} {hr : HRESULT} (hd : d.Timed)
    (h : d.parseSegment yuv2rgb g = some (d', hr)) : d'.Timed := by
  by_cases hg : g.type = 0x16
  · rw [parseSegment_presentation yuv2rgb d hg] at h
    have htime : ∀ e : Decoder, (e.present g.data g.payload.length g.start).Timed := by
      intro e _
      rw [present_mPossibleStart]
      omega
    rcases parsePresentaionSegment_cases h with ⟨-, rfl⟩ | ⟨-, -, rfl⟩ | ⟨-, rfl⟩
    · exact htime _
    · exact hd
    · exact htime _
  · rw [parseSegment_frame yuv2rgb hg h]
    exact hd

theorem mSubtitles_grow {d d' : Decoder} {g : Segment} {hr : HRESULT}
    (h : d.parseSegment yuv2rgb g = some (d', hr)) : d.mSubtitles <+: d'.mSubtitles := by
  by_cases hg : g.type = 0x16
  · rw [parseSegment_presentation yuv2rgb d hg] at h
    rcases parsePresentaionSegment_cases h with ⟨-, rfl⟩ | ⟨-, -, rfl⟩ | ⟨-, rfl⟩
    · rw [present_mSubtitles]
    · exact List.prefix_rfl
    · rw [present_mSubtitles]
      exact List.prefix_append _ _
  · rw [parseSegment_frame yuv2rgb hg h]

/-! ## Two parses of one segment -/

structure InStep (u v : Decoder) : Prop where
  current : v.mCurrentSubtitle = u.mCurrentSubtitle
  possibleStart : v.mPossibleStart = u.mPossibleStart
  hasSeg : v.mHasSeg = u.mHasSeg

/-- No object data in either, and no object may come. -/
structure Apart (u v : Decoder) : Prop where
  first : u.mCurrentSubtitle.rle = none
  second : v.mCurrentSubtitle.rle = none
  shown : u.mCurrentSubtitle.start ≠ -1 ∨ v.mCurrentSubtitle.start ≠ -1

theorem complete_of_rle {s : Subtitle} (h : s.rle = none) : s.complete = false := by
  rw [Subtitle.complete, h]
  simp

theorem zero_start_ne : Subtitle.zero.start ≠ -1 := by decide

theorem near_self (s : Subtitle) : s.near s = true := by
  simp [Subtitle.near]

/-- **A presentation segment with no picture to end** brings the second parse in step,
or apart where the first one finds a duplicate. -/
theorem parseSegment_start {u v u' : Decoder} {g : Segment} {hr : HRESULT} (hg : g.type = 0x16)
    (hv : v.mCurrentSubtitle.complete = false) (h : u.parseSegment yuv2rgb g = some (u', hr)) :
    ∃ v' hr', v.parseSegment yuv2rgb g = some (v', hr') ∧ v'.mSubtitles = v.mSubtitles ∧
      (InStep u' v' ∨ Apart u' v') := by
  rw [parseSegment_presentation yuv2rgb u hg] at h
  have hnext : v.parseSegment yuv2rgb g =
      some (v.present g.data g.payload.length g.start, .ok) := by
    rw [parseSegment_presentation yuv2rgb v hg, parsePresentaionSegment, hv]
    exact if_neg (by decide)
  refine ⟨_, _, hnext, present_mSubtitles .., ?_⟩
  rcases parsePresentaionSegment_cases h with ⟨-, rfl⟩ | ⟨-, -, rfl⟩ | ⟨-, rfl⟩
  · exact Or.inl ⟨by simp, by simp, by simp⟩
  · exact Or.inr ⟨rfl, by rw [present_mCurrentSubtitle]; rfl, Or.inl zero_start_ne⟩
  · exact Or.inl ⟨by simp, by simp, by simp⟩

/-- **A presentation segment that ends a picture** finds it on a list that holds what
the first parse has. -/
theorem parseSegment_end {u v u' : Decoder} {g : Segment} {hr : HRESULT} (hg : g.type = 0x16)
    (hv : v.mCurrentSubtitle.complete = true) (hstep : InStep u v)
    (h : u.parseSegment yuv2rgb g = some (u', hr)) (hlist : u'.mSubtitles ⊆ v.mSubtitles) :
    ∃ v' hr', v.parseSegment yuv2rgb g = some (v', hr') ∧ v'.mSubtitles = v.mSubtitles ∧
      (InStep u' v' ∨ Apart u' v') := by
  have hnext : v.mSubtitles.any
        (fun i => i.near { v.mCurrentSubtitle with stop := (g.start : Int) }) = true →
      v.parseSegment yuv2rgb g = some ({ v with mCurrentSubtitle := .zero }, .sFalse) := by
    intro hdup
    rw [parseSegment_presentation yuv2rgb v hg, parsePresentaionSegment, if_pos hv]
    exact if_pos hdup
  rw [hstep.current] at hnext hv
  rw [parseSegment_presentation yuv2rgb u hg] at h
  rcases parsePresentaionSegment_cases h with ⟨hu, -⟩ | ⟨-, hdup, rfl⟩ | ⟨-, rfl⟩
  · rw [hu] at hv
    exact absurd hv (by decide)
  · obtain ⟨i, hi, hnear⟩ := List.any_eq_true.mp hdup
    refine ⟨_, _, hnext (List.any_eq_true.mpr ⟨i, hlist hi, hnear⟩), rfl, Or.inl ?_⟩
    exact ⟨rfl, hstep.possibleStart, hstep.hasSeg⟩
  · rw [present_mSubtitles] at hlist
    refine ⟨_, _, hnext (List.any_eq_true.mpr ⟨_, hlist ?_, near_self _⟩), rfl, Or.inr ?_⟩
    · exact List.mem_append_right _ (List.mem_singleton_self _)
    · exact ⟨by rw [present_mCurrentSubtitle]; rfl, rfl, Or.inr zero_start_ne⟩

theorem edit_inStep {u v u' : Decoder} {f : Subtitle → Option (Subtitle × HRESULT)} {hr : HRESULT}
    (hstep : InStep u v) (h : u.edit f = some (u', hr)) :
    ∃ v', v.edit f = some (v', hr) ∧ v'.mSubtitles = v.mSubtitles ∧ InStep u' v' := by
  rw [edit] at h
  rw [edit, hstep.hasSeg, hstep.current]
  split at h
  · next hseg =>
    rw [Option.some.injEq, Prod.mk.injEq] at h
    obtain ⟨rfl, rfl⟩ := h
    exact ⟨v, if_pos hseg, rfl, hstep⟩
  · next hseg =>
    rw [Option.map_eq_some_iff] at h
    obtain ⟨r, hr', h⟩ := h
    rw [Prod.mk.injEq] at h
    obtain ⟨rfl, rfl⟩ := h
    rw [if_neg hseg, hr']
    exact ⟨_, rfl, rfl, rfl, hstep.possibleStart, rfl⟩

theorem edit_apart {d : Decoder} {f : Int → Subtitle → Option (Subtitle × HRESULT)} (hd : d.Timed)
    (hf : ∀ t s, ∃ s' hr, f t s = some (s', hr) ∧ s'.rle = s.rle ∧
      (s'.start = s.start ∨ s'.start = t)) :
    ∃ d' hr, d.edit (f d.mPossibleStart) = some (d', hr) ∧ d'.mSubtitles = d.mSubtitles ∧
      d'.mCurrentSubtitle.rle = d.mCurrentSubtitle.rle ∧
      (d.mCurrentSubtitle.start ≠ -1 → d'.mCurrentSubtitle.start ≠ -1) := by
  rw [edit]
  by_cases hseg : d.mHasSeg = false
  · exact ⟨d, .ok, if_pos hseg, rfl, rfl, id⟩
  · obtain ⟨s', hr, hs', hrle, hstart⟩ := hf d.mPossibleStart d.mCurrentSubtitle
    rw [if_neg hseg, hs']
    refine ⟨_, _, rfl, rfl, hrle, fun h => ?_⟩
    rcases hstart with hstart | hstart
    · exact hstart ▸ h
    · exact hstart ▸ hd (by simpa using hseg)

/-- An object arrives only while the picture has no start. -/
def InTime (d : Decoder) (g : Segment) : Prop :=
  g.type = 0x15 → d.mCurrentSubtitle.start = -1

/-- **One segment of both parses**: the second one adds nothing to a list that holds
what the first one has. -/
theorem parseSegment_both {u v u' : Decoder} {g : Segment} {hr : HRESULT} (hu : u.Timed)
    (hv : v.Timed) (hrel : InStep u v ∨ Apart u v) (huTime : u.InTime g) (hvTime : v.InTime g)
    (h : u.parseSegment yuv2rgb g = some (u', hr)) (hlist : u'.mSubtitles ⊆ v.mSubtitles) :
    ∃ v' hr', v.parseSegment yuv2rgb g = some (v', hr') ∧ v'.mSubtitles = v.mSubtitles ∧
      (InStep u' v' ∨ Apart u' v') := by
  by_cases hg : g.type = 0x16
  · cases hcomplete : v.mCurrentSubtitle.complete with
    | false => exact parseSegment_start yuv2rgb hg hcomplete h
    | true =>
      rcases hrel with hstep | hapart
      · exact parseSegment_end yuv2rgb hg hcomplete hstep h hlist
      · rw [complete_of_rle hapart.second] at hcomplete
        exact absurd hcomplete (by decide)
  · rcases parseSegment_cases yuv2rgb hg with ⟨hr', hkeep⟩ | ⟨f, hedit, hf⟩
    · rw [hkeep, Option.some.injEq, Prod.mk.injEq] at h
      rw [← h.1]
      exact ⟨v, hr', hkeep v, rfl, hrel⟩
    rcases hrel with hstep | hapart
    · rw [hedit, ← hstep.possibleStart] at h
      obtain ⟨v', hv', hsubs, hstep'⟩ := edit_inStep hstep h
      exact ⟨v', hr, (hedit v).trans hv', hsubs, Or.inl hstep'⟩
    · have hobject : g.type ≠ 0x15 := by
        intro hg
        rcases hapart.shown with hshown | hshown
        · exact hshown (huTime hg)
        · exact hshown (hvTime hg)
      obtain ⟨u₂, _, hu₂, -, hurle, hustart⟩ := edit_apart hu (hf hobject)
      obtain ⟨v', hr', hv', hsubs, hvrle, hvstart⟩ := edit_apart hv (hf hobject)
      rw [hedit, hu₂, Option.some.injEq, Prod.mk.injEq] at h
      rw [← h.1]
      exact ⟨v', hr', (hedit v).trans hv', hsubs, Or.inr ⟨hurle.trans hapart.first,
        hvrle.trans hapart.second, hapart.shown.imp hustart hvstart⟩⟩

end Decoder

/-! ## Whole parses -/

namespace PGSParser

open Decoder

/-- An object arrives only while the picture has no start. -/
def InTime (s : Option PGSParser) (g : Segment) : Prop := ∀ p ∈ s, p.toDecoder.InTime g

instance (s : Option PGSParser) (g : Segment) : Decidable (InTime s g) :=
  inferInstanceAs (Decidable (∀ p ∈ s, g.type = 0x15 → p.mCurrentSubtitle.start = -1))

theorem parseSegment_some {p : PGSParser} {g : Segment} {d : Decoder} {hr : HRESULT}
    (h : p.toDecoder.parseSegment yuv2rgb g = some (d, hr)) :
    parseSegment yuv2rgb (some p) g = some { p with toDecoder := d } := by
  rw [parseSegment, Option.bind_eq_bind, Option.bind_some, h]
  rfl

theorem exists_of_parseSegment {p p' : PGSParser} {g : Segment}
    (h : parseSegment yuv2rgb (some p) g = some p') :
    ∃ hr, p.toDecoder.parseSegment yuv2rgb g = some (p'.toDecoder, hr) := by
  rw [parseSegment, Option.bind_eq_bind, Option.bind_some, Option.bind_eq_bind,
    Option.bind_eq_some_iff] at h
  obtain ⟨⟨d, hr⟩, hd, h⟩ := h
  rw [Option.some.injEq] at h
  rw [← h]
  exact ⟨hr, hd⟩

theorem run_none (l : List Segment) : run (parseSegment yuv2rgb) none l = none := by
  induction l with
  | nil => rfl
  | cons g l ih => exact ih

/-- A parse of some segments, taken at the first of them. -/
theorem run_cons_eq_some {p q : PGSParser} {g : Segment} {l : List Segment}
    (h : run (parseSegment yuv2rgb) (some p) (g :: l) = some q) :
    ∃ p' hr, p.toDecoder.parseSegment yuv2rgb g = some (p'.toDecoder, hr) ∧
      parseSegment yuv2rgb (some p) g = some p' ∧
      run (parseSegment yuv2rgb) (some p') l = some q := by
  rw [run_cons] at h
  cases hp : parseSegment yuv2rgb (some p) g with
  | none =>
    rw [hp, run_none] at h
    exact absurd h (by simp)
  | some p' =>
    rw [hp] at h
    obtain ⟨hr, hd⟩ := exists_of_parseSegment yuv2rgb hp
    exact ⟨p', hr, hd, rfl, h⟩

theorem run_keeps : ∀ (l : List Segment) (p q : PGSParser),
    run (parseSegment yuv2rgb) (some p) l = some q →
    p.mSubtitles <+: q.mSubtitles ∧ (p.Timed → q.Timed) := by
  intro l
  induction l with
  | nil =>
    intro p q h
    rw [run_nil, Option.some.injEq] at h
    rw [h]
    exact ⟨List.prefix_rfl, id⟩
  | cons g l ih =>
    intro p q h
    obtain ⟨p', hr, hd, -, hl⟩ := run_cons_eq_some yuv2rgb h
    obtain ⟨hgrow, htimed⟩ := ih p' q hl
    exact ⟨(mSubtitles_grow yuv2rgb hd).trans hgrow,
      fun hp => htimed (hp.parseSegment yuv2rgb hd)⟩

/-- **Both parses of a stretch**, once they are in step or apart. -/
theorem run_both : ∀ (l : List Segment) (p q r : PGSParser), p.Timed → r.Timed →
    InStep p.toDecoder r.toDecoder ∨ Apart p.toDecoder r.toDecoder →
    run (parseSegment yuv2rgb) (some p) l = some q → q.mSubtitles ⊆ r.mSubtitles →
    Along (parseSegment yuv2rgb) InTime (some p) l →
    Along (parseSegment yuv2rgb) InTime (some r) l →
    ∃ r', run (parseSegment yuv2rgb) (some r) l = some r' ∧ r'.mSubtitles = r.mSubtitles := by
  intro l
  induction l with
  | nil => intro p q r _ _ _ _ _ _ _; exact ⟨r, rfl, rfl⟩
  | cons g l ih =>
    intro p q r hp hr hrel hrun hlist hpTime hrTime
    obtain ⟨p', _, hd, hp', hl⟩ := run_cons_eq_some yuv2rgb hrun
    have hsub := List.Subset.trans (run_keeps yuv2rgb l p' q hl).1.subset hlist
    obtain ⟨d, _, hrd, hsubs, hrel'⟩ := parseSegment_both yuv2rgb hp hr hrel (hpTime.1 p rfl)
      (hrTime.1 r rfl) hd hsub
    have hr' := parseSegment_some yuv2rgb hrd
    have hpRest := hpTime.2
    have hrRest := hrTime.2
    rw [hp'] at hpRest
    rw [hr'] at hrRest
    obtain ⟨r', hrun', hend⟩ := ih p' q { r with toDecoder := d } (hp.parseSegment yuv2rgb hd)
      (hr.parseSegment yuv2rgb hrd) hrel' hl (by rw [hsubs]; exact hlist) hpRest hrRest
    exact ⟨r', by rw [run_cons, hr', hrun'], hend.trans hsubs⟩

theorem run_append_eq_some {p q : PGSParser} {l₁ l₂ : List Segment}
    (h : run (parseSegment yuv2rgb) (some p) (l₁ ++ l₂) = some q) :
    ∃ p', run (parseSegment yuv2rgb) (some p) l₁ = some p' ∧
      run (parseSegment yuv2rgb) (some p') l₂ = some q := by
  rw [run_append] at h
  cases hp : run (parseSegment yuv2rgb) (some p) l₁ with
  | none =>
    rw [hp, run_none] at h
    exact absurd h (by simp)
  | some p' =>
    rw [hp] at h
    exact ⟨p', rfl, h⟩

/-! ## After a seek -/

/-- Display sets delivered again: a stretch of what was parsed, from a presentation
segment on, with no picture waiting for its end and every object in time. -/
structure Stretch (parsed : List Segment) (s : Option PGSParser) (l : List Segment) : Prop where
  again : l <:+: parsed
  first : ∃ g ∈ l.head?, g.type = 0x16
  idle : ∀ p ∈ s, p.mCurrentSubtitle.complete = false
  inTime : Along (parseSegment yuv2rgb) InTime s l

theorem Stretch.run_eq {p q r : PGSParser} {parsed l : List Segment}
    (hl : Stretch yuv2rgb parsed (some r) l) (hp : p.Timed) (hr : r.Timed)
    (hrun : run (parseSegment yuv2rgb) (some p) parsed = some q)
    (hpTime : Along (parseSegment yuv2rgb) InTime (some p) parsed)
    (hlist : r.mSubtitles = q.mSubtitles) :
    ∃ r', run (parseSegment yuv2rgb) (some r) l = some r' ∧ r'.mSubtitles = r.mSubtitles := by
  obtain ⟨pre, post, rfl⟩ := hl.again
  obtain ⟨g, hg, htype⟩ := hl.first
  cases l with
  | nil => exact absurd hg (by simp)
  | cons g' l =>
    obtain rfl : g' = g := by simpa using hg
    rw [List.append_assoc] at hrun hpTime
    obtain ⟨p₁, hpre, hrun⟩ := run_append_eq_some yuv2rgb hrun
    have hpTime := ((along_append pre _ _).mp hpTime).2
    rw [hpre] at hpTime
    obtain ⟨p₂, hmid, hpost⟩ := run_append_eq_some yuv2rgb hrun
    have hpTime := ((along_append _ _ _).mp hpTime).1
    have hp₁ := (run_keeps yuv2rgb pre p p₁ hpre).2 hp
    have hsub : p₂.mSubtitles ⊆ r.mSubtitles := by
      rw [hlist]
      exact (run_keeps yuv2rgb post p₂ q hpost).1.subset
    obtain ⟨p', _, hd, hp', hrest⟩ := run_cons_eq_some yuv2rgb hmid
    obtain ⟨d, _, hrd, hsubs, hrel⟩ := parseSegment_start yuv2rgb htype (hl.idle r rfl) hd
    have hr' := parseSegment_some yuv2rgb hrd
    have hpRest := hpTime.2
    have hrRest := hl.inTime.2
    rw [hp'] at hpRest
    rw [hr'] at hrRest
    obtain ⟨r', hrun', hend⟩ := run_both yuv2rgb l p' p₂ { r with toDecoder := d }
      (hp₁.parseSegment yuv2rgb hd) (hr.parseSegment yuv2rgb hrd) hrel hrest
      (by rw [hsubs]; exact hsub) hpRest hrRest
    exact ⟨r', by rw [run_cons, hr', hrun'], hend.trans hsubs⟩

/-- **A replay adds nothing**: after any parse from a new parser and a seek, display
sets of that parse delivered again leave the list as it was, as long as every object
is in time. -/
theorem seek_replay : ∀ (p q : PGSParser) (parsed : List Segment) (again : List (List Segment)),
    run (parseSegment yuv2rgb) (some p.reset) parsed = some q →
    Along (parseSegment yuv2rgb) InTime (some p.reset) parsed →
    Along (run (parseSegment yuv2rgb)) (Stretch yuv2rgb parsed) (some q.seek) again →
    ∃ r, run (parseSegment yuv2rgb) (some q.seek) again.flatten = some r ∧
      r.mSubtitles = q.mSubtitles := by
  intro p q parsed again hrun hpTime hagain
  have hall : ∀ (again : List (List Segment)) (r : PGSParser), r.Timed →
      r.mSubtitles = q.mSubtitles →
      Along (run (parseSegment yuv2rgb)) (Stretch yuv2rgb parsed) (some r) again →
      ∃ r', run (parseSegment yuv2rgb) (some r) again.flatten = some r' ∧
        r'.mSubtitles = q.mSubtitles := by
    intro again
    induction again with
    | nil => intro r _ hlist _; exact ⟨r, rfl, hlist⟩
    | cons l again ih =>
      intro r hr hlist hagain
      obtain ⟨hl, hrest⟩ := hagain
      obtain ⟨r₁, hr₁, hend⟩ := hl.run_eq yuv2rgb (timed_of_hasSeg rfl) hr hrun
        hpTime hlist
      rw [hr₁] at hrest
      rw [List.flatten_cons, run_append, hr₁]
      exact ih r₁ ((run_keeps yuv2rgb l r r₁ hr₁).2 hr) (hend.trans hlist) hrest
  exact hall again q.seek (timed_of_hasSeg rfl) rfl hagain

/-! ## Pictures and blanks -/

/-- `YUV2RGB` on black. -/
def black (_ _ _ alpha : UInt8) : UInt32 := alpha.toUInt32 <<< 24

/-- A display set with one picture of two black pixels. -/
def pictureSet (time : Nat) : List Segment :=
  [⟨0x16, [7, 128, 4, 56, 16, 0, 1, 0x80, 0, 0, 1], time⟩,
   ⟨0x17, [1, 0, 0, 0, 0, 0, 0, 2, 0, 1], time⟩,
   ⟨0x14, [0, 0, 1, 16, 128, 128, 255], time⟩,
   ⟨0x15, [0, 0, 0, 0xc0, 0, 0, 8, 0, 2, 0, 1, 1, 1, 0, 0], time⟩,
   ⟨0x80, [], time⟩]

def blankSet (time : Nat) : List Segment :=
  [⟨0x16, [7, 128, 4, 56, 16, 0, 1, 0, 0, 0, 0], time⟩,
   ⟨0x17, [1, 0, 0, 0, 0, 0, 0, 2, 0, 1], time⟩,
   ⟨0x80, [], time⟩]

def blankParser : PGSParser := ⟨⟨0, 0, [], 0, .empty, false⟩, fun _ => 0, 0⟩

def times (p : PGSParser) : List (Int × Int) := p.mSubtitles.map (fun s => (s.start, s.stop))

/-- Two pictures, one right after the other: delivered again, they leave an entry
with the start of the first and the end of the second. -/
theorem replay_adds :
    let stream := pictureSet 1000 ++ pictureSet 2000 ++ blankSet 3000
    ∃ q r, run (parseSegment black) (some blankParser.reset) stream = some q ∧
      run (parseSegment black) (some q.seek) stream = some r ∧
      q.times = [(1000, 2000), (2000, 3000)] ∧
      r.times = [(1000, 2000), (2000, 3000), (1000, 3000)] :=
  ⟨_, _, rfl, rfl, by decide, by decide⟩

/-- Two pictures with blanks behind them, delivered again in full and then from the
second on. -/
theorem seek_replay_blanks :
    let stream := pictureSet 1000 ++ blankSet 2000 ++ (pictureSet 3000 ++ blankSet 4000)
    let again := [stream, pictureSet 3000 ++ blankSet 4000]
    ∃ q r, run (parseSegment black) (some blankParser.reset) stream = some q ∧
      run (parseSegment black) (some q.seek) again.flatten = some r ∧
      r.mSubtitles = q.mSubtitles := by
  intro stream again
  obtain ⟨q, hq⟩ : ∃ q, run (parseSegment black) (some blankParser.reset) stream = some q :=
    ⟨_, rfl⟩
  have hagain : Along (run (parseSegment black)) (Stretch black stream)
      ((run (parseSegment black) (some blankParser.reset) stream).map seek) again := by
    refine ⟨⟨⟨[], [], rfl⟩, ⟨_, rfl, rfl⟩, ?_, ?_⟩,
      ⟨⟨pictureSet 1000 ++ blankSet 2000, [], rfl⟩, ⟨_, rfl, rfl⟩, ?_, ?_⟩, trivial⟩
    all_goals decide
  rw [hq] at hagain
  obtain ⟨r, hr, hlist⟩ :=
    seek_replay black blankParser q stream again hq (by decide) hagain
  exact ⟨q, r, hq, hr, hlist⟩

end PGSParser

end DWindow.PGS
