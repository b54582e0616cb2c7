import DWindow.Subtitle.Renderers

/-!
# What the screen shows

The renderers of pictures forget nothing when they clear the screen: a caller that shows
a subtitle, comes to a gap and goes back to the same subtitle is told to keep what it
shows, which is nothing.  They never draw a subtitle that begins at 0, either.  The renderer
of texts compares the texts alone and keeps one when the next has another offset
(`wrong_subtitle_shown`).

`shows_iff_inStep` says for each of the three when its caller shows the right subtitle after
every call.
-/

namespace DWindow.Subtitle

open Runs WString

/-! ## Texts -/

namespace CsrtRendererCore

/-- The text that is found for a time, if it is not empty. -/
def found (p : Srt.SrtParser) (time : Int) : Option RenderedText := render (srtFind p time time)

/-- A call, after which there is no caller when the text does not fit. -/
def call (s : Option (Caller CsrtRendererCore RenderedText)) (c : Call) :
    Option (Caller CsrtRendererCore RenderedText) :=
  s.bind fun s =>
    (s.renderer.getSubtitle c.time c.lastTime).map fun r =>
      ⟨r.1, r.2.shown s.shown, some c.time⟩

/-- There is a caller and it shows what is found for its last call. -/
def Shows (p : Srt.SrtParser) (s : Option (Caller CsrtRendererCore RenderedText)) : Prop :=
  ∃ v, s = some v ∧ v.Shows id (found p)

instance (p : Srt.SrtParser) : ∀ s, Decidable (Shows p s)
  | none => isFalse fun h => nomatch h.choose_spec.1
  | some v => decidable_of_iff (v.Shows id (found p))
    ⟨fun h => ⟨v, rfl, h⟩, fun ⟨_, hw, h⟩ => Option.some.inj hw ▸ h⟩

/-- A call that finds a text which fits; and when it is the text of the last update, the call
before has found that text with the same offset. -/
def InStep (p : Srt.SrtParser) (s : Option (Caller CsrtRendererCore RenderedText)) (c : Call) :
    Prop :=
  ∀ v ∈ s, (srtFind p c.time c.time).text.length < foundSize ∧
    (c.lastTime ≠ -1 → (srtFind p c.time c.time).text = v.renderer.mLastFound →
      v.previous.bind (found p) = found p c.time)

/-- What a call keeps. -/
def Right (p : Srt.SrtParser) (s : Option (Caller CsrtRendererCore RenderedText)) : Prop :=
  ∃ v, s = some v ∧ v.renderer.mSrt = p ∧ v.Shows id (found p)

theorem call_overflow {v : Caller CsrtRendererCore RenderedText} {c : Call}
    (h : foundSize ≤ (srtFind v.renderer.mSrt c.time c.time).text.length) :
    call (some v) c = none := by
  simp only [call, getSubtitle, Option.bind_some, if_pos h, Option.map_none]

theorem call_same {v : Caller CsrtRendererCore RenderedText} {c : Call}
    (hfit : ¬ foundSize ≤ (srtFind v.renderer.mSrt c.time c.time).text.length)
    (h : (srtFind v.renderer.mSrt c.time c.time).text = v.renderer.mLastFound ∧ c.lastTime ≠ -1) :
    call (some v) c = some ⟨v.renderer, v.shown, some c.time⟩ := by
  simp only [call, getSubtitle, Option.bind_some, if_neg hfit, if_pos h, Option.map_some,
    Answer.shown]

theorem call_update {v : Caller CsrtRendererCore RenderedText} {c : Call}
    (hfit : ¬ foundSize ≤ (srtFind v.renderer.mSrt c.time c.time).text.length)
    (h : ¬ ((srtFind v.renderer.mSrt c.time c.time).text = v.renderer.mLastFound ∧
      c.lastTime ≠ -1)) :
    call (some v) c = some ⟨{ v.renderer with
      mLastFound := (srtFind v.renderer.mSrt c.time c.time).text },
      found v.renderer.mSrt c.time, some c.time⟩ := by
  simp only [call, getSubtitle, Option.bind_some, if_neg hfit, if_neg h, Option.map_some,
    Answer.shown, found]

theorem Right.call {p : Srt.SrtParser} {s : Option (Caller CsrtRendererCore RenderedText)}
    (hs : Right p s) {c : Call} (hok : InStep p s c) : Right p (call s c) := by
  obtain ⟨v, rfl, rfl, hshows⟩ := hs
  obtain ⟨hlen, hsame⟩ := hok v rfl
  have hfit := Nat.not_le.mpr hlen
  by_cases h : (srtFind v.renderer.mSrt c.time c.time).text = v.renderer.mLastFound ∧
      c.lastTime ≠ -1
  · rw [call_same hfit h]
    exact ⟨_, rfl, rfl, Eq.trans hshows (hsame h.2 h.1)⟩
  · rw [call_update hfit h]
    exact ⟨_, rfl, rfl, congrFun Option.map_id _⟩

theorem Right.inStep {p : Srt.SrtParser} {s : Option (Caller CsrtRendererCore RenderedText)}
    (hs : Right p s) {c : Call} (hafter : Shows p (CsrtRendererCore.call s c)) :
    InStep p s c := by
  obtain ⟨v, rfl, rfl, hshows⟩ := hs
  intro v' hv'
  obtain rfl : v = v' := Option.some.inj hv'
  obtain ⟨w, hw, hright⟩ := hafter
  have hfit : ¬ foundSize ≤ (srtFind v.renderer.mSrt c.time c.time).text.length := by
    intro h
    rw [call_overflow h] at hw
    cases hw
  refine ⟨Nat.not_le.mp hfit, fun hlater hlast => ?_⟩
  rw [call_same hfit ⟨hlast, hlater⟩] at hw
  obtain rfl := Option.some.inj hw
  exact Eq.trans (Eq.symm hshows) hright

/-- **The caller shows the right text** after every call, if and only if every call is in
step. -/
theorem shows_iff (p : Srt.SrtParser) (lastFound : List UInt16) (calls : List Call) :
    (∀ k, Shows p (run call (some (.start ⟨p, lastFound⟩)) (calls.take k))) ↔
      Along call (InStep p) (some (.start ⟨p, lastFound⟩)) calls :=
  forall_take_iff_along_of (Right p) (fun _ ⟨v, hv, _, hshows⟩ => ⟨v, hv, hshows⟩)
    (fun _ _ hs hok => hs.call hok) (fun _ _ hs hafter => hs.inStep hafter) calls _
    ⟨_, rfl, rfl, rfl⟩

end CsrtRendererCore

/-! ## All three -/

/-- **Every caller shows the right subtitle** after each of its calls if and only if the calls
are in step, whatever the subtitles, the times and the value left of earlier calls are. -/
theorem shows_iff_inStep (calls : List Call) :
    (∀ (decodeRLE : PGS.Subtitle → Option (List UInt32)) (p : PGS.PGSParser) (lastFound : Int),
      (∀ k, (run (Caller.call (PGSRenderer.getSubtitle decodeRLE)) (.start ⟨p, lastFound⟩)
        (calls.take k)).Shows RenderedSubtitle.index (pgsFound p)) ↔
      Along (Caller.call (PGSRenderer.getSubtitle decodeRLE))
        (IndexRenderer.InStep (pgsFound p) (pgsPicture decodeRLE p)) (.start ⟨p, lastFound⟩)
        calls) ∧
    (∀ (decode : VobSubSubtitle → Decoded) (p : VobSubParser) (lastFound : Int),
      (∀ k, (run (Caller.call (VobSubRenderer.getSubtitle decode)) (.start ⟨p, lastFound⟩)
        (calls.take k)).Shows RenderedSubtitle.index (vobSubFound p)) ↔
      Along (Caller.call (VobSubRenderer.getSubtitle decode))
        (IndexRenderer.InStep (vobSubFound p) (vobSubPicture decode p)) (.start ⟨p, lastFound⟩)
        calls) ∧
    ∀ (p : Srt.SrtParser) (lastFound : List UInt16),
      (∀ k, CsrtRendererCore.Shows p (run CsrtRendererCore.call (some (.start ⟨p, lastFound⟩))
        (calls.take k))) ↔
      Along CsrtRendererCore.call (CsrtRendererCore.InStep p) (some (.start ⟨p, lastFound⟩))
        calls := by
  refine ⟨fun decodeRLE p lastFound => ?_, fun decode p lastFound => ?_,
    fun p lastFound => CsrtRendererCore.shows_iff p lastFound calls⟩
  · exact IndexRenderer.shows_iff (finds_findSubtitle _ _ _ p fun _ _ _ h => index_fillOut h)
      lastFound calls
  · exact IndexRenderer.shows_iff (finds_findSubtitle _ _ _ p fun _ _ _ h => index_fillOut h)
      lastFound calls

def pgsOne (start stop : Int) : PGS.PGSParser where
  mTotalWidth := 1920
  mTotalHeight := 1080
  mSubtitles := [{ PGS.Subtitle.zero with start := start, stop := stop, width := 1, height := 1 }]
  mPossibleStart := 0
  mCurrentSubtitle := .empty
  mHasSeg := false
  mData := fun _ => 0
  mDataPos := 0

def vobSubOne : VobSubParser := ⟨720, 480, [⟨10, 20, 4, 4, [0, 4, 0, 4]⟩]⟩

/-- Two subtitles with the text `A` and the offsets 5 and 7. -/
def srtTwice : Srt.SrtParser :=
  { Srt.SrtParser.init 2 [65, 0, 65, 0] [] with
    mIndex := [⟨10, 20, 0, 5, true⟩, ⟨21, 30, 2, 7, true⟩]
    mTextData := [65, 0, 65, 0] }

/-- **The wrong subtitle is shown**: nothing, for a time that the caller comes back to after a
gap, with pictures of either kind; nothing, for a subtitle that begins at 0; and the offset
of an earlier subtitle with the same text. -/
theorem wrong_subtitle_shown :
    (let s := run (Caller.call (PGSRenderer.getSubtitle fun _ => some [0]))
        (.start ⟨pgsOne 10 20, -1⟩) [⟨15, -1⟩, ⟨30, 15⟩, ⟨15, 30⟩]
     ¬ s.Shows RenderedSubtitle.index (pgsFound (pgsOne 10 20)) ∧ s.shown = none ∧
      pgsFound (pgsOne 10 20) 15 = some 0) ∧
    (let s := run (Caller.call (PGSRenderer.getSubtitle fun _ => some [0]))
        (.start ⟨pgsOne 0 20, -1⟩) [⟨15, -1⟩]
     ¬ s.Shows RenderedSubtitle.index (pgsFound (pgsOne 0 20)) ∧ s.shown = none ∧
      pgsFound (pgsOne 0 20) 15 = some 0) ∧
    (let s := run (Caller.call (VobSubRenderer.getSubtitle fun _ => ⟨0, 0, 1, 1, some [0]⟩))
        (.start ⟨vobSubOne, -1⟩) [⟨15, -1⟩, ⟨30, 15⟩, ⟨15, 30⟩]
     ¬ s.Shows RenderedSubtitle.index (vobSubFound vobSubOne) ∧ s.shown = none ∧
      vobSubFound vobSubOne 15 = some 0) ∧
    (let s := run CsrtRendererCore.call (some (.start ⟨srtTwice, []⟩)) [⟨15, -1⟩, ⟨25, 15⟩]
     ¬ CsrtRendererCore.Shows srtTwice s ∧ s.map Caller.shown = some (some ⟨[65], true, 5⟩) ∧
      CsrtRendererCore.found srtTwice 25 = some ⟨[65], true, 7⟩) := by
  decide

end DWindow.Subtitle
