import DWindow.PGS.Bounds
import DWindow.PGS.Drawing

/-!
# What `find_subtitle` finds

The list of the parser gets complete pictures only, and the current picture has in `rle_size`
the number of bytes it holds.  So whatever a parser was fed, what `find_subtitle` gives to
`decodeRLE` has its data, with their length, and a size that fits the bitmap (`found_of_run`).
-/

namespace DWindow.PGS

open Looking Runs

/-- A complete picture has a size that `decodeRLE` can take. -/
theorem Subtitle.sized_of_complete {s : Subtitle} (h : s.complete = true) :
    s.Sized ∧ s.rle.isSome = true := by
  rw [Subtitle.complete] at h
  simp only [Bool.and_eq_true, decide_eq_true_eq] at h
  exact ⟨⟨h.1.1.1.2, h.1.1.2, h.1.2, h.2⟩, h.1.1.1.1.2⟩

variable {yuv2rgb : UInt8 → UInt8 → UInt8 → UInt8 → UInt32}

namespace Decoder

variable {data : Nat → UInt8} {d : Decoder} {type : UInt8} {size : Nat} {start : Int}
  {r : Decoder × HRESULT}

/-- What the handlers keep: the current picture holds its bytes, and the pictures on the list
are complete and hold theirs. -/
structure Sound (d : Decoder) : Prop where
  current : d.mCurrentSubtitle.Held
  listed : ∀ s ∈ d.mSubtitles, s.Held ∧ s.Sized ∧ s.rle.isSome = true

theorem sound_reset (d : Decoder) : d.reset.Sound := ⟨rfl, fun _ hs => absurd hs List.not_mem_nil⟩

/-- The list after a segment is the list before, or has one complete picture more. -/
theorem mSubtitles_parseElementOn (h : d.parseElementOn yuv2rgb data type size start = some r) :
    r.1.mSubtitles = d.mSubtitles ∨ d.mCurrentSubtitle.complete = true ∧
      r.1.mSubtitles = d.mSubtitles ++ [{ d.mCurrentSubtitle with stop := start }] := by
  rw [parseElementOn] at h
  split at h
  case isTrue =>
    cases h
    rw [presentOn]
    dsimp only
    split
    case isTrue hcomplete =>
      split
      · exact .inl rfl
      · exact .inr ⟨hcomplete, present_mSubtitles ..⟩
    case isFalse => exact .inl (present_mSubtitles ..)
  case isFalse htype => exact .inl (mSubtitles_parseRawElement yuv2rgb htype h)

theorem Sound.parseElementOn (hd : d.Sound)
    (h : d.parseElementOn yuv2rgb data type size start = some r) : r.1.Sound := by
  refine ⟨held_parseElementOn hd.current h, ?_⟩
  rcases mSubtitles_parseElementOn h with heq | ⟨hcomplete, heq⟩
  · rw [heq]
    exact hd.listed
  · rw [heq, List.forall_mem_append, List.forall_mem_singleton]
    obtain ⟨hsized, hsome⟩ := Subtitle.sized_of_complete hcomplete
    exact ⟨hd.listed, hd.current, ⟨hsized.1, hsized.2, hsized.3, hsized.4⟩, hsome⟩

end Decoder

namespace PGSParser

theorem sound_tableStep {o : Option PGSParser} (ho : ∀ p ∈ o, p.toDecoder.Sound) (e : TableStep) :
    ∀ p ∈ tableStep yuv2rgb o e, p.toDecoder.Sound := by
  cases o with
  | none => cases e <;> exact fun _ hp => by cases hp
  | some p =>
    have hp := ho p rfl
    cases e with
    | feed data =>
      rintro _ ⟨⟩
      dsimp only
      split <;> exact hp
    | seek =>
      rintro _ ⟨⟩
      exact ⟨rfl, hp.listed⟩
    | round =>
      rw [← p.atElement_toDecoder] at hp
      intro p' hp'
      rw [tableStep, Option.bind_some, round] at hp'
      dsimp only at hp'
      split at hp'
      · obtain ⟨r, hr, rfl⟩ := Option.map_eq_some_iff.mp hp'
        exact hp.parseElementOn hr
      · cases hp'
        exact hp

end PGSParser

/-- `find_subtitle`: the number of the subtitle, what is left in `out`, and `decodeRLE`, which
fills its bitmap and whose result is ignored. -/
def Decoder.findSubtitle (d : Decoder) (room : Bool) (start stop : Int) :
    Option (Nat × Subtitle × Looking UInt8 (HRESULT × Option Decoding)) :=
  match d.mSubtitles.findIdx? (fun sub =>
    (sub.start ≤ start && start ≤ sub.stop) || (sub.start ≤ stop && stop ≤ sub.stop)) with
  | some i => (d.mSubtitles[i]?).map (fun sub => (i, { sub with rle := none }, decodeRLE room sub))
  | none => none

/-- **What is decoded has its data and a size that fits**, whatever the parser was fed. -/
theorem found_of_run {steps : List PGSParser.TableStep} {p p' : PGSParser}
    (h : run (PGSParser.tableStep yuv2rgb) (some p.reset) steps = some p') {room : Bool}
    {start stop : Int} {i : Nat} {out : Subtitle}
    {decode : Looking UInt8 (HRESULT × Option Decoding)}
    (hfound : p'.toDecoder.findSubtitle room start stop = some (i, out, decode)) :
    ∃ sub data, p'.mSubtitles[i]? = some sub ∧ sub.Sized ∧ sub.rle = some data ∧
      sub.rleSize = data.length ∧ out = { sub with rle := none } ∧ decode = decodeRLE room sub := by
  have hsound : p'.toDecoder.Sound :=
    run_invariant (fun o : Option PGSParser => ∀ p ∈ o, p.toDecoder.Sound)
      (fun _ e ho => PGSParser.sound_tableStep ho e) steps (some p.reset)
      (fun _ hp => by cases hp; exact Decoder.sound_reset _) p' h
  rw [Decoder.findSubtitle] at hfound
  split at hfound
  · obtain ⟨sub, hsub, heq⟩ := Option.map_eq_some_iff.mp hfound
    cases heq
    obtain ⟨hheld, hsized, hsome⟩ := hsound.listed sub (List.mem_of_getElem? hsub)
    obtain ⟨data, hdata⟩ := Option.isSome_iff_exists.mp hsome
    rw [Subtitle.Held, hdata] at hheld
    exact ⟨sub, data, hsub, hsized, hdata, hheld, rfl, rfl⟩
  · cases hfound

end DWindow.PGS
