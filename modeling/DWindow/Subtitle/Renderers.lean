import DWindow.PGS.Parser
import DWindow.Srt.Parser
import DWindow.Subtitle.Query

/-!
# The renderers of subtitles

`get_subtitle` of `PGSRenderer`, `VobSubRenderer` and `CsrtRendererCore`.  What
`decodeRLE` and the `decode` of VobSub make of a subtitle are parameters, as the bitmap of
a text is left to `DrawText`.  A quotient of doubles is given by its two numbers.
-/

namespace DWindow.Subtitle

/-- `rendered_subtitle` for a picture.  `index` is the number of the subtitle on its list,
which the code does not pass on. -/
structure RenderedSubtitle where
  index : Nat
  aspect : Int × Int
  left : Int × Int
  top : Int × Int
  width : Int × Int
  height : Int × Int
  widthPixel : Int
  heightPixel : Int
  delta : Int
  deltaValid : Bool
  data : List UInt32
deriving DecidableEq, Repr

/-- Where a subtitle stands in the video, and its pixels if there are any. -/
structure Decoded where
  left : Int
  top : Int
  width : Int
  height : Int
  rgb : Option (List UInt32)
deriving DecidableEq, Repr

/-- What `get_subtitle` fills `out` with, from a subtitle that begins and ends after 0. -/
def fillOut (totalWidth totalHeight : Int) (index : Nat) (start stop : Int) (tmp : Decoded) :
    Option RenderedSubtitle :=
  if start > 0 ∧ stop > 0 then
    tmp.rgb.map fun rgb =>
      { index := index
        aspect := (totalWidth, totalHeight)
        left := (tmp.left, totalWidth)
        top := (tmp.top, totalHeight)
        width := (tmp.width, totalWidth)
        height := (tmp.height, totalHeight)
        widthPixel := tmp.width
        heightPixel := tmp.height
        delta := 0
        deltaValid := false
        data := rgb }
  else none

theorem index_fillOut {totalWidth totalHeight start stop : Int} {index : Nat} {tmp : Decoded}
    {out : RenderedSubtitle} (h : fillOut totalWidth totalHeight index start stop tmp = some out) :
    out.index = index := by
  unfold fillOut at h
  split at h
  · obtain ⟨rgb, _, rfl⟩ := Option.map_eq_some_iff.mp h
    rfl
  · cases h

/-! ## The first subtitle of a time -/

variable {σ π : Type*}

/-- The number of the first subtitle whose time covers one of two times. -/
def findIndex (interval : σ → Int × Int) (subtitles : List σ) (start stop : Int) : Option Nat :=
  subtitles.findIdx? fun sub => covers (interval sub).1 (interval sub).2 start stop

/-- `find_subtitle`, with what `get_subtitle` makes of `tmp`. -/
def findSubtitle (interval : σ → Int × Int) (subtitles : π → List σ)
    (out : π → Nat → σ → Option RenderedSubtitle) (parser : π) (start stop : Int) :
    Int × Option RenderedSubtitle :=
  let found := findIndex interval (subtitles parser) start stop
  (code found, found.bind fun i => (subtitles parser)[i]?.bind (out parser i))

theorem finds_findSubtitle (interval : σ → Int × Int) (subtitles : π → List σ)
    (out : π → Nat → σ → Option RenderedSubtitle) (parser : π)
    (hout : ∀ i sub, ∀ r ∈ out parser i sub, r.index = i) :
    IndexRenderer.Finds (findSubtitle interval subtitles out) RenderedSubtitle.index parser
      (fun time => findIndex interval (subtitles parser) time time)
      (fun i => (subtitles parser)[i]?.bind (out parser i)) where
  finds := fun _ => rfl
  name_picture := by
    intro i r hr
    obtain ⟨sub, _, hsub⟩ := Option.bind_eq_some_iff.mp hr
    exact hout i sub r hsub

/-! ## PGS -/

/-- `PGSRenderer`, without the buffer of `add_data`. -/
abbrev PGSRenderer := IndexRenderer PGS.PGSParser

/-- The number that `PGSParser::find_subtitle` returns. -/
def pgsFound (p : PGS.PGSParser) (time : Int) : Option Nat :=
  findIndex (fun sub : PGS.Subtitle => (sub.start, sub.stop)) p.mSubtitles time time

def pgsPicture (decodeRLE : PGS.Subtitle → Option (List UInt32)) (p : PGS.PGSParser) (i : Nat) :
    Option RenderedSubtitle :=
  p.mSubtitles[i]?.bind fun sub =>
    fillOut p.mTotalWidth p.mTotalHeight i sub.start sub.stop
      ⟨sub.left, sub.top, sub.width, sub.height, decodeRLE sub⟩

def PGSRenderer.getSubtitle (decodeRLE : PGS.Subtitle → Option (List UInt32)) :
    PGSRenderer → Int → Int → PGSRenderer × Answer RenderedSubtitle :=
  IndexRenderer.getSubtitle <|
    findSubtitle (fun sub => (sub.start, sub.stop)) (fun p => p.mSubtitles) fun p i sub =>
      fillOut p.mTotalWidth p.mTotalHeight i sub.start sub.stop
        ⟨sub.left, sub.top, sub.width, sub.height, decodeRLE sub⟩

/-! ## VobSub -/

/-- `vobsub_subtitle` on the list. -/
structure VobSubSubtitle where
  start : Int
  stop : Int
  datasize : Int
  packetsize : Int
  packet : List UInt8
deriving DecidableEq, Repr

/-- `VobSubParser`, without what only `decode` reads. -/
structure VobSubParser where
  mTotalWidth : Int
  mTotalHeight : Int
  mSubtitles : List VobSubSubtitle
deriving DecidableEq, Repr

/-- `VobSubRenderer`; its constructor leaves `m_last_found` as it is. -/
abbrev VobSubRenderer := IndexRenderer VobSubParser

/-- The number that `VobSubParser::find_subtitle` returns. -/
def vobSubFound (p : VobSubParser) (time : Int) : Option Nat :=
  findIndex (fun sub : VobSubSubtitle => (sub.start, sub.stop)) p.mSubtitles time time

/-- The picture of a subtitle on the list. -/
def vobSubPicture (decode : VobSubSubtitle → Decoded) (p : VobSubParser) (i : Nat) :
    Option RenderedSubtitle :=
  p.mSubtitles[i]?.bind fun sub =>
    fillOut p.mTotalWidth p.mTotalHeight i sub.start sub.stop (decode sub)

/-- `VobSubRenderer::get_subtitle`.  The loop from `RGBQUAD` to `D3DFMT_A8R8G8B8` changes
nothing. -/
def VobSubRenderer.getSubtitle (decode : VobSubSubtitle → Decoded) :
    VobSubRenderer → Int → Int → VobSubRenderer × Answer RenderedSubtitle :=
  IndexRenderer.getSubtitle <|
    findSubtitle (fun sub => (sub.start, sub.stop)) (fun p => p.mSubtitles) fun p i sub =>
      fillOut p.mTotalWidth p.mTotalHeight i sub.start sub.stop (decode sub)

/-! ## Text -/

open WString

/-- `rendered_subtitle` for a text: its bitmap is drawn from the text, and `delta` is a
thousandth of the offset. -/
structure RenderedText where
  text : List UInt16
  deltaValid : Bool
  offset : Int
deriving DecidableEq, Repr

structure CsrtRendererCore where
  mSrt : Srt.SrtParser
  mLastFound : List UInt16

/-- The size of `found` and of `m_last_found`. -/
def foundSize : Nat := 1024

/-- What `get_subtitle` of the parser leaves in `found`, `has_offset` and `offset`, with
`multi` not set: those of the first subtitle of the time, or nothing. -/
def srtFind (p : Srt.SrtParser) (start stop : Int) : RenderedText :=
  if start > stop then ⟨[], false, 0⟩
  else
    match p.mIndex.find? (fun i => covers i.timeStart i.timeEnd start stop) with
    | some i => ⟨cstrAt p.mTextData i.pos, i.hasOffset, i.offset⟩
    | none => ⟨[], false, 0⟩

/-- `render`: an empty text is nothing. -/
def render (found : RenderedText) : Option RenderedText :=
  if found.text = [] then none else some found

/-- `CsrtRendererCore::get_subtitle`; no result stands for a text that does not fit into
`found`. -/
def CsrtRendererCore.getSubtitle (r : CsrtRendererCore) (time lastTime : Int) :
    Option (CsrtRendererCore × Answer RenderedText) :=
  let found := srtFind r.mSrt time time
  if foundSize ≤ found.text.length then none
  else if found.text = r.mLastFound ∧ lastTime ≠ -1 then some (r, .same)
  else some ({ r with mLastFound := found.text }, .update (render found))

end DWindow.Subtitle
