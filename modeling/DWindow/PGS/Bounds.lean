import DWindow.Lib.Looking
import DWindow.Subtitle.Tables

/-!
# Where the handlers of PGS segments look

The handlers once more, as computations that look into the memory at the payload, the bytes
that nothing is made of included.  Their values are those of `parse_raw_element`, with memory
behind the table of subtitles (`value_parseRawElement`).  `parseWindow` looks at a first byte,
`parsePalette` at two and `parseObject` at the header of an object before any of them asks for
the size, and `parseObject` copies what is left behind the header, less than nothing in a short
segment.  So a handler stays inside its segment from a smallest size on (`staysInside_iff`).
-/

namespace DWindow.PGS

open Looking BigEndian Decoder

/-! ## The handlers -/

/-- `readWORD`. -/
def lookWORD (p : Nat) : Looking UInt8 Nat := do
  let hi ← peek p
  let lo ← peek (p + 1)
  pure (hi.toNat * 256 + lo.toNat)

@[simp] theorem value_lookWORD (mem : Nat → UInt8) (p : Nat) :
    (lookWORD p).value mem = readWORD mem p := rfl

@[simp] theorem places_lookWORD (mem : Nat → UInt8) (p : Nat) :
    (lookWORD p).places mem = [p, p + 1] := rfl

/-- `memcpy`; no result stands for a negative count. -/
def memcpy (p : Nat) (count : Int) : Looking UInt8 (Option (List UInt8)) :=
  if count < 0 then pure none else do
    let bytes ← block p count.toNat
    pure (some bytes)

/-- How many bytes of object data `parseObject` copies. -/
def Subtitle.copyCount (s : Subtitle) (size : Nat) : Int :=
  if s.rleSize = 0 then size - 11 else size - 4

namespace Handler

def edit (d : Decoder) (f : Subtitle → Looking UInt8 (Option (Subtitle × HRESULT))) :
    Looking UInt8 (Option (Decoder × HRESULT)) :=
  if d.mHasSeg = false then pure (some (d, .ok)) else do
    let r ← f d.mCurrentSubtitle
    pure (r.map fun r => ({ d with mCurrentSubtitle := r.1 }, r.2))

def present (d : Decoder) (size : Nat) (time : Int) : Looking UInt8 Decoder := do
  let d := { d with mCurrentSubtitle := .empty, mPossibleStart := time, mHasSeg := true }
  if size ≥ 4 then
    let width ← lookWORD 0
    let height ← lookWORD 2
    pure { d with mTotalWidth := width, mTotalHeight := height }
  else pure d

def parsePresentaionSegment (d : Decoder) (size : Nat) (time : Int) :
    Looking UInt8 (Option (Decoder × HRESULT)) :=
  if d.mCurrentSubtitle.complete then
    let current := { d.mCurrentSubtitle with stop := time }
    if d.mSubtitles.any (fun i => i.near current) then
      pure (some ({ d with mCurrentSubtitle := .zero }, .sFalse))
    else do
      let d ← present { d with mSubtitles := d.mSubtitles ++ [current] } size time
      pure (some (d, .ok))
  else do
    let d ← present d size time
    pure (some (d, .ok))

def parseWindow (d : Decoder) (size : Nat) : Looking UInt8 (Option (Decoder × HRESULT)) :=
  edit d fun s => do
    let first ← peek 0
    if first = 0 ∨ size < 10 then pure (some (s, .ok))
    else
      let left ← lookWORD 2
      let top ← lookWORD 4
      let width ← lookWORD 6
      let height ← lookWORD 8
      pure (some ({ s with
        windowLeft := left
        windowTop := top
        windowWidth := width
        windowHeight := height }, .ok))

/-- A round of the loop of `parsePalette`. -/
def setColor (yuv2rgb : UInt8 → UInt8 → UInt8 → UInt8 → UInt32) (palette : List UInt32) (i : Nat) :
    Looking UInt8 (List UInt32) := do
  let color ← peek (2 + 5 * i)
  let y ← peek (2 + 5 * i + 1)
  let cr ← peek (2 + 5 * i + 2)
  let cb ← peek (2 + 5 * i + 3)
  let a ← peek (2 + 5 * i + 4)
  pure (palette.set color.toNat (yuv2rgb y cr cb a))

def parsePalette (yuv2rgb : UInt8 → UInt8 → UInt8 → UInt8 → UInt32) (d : Decoder) (size : Nat) :
    Looking UInt8 (Option (Decoder × HRESULT)) :=
  edit d fun s => do
    let _paletteId ← peek 0
    let _paletteVersion ← peek 1
    let nColors := (size - 2) / 5
    if nColors ≥ 256 then
      let _color ← peek 2
      pure (some (s, .eFail))
    else
      let palette ← (List.range nColors).foldlM (setColor yuv2rgb) s.palette
      pure (some ({ s with palette := palette }, .ok))

def parseObject (d : Decoder) (size : Nat) : Looking UInt8 (Option (Decoder × HRESULT)) :=
  edit d fun s => do
    let _seqDesc ← peek 3
    let _nDataSize ← block 4 3
    if s.rleSize = 0 then
      let _objectId ← lookWORD 0
      let _versionNumber ← peek 2
      let _seqDesc ← peek 3
      let _nDataSize ← block 4 3
      let width ← lookWORD 7
      let height ← lookWORD 9
      let copied ← memcpy 11 (s.copyCount size)
      pure (copied.map fun bytes => ({ s with
        width := width
        height := height
        left := s.windowLeft + (s.windowWidth - width).tdiv 2
        top := s.windowTop + (s.windowHeight - height).tdiv 2
        rleSize := size - 11
        rle := some bytes }, .ok))
    else
      let copied ← memcpy 4 (s.copyCount size)
      pure (copied.map fun bytes => ({ s with
        rleSize := s.rleSize + (size - 4)
        rle := some (s.rle.getD [] ++ bytes) }, .ok))

def parseDisplay (d : Decoder) : Looking UInt8 (Option (Decoder × HRESULT)) :=
  edit d fun s => pure (some ({ s with start := d.mPossibleStart }, .ok))

def parseRawElement (yuv2rgb : UInt8 → UInt8 → UInt8 → UInt8 → UInt32) (d : Decoder) (type : UInt8)
    (size : Nat) (start : Int) : Looking UInt8 (Option (Decoder × HRESULT)) :=
  if type = 0x16 then parsePresentaionSegment d size start
  else if type = 0x17 then parseWindow d size
  else if type = 0x14 then parsePalette yuv2rgb d size
  else if type = 0x15 then parseObject d size
  else if type = 0x80 then parseDisplay d
  else if type = 0x18 ∨ type = 0x81 ∨ type = 0x82 then pure (some (d, .ok))
  else pure (some (d, .eFail))

/-! ## They are the handlers -/

section Values

variable (yuv2rgb : UInt8 → UInt8 → UInt8 → UInt8 → UInt32) (data : Nat → UInt8) (d : Decoder)

theorem value_edit (f : Subtitle → Looking UInt8 (Option (Subtitle × HRESULT))) :
    (edit d f).value data = d.edit fun s => (f s).value data := by
  rw [edit, Decoder.edit, value_ite, value_bind]
  rfl

theorem value_memcpy (a size : Nat) :
    (memcpy a ((size : Int) - a)).value data =
      if size < a then none else some (bytesAt data a size) := by
  rw [memcpy, value_ite, value_bind, value_block]
  refine if_congr (by omega) rfl (congrArg some ?_)
  rw [show ((size : Int) - a).toNat = size - a by omega]
  rfl

theorem value_present (size : Nat) (time : Int) :
    (present d size time).value data = d.present data size time := by
  rw [present, Decoder.present, value_ite]
  rfl

theorem value_parsePresentaionSegment (size : Nat) (time : Int) :
    (parsePresentaionSegment d size time).value data = some (d.presentOn data size time) := by
  rw [parsePresentaionSegment, presentOn]
  simp only [value_ite, value_bind, value_pure, value_present, apply_ite some]

theorem value_parseWindow (size : Nat) :
    (parseWindow d size).value data = d.parseWindow data size := by
  rw [parseWindow, Decoder.parseWindow, value_edit]
  refine congrArg d.edit (funext fun s => ?_)
  rw [value_bind, value_ite]
  rfl

theorem value_parsePalette (size : Nat) :
    (parsePalette yuv2rgb d size).value data = Decoder.parsePalette yuv2rgb d data size := by
  rw [parsePalette, Decoder.parsePalette, value_edit]
  simp only [value_ite, value_bind, value_pure, value_foldlM, setColor, value_peek]
  rfl

theorem value_parseObject (size : Nat) :
    (parseObject d size).value data = d.parseObject data size := by
  rw [parseObject, Decoder.parseObject, value_edit]
  refine congrArg d.edit (funext fun s => ?_)
  by_cases hs : s.rleSize = 0
  · have hcopy := value_memcpy data 11 size
    simp only [Subtitle.copyCount, hs, if_true, value_bind, value_pure, value_lookWORD]
    rw [show ((11 : Nat) : Int) = 11 from rfl] at hcopy
    rw [hcopy]
    split <;> rfl
  · have hcopy := value_memcpy data 4 size
    simp only [Subtitle.copyCount, hs, if_false, value_bind, value_pure]
    rw [show ((4 : Nat) : Int) = 4 from rfl] at hcopy
    rw [hcopy]
    split <;> rfl

theorem value_parseDisplay : (parseDisplay d).value data = d.parseDisplay := by
  rw [parseDisplay, Decoder.parseDisplay, value_edit]
  rfl

/-- **The values are those of the handlers.** -/
theorem value_parseRawElement (type : UInt8) (size : Nat) (start : Int) :
    (parseRawElement yuv2rgb d type size start).value data =
      d.parseElementOn yuv2rgb data type size start := by
  rw [parseRawElement, parseElementOn]
  by_cases htype : type = 0x16
  · rw [if_pos htype, if_pos htype, value_parsePresentaionSegment]
  · rw [if_neg htype, if_neg htype, Decoder.parseRawElement, if_neg htype]
    simp only [value_ite, value_pure, value_parseWindow, value_parsePalette, value_parseObject,
      value_parseDisplay]

end Values

/-! ## Where they look -/

section Places

variable (yuv2rgb : UInt8 → UInt8 → UInt8 → UInt8 → UInt32) (data : Nat → UInt8) (d : Decoder)
  {size : Nat}

theorem stays_lookWORD (p : Nat) : Stays data (· < size) (lookWORD p) ↔ p + 1 < size := by
  rw [Stays, places_lookWORD, List.forall_mem_cons, List.forall_mem_singleton]
  omega

/-- Before the first presentation segment nothing is looked at. -/
theorem stays_edit (f : Subtitle → Looking UInt8 (Option (Subtitle × HRESULT))) :
    Stays data (· < size) (edit d f) ↔
      (d.mHasSeg = true → Stays data (· < size) (f d.mCurrentSubtitle)) := by
  rw [edit]
  cases d.mHasSeg with
  | false => exact iff_of_true (stays_pure) (fun h => absurd h Bool.false_ne_true)
  | true =>
    rw [if_neg (Ne.symm Bool.false_ne_true), stays_bind]
    exact ⟨fun h _ => h.1, fun h => ⟨h rfl, stays_pure⟩⟩

theorem stays_present (time : Int) : Stays data (· < size) (present d size time) := by
  rw [present]
  split
  case isTrue h =>
    rw [stays_bind, stays_bind, stays_lookWORD, stays_lookWORD]
    exact ⟨by omega, by omega, stays_pure⟩
  case isFalse h => exact stays_pure

theorem stays_parsePresentaionSegment (time : Int) :
    Stays data (· < size) (parsePresentaionSegment d size time) := by
  rw [parsePresentaionSegment]
  dsimp only
  split
  · split
    · exact stays_pure
    · exact (stays_bind ..).mpr ⟨stays_present data _ time, stays_pure⟩
  · exact (stays_bind ..).mpr ⟨stays_present data _ time, stays_pure⟩

theorem stays_parseWindow :
    Stays data (· < size) (parseWindow d size) ↔ (d.mHasSeg = true → 1 ≤ size) := by
  rw [parseWindow, stays_edit]
  refine imp_congr_right (fun _ => ?_)
  rw [stays_bind, stays_peek]
  refine and_iff_left_of_imp (fun hsize => ?_)
  split
  case isTrue h => exact stays_pure
  case isFalse h =>
    simp only [stays_bind, stays_lookWORD]
    exact ⟨by omega, by omega, by omega, by omega, stays_pure⟩

theorem stays_parsePalette :
    Stays data (· < size) (parsePalette yuv2rgb d size) ↔ (d.mHasSeg = true → 2 ≤ size) := by
  rw [parsePalette, stays_edit]
  refine imp_congr_right (fun _ => ?_)
  rw [stays_bind, stays_peek, stays_bind, stays_peek, ← and_assoc]
  refine Iff.trans (and_iff_left_of_imp (fun hsize => ?_)) (by omega)
  dsimp only
  split
  case isTrue h =>
    rw [stays_bind, stays_peek]
    exact ⟨by omega, stays_pure⟩
  case isFalse h =>
    refine (stays_bind ..).mpr ⟨stays_foldlM data _ (fun palette i hi => ?_) _, stays_pure⟩
    have hi := List.mem_range.mp hi
    simp only [setColor, stays_bind, stays_peek]
    exact ⟨by omega, by omega, by omega, by omega, by omega, stays_pure⟩

theorem stays_memcpy {p : Nat} (h : p ≤ size) :
    Stays data (· < size) (memcpy p ((size : Int) - p)) := by
  rw [memcpy, if_neg (by omega), stays_bind, stays_block]
  exact ⟨fun q _ hq => by omega, stays_pure⟩

theorem stays_parseObject :
    Stays data (· < size) (parseObject d size) ↔
      (d.mHasSeg = true → (if d.mCurrentSubtitle.rleSize = 0 then 11 else 7) ≤ size) := by
  rw [parseObject, stays_edit]
  refine imp_congr_right (fun _ => ?_)
  rw [stays_bind, stays_peek, stays_bind, stays_block]
  by_cases hs : d.mCurrentSubtitle.rleSize = 0
  · rw [if_pos hs, if_pos hs]
    simp only [stays_bind, stays_lookWORD, stays_peek, stays_block]
    constructor
    · rintro ⟨-, -, -, -, -, -, -, hheight, -⟩
      omega
    · intro hsize
      refine ⟨by omega, fun q _ hq => by omega, by omega, by omega, by omega,
        fun q _ hq => by omega, by omega, by omega, ?_, stays_pure⟩
      rw [Subtitle.copyCount, if_pos hs]
      exact stays_memcpy data hsize
  · rw [if_neg hs, if_neg hs, stays_bind]
    constructor
    · rintro ⟨-, hblock, -⟩
      exact hblock 6 (by omega) (by omega)
    · intro hsize
      refine ⟨by omega, fun q _ hq => by omega, ?_, stays_pure⟩
      rw [Subtitle.copyCount, if_neg hs]
      exact stays_memcpy data (p := 4) (by omega)

theorem stays_parseDisplay : Stays data (· < size) (parseDisplay d) :=
  (stays_edit ..).mpr (fun _ => stays_pure)

end Places

end Handler

/-! ## What a state keeps -/

/-- `rle_size` is the number of bytes in the buffer. -/
def Subtitle.Held (s : Subtitle) : Prop := s.rleSize = (s.rle.getD []).length

namespace Decoder

variable {yuv2rgb : UInt8 → UInt8 → UInt8 → UInt8 → UInt32} {data : Nat → UInt8} {d : Decoder}
  {type : UInt8} {size : Nat} {start : Int} {r : Decoder × HRESULT}

theorem held_edit {f : Subtitle → Option (Subtitle × HRESULT)} (hd : d.mCurrentSubtitle.Held)
    (hf : ∀ t, f d.mCurrentSubtitle = some t → t.1.Held) (h : d.edit f = some r) :
    r.1.mCurrentSubtitle.Held := by
  rw [edit] at h
  split at h
  · cases h
    exact hd
  · obtain ⟨t, ht, rfl⟩ := Option.map_eq_some_iff.mp h
    exact hf t ht

theorem held_present (d : Decoder) (data : Nat → UInt8) (size : Nat) (time : Int) :
    (d.present data size time).mCurrentSubtitle.Held := by
  rw [present]
  split <;> rfl

theorem held_presentOn (d : Decoder) (data : Nat → UInt8) (size : Nat) (time : Int) :
    (d.presentOn data size time).1.mCurrentSubtitle.Held := by
  rw [presentOn]
  dsimp only
  split
  · split
    · rfl
    · exact held_present ..
  · exact held_present ..

theorem length_bytesAt (data : Nat → UInt8) (a b : Nat) : (bytesAt data a b).length = b - a := by
  rw [bytesAt, List.length_map, List.length_range]

theorem held_parseObject (hd : d.mCurrentSubtitle.Held) (h : d.parseObject data size = some r) :
    r.1.mCurrentSubtitle.Held := by
  refine held_edit hd (fun t ht => ?_) h
  split at ht
  · split at ht
    · cases ht
    · cases ht
      exact (length_bytesAt data 11 size).symm
  · split at ht
    · cases ht
    · cases ht
      show d.mCurrentSubtitle.rleSize + (size - 4) = List.length (_ ++ _)
      rw [List.length_append, length_bytesAt, ← hd]

theorem held_parseWindow (hd : d.mCurrentSubtitle.Held) (h : d.parseWindow data size = some r) :
    r.1.mCurrentSubtitle.Held := by
  refine held_edit hd (fun t ht => ?_) h
  split at ht <;> cases ht <;> exact hd

theorem held_parsePalette (hd : d.mCurrentSubtitle.Held)
    (h : parsePalette yuv2rgb d data size = some r) : r.1.mCurrentSubtitle.Held := by
  refine held_edit hd (fun t ht => ?_) h
  dsimp only at ht
  split at ht <;> cases ht <;> exact hd

theorem held_parseDisplay (hd : d.mCurrentSubtitle.Held) (h : d.parseDisplay = some r) :
    r.1.mCurrentSubtitle.Held := by
  refine held_edit hd (fun t ht => ?_) h
  cases ht
  exact hd

/-- **The current picture holds its bytes** after every segment. -/
theorem held_parseElementOn (hd : d.mCurrentSubtitle.Held)
    (h : d.parseElementOn yuv2rgb data type size start = some r) : r.1.mCurrentSubtitle.Held := by
  rw [parseElementOn] at h
  split at h
  · cases h
    exact held_presentOn ..
  case isFalse htype =>
    rw [parseRawElement, if_neg htype] at h
    split at h
    · exact held_parseWindow hd h
    split at h
    · exact held_parsePalette hd h
    split at h
    · exact held_parseObject hd h
    split at h
    · exact held_parseDisplay hd h
    split at h <;> cases h <;> exact hd

/-! ## Staying inside -/

/-- The fewest bytes of a payload with which a handler stays inside it. -/
def least (d : Decoder) (type : UInt8) : Nat :=
  if d.mHasSeg = false then 0
  else if type = 0x17 then 1
  else if type = 0x14 then 2
  else if type = 0x15 then if d.mCurrentSubtitle.rleSize = 0 then 11 else 7
  else 0

theorem least_le : d.least type ≤ size ↔ (d.mHasSeg = true →
    (if type = 0x17 then 1
      else if type = 0x14 then 2
      else if type = 0x15 then if d.mCurrentSubtitle.rleSize = 0 then 11 else 7
      else 0) ≤ size) := by
  rw [least]
  cases d.mHasSeg with
  | false => exact iff_of_true (Nat.zero_le _) (fun h => absurd h Bool.false_ne_true)
  | true => exact ⟨fun h _ => h, fun h => h rfl⟩

theorem edit_some {f : Subtitle → Option (Subtitle × HRESULT)} :
    (∃ r, d.edit f = some r) ↔ (d.mHasSeg = true → ∃ t, f d.mCurrentSubtitle = some t) := by
  rw [edit]
  cases d.mHasSeg with
  | false => exact iff_of_true ⟨_, rfl⟩ (fun h => absurd h Bool.false_ne_true)
  | true =>
    rw [if_neg (Ne.symm Bool.false_ne_true)]
    constructor
    · rintro ⟨r, hr⟩ -
      obtain ⟨t, ht, -⟩ := Option.map_eq_some_iff.mp hr
      exact ⟨t, ht⟩
    · intro h
      obtain ⟨t, ht⟩ := h rfl
      exact ⟨_, congrArg _ ht⟩

theorem parseObject_some :
    (∃ r, d.parseObject data size = some r) ↔
      (d.mHasSeg = true → 0 ≤ d.mCurrentSubtitle.copyCount size) := by
  rw [parseObject, edit_some]
  refine imp_congr_right (fun _ => ?_)
  rw [Subtitle.copyCount]
  split
  · split
    · refine iff_of_false ?_ (by omega)
      rintro ⟨r, hr⟩
      cases hr
    · exact iff_of_true ⟨_, rfl⟩ (by omega)
  · split
    · refine iff_of_false ?_ (by omega)
      rintro ⟨r, hr⟩
      cases hr
    · exact iff_of_true ⟨_, rfl⟩ (by omega)

end Decoder

section Inside

variable (yuv2rgb : UInt8 → UInt8 → UInt8 → UInt8 → UInt32) (d : Decoder) (data : Nat → UInt8)
  (type : UInt8) (size : Nat) (start : Int)

/-- **The handler stays inside the segment**: it looks at bytes of the payload only, copies no
negative number of bytes and leaves a parser whose `rle_size` is the number of bytes held.
Without room on the list a picture is written behind it, over memory that is no part of the
parser. -/
structure StaysInside : Prop where
  reads : Stays data (· < size) (Handler.parseRawElement yuv2rgb d type size start)
  copies : type = 0x15 → d.mHasSeg = true → 0 ≤ d.mCurrentSubtitle.copyCount size
  held : ∃ r, d.parseElementOn yuv2rgb data type size start = some r ∧ r.1.mCurrentSubtitle.Held

/-- **Where a handler looks**: at the payload only, when it is long enough. -/
theorem stays_parseRawElement :
    Stays data (· < size) (Handler.parseRawElement yuv2rgb d type size start) ↔
      d.least type ≤ size := by
  rw [Handler.parseRawElement, Decoder.least_le]
  split
  case isTrue h =>
    subst h
    exact iff_of_true (Handler.stays_parsePresentaionSegment data d start) (fun _ => Nat.zero_le _)
  split
  case isTrue h => exact Handler.stays_parseWindow ..
  split
  case isTrue h => exact Handler.stays_parsePalette ..
  split
  case isTrue h => exact Handler.stays_parseObject ..
  refine iff_of_true ?_ (fun _ => Nat.zero_le _)
  split
  · exact Handler.stays_parseDisplay data d
  · split <;> exact stays_pure

theorem parseElementOn_some (hcopy : type = 0x15 → d.mHasSeg = true →
      0 ≤ d.mCurrentSubtitle.copyCount size) :
    ∃ r, d.parseElementOn yuv2rgb data type size start = some r := by
  rw [Decoder.parseElementOn]
  split
  case isTrue h => exact ⟨_, rfl⟩
  case isFalse htype =>
  rw [Decoder.parseRawElement, if_neg htype]
  split
  case isTrue h =>
    refine Decoder.edit_some.mpr (fun _ => ?_)
    split <;> exact ⟨_, rfl⟩
  split
  case isTrue h =>
    refine Decoder.edit_some.mpr (fun _ => ?_)
    dsimp only
    split <;> exact ⟨_, rfl⟩
  split
  case isTrue h => exact Decoder.parseObject_some.mpr (hcopy h)
  split
  case isTrue h => exact Decoder.edit_some.mpr (fun _ => ⟨_, rfl⟩)
  split <;> exact ⟨_, rfl⟩

/-- **When a handler stays inside**: the payload is long enough. -/
theorem staysInside_iff (hd : d.mCurrentSubtitle.Held) :
    StaysInside yuv2rgb d data type size start ↔ d.least type ≤ size := by
  refine ⟨fun h => (stays_parseRawElement ..).mp h.reads, fun h => ?_⟩
  have hcopy : type = 0x15 → d.mHasSeg = true → 0 ≤ d.mCurrentSubtitle.copyCount size := by
    rintro rfl hseg
    have hleast := Decoder.least_le.mp h hseg
    simp only [show ¬ (0x15 : UInt8) = 0x17 by decide, show ¬ (0x15 : UInt8) = 0x14 by decide,
      if_false, if_true] at hleast
    rw [Subtitle.copyCount]
    split
    case isTrue hs =>
      rw [if_pos hs] at hleast
      omega
    case isFalse hs =>
      rw [if_neg hs] at hleast
      omega
  obtain ⟨r, hr⟩ := parseElementOn_some yuv2rgb d data type size start hcopy
  exact ⟨(stays_parseRawElement ..).mpr h, hcopy, r, hr, Decoder.held_parseElementOn hd hr⟩

end Inside

/-- A parser behind an empty presentation segment at time 9. -/
def presented : Decoder := ⟨1920, 1080, [], 9, .empty, true⟩

/-- An object of one byte. -/
theorem staysInside_iff_oneByte :
    StaysInside (fun _ _ _ _ => 0) presented (fun i => UInt8.ofNat i) 0x15 12 9 ↔
      presented.least 0x15 ≤ 12 :=
  staysInside_iff _ presented _ 0x15 12 9 rfl

/-- Of an empty window a byte is read, of a palette of one byte the version, and the object
data of a segment of ten bytes are minus one. -/
theorem short_segments_read_on :
    ¬ StaysInside (fun _ _ _ _ => 0) presented (fun i => UInt8.ofNat i) 0x17 0 9 ∧
      ¬ StaysInside (fun _ _ _ _ => 0) presented (fun i => UInt8.ofNat i) 0x14 1 9 ∧
      ¬ StaysInside (fun _ _ _ _ => 0) presented (fun i => UInt8.ofNat i) 0x15 10 9 ∧
      presented.mCurrentSubtitle.copyCount 10 = -1 := by
  refine ⟨fun h => ?_, fun h => ?_, fun h => ?_, by decide⟩
  · exact absurd ((stays_parseRawElement ..).mp h.reads) (by decide)
  · exact absurd ((stays_parseRawElement ..).mp h.reads) (by decide)
  · exact absurd (h.copies rfl rfl) (by decide)

end DWindow.PGS
