import DWindow.Lib.Fallible
import DWindow.Lib.Mode
import DWindow.Srt.Save

/-!
# Which frames give a subtitle its offset

`load_offset_metadata` widens the bytes of the points in place, from the last one down, and no
byte is lost (`offsetAt_widen`).  It then takes the most common value over the frames of each
subtitle, and these it computes with the rounded frame rate, in `int`s, and with 1001 for the
thousand.  They are the right ones for few subtitles only: what is assigned is right for all
points exactly when the frames are the same, or the code takes one frame of the right two
(`assignsModes_iff`).
-/

namespace DWindow.Srt

open ByteFile CInt CString LittleEndian Mode

/-! ## Widening in place -/

theorem signMagnitude_range (b : UInt8) : -127 ≤ signMagnitude b ∧ signMagnitude b ≤ 127 := by
  have hle : (b &&& 0x7f).toNat ≤ 127 := by
    rw [UInt8.toNat_and]
    exact Nat.and_le_right
  unfold signMagnitude
  split <;> omega

section Writing

variable {data bs : List UInt8} {p q : Nat}

theorem length_writeAt (h : q + bs.length ≤ data.length) :
    (writeAt data q bs).length = data.length := by
  simp only [writeAt, List.length_append, List.length_take, List.length_drop]
  omega

theorem getD_writeAt (hq : q ≤ data.length) (h : p < q) :
    (writeAt data q bs).getD p 0 = data.getD p 0 := by
  rw [List.getD_eq_getElem?_getD, List.getD_eq_getElem?_getD, writeAt, List.append_assoc,
    List.getElem?_append_left (by rw [List.length_take]; omega), List.getElem?_take_of_lt h]

theorem drop_writeAt (hq : q ≤ data.length) (h : q + bs.length ≤ p) :
    (writeAt data q bs).drop p = data.drop p := by
  obtain ⟨k, rfl⟩ := Nat.exists_eq_add_of_le h
  have hlen : (data.take q ++ bs).length = q + bs.length := by
    rw [List.length_append, List.length_take]
    omega
  rw [writeAt, ← hlen, List.drop_length_add_append, hlen, List.drop_drop]

theorem drop_writeAt_self (hq : q ≤ data.length) :
    (writeAt data q bs).drop q = bs ++ data.drop (q + bs.length) := by
  rw [writeAt, List.append_assoc, List.drop_left' (by rw [List.length_take]; omega)]

end Writing

theorem drop_widen : ∀ (n : Nat) {data : List UInt8} {p : Nat}, 4 * n ≤ data.length → 4 * n ≤ p →
    (widen n data).drop p = data.drop p := by
  intro n
  induction n with
  | zero => intro data p _ _; rfl
  | succ n ih =>
    intro data p hlen hp
    have hfits : 4 * n + (toLE 4 (signMagnitude (data.getD n 0) % 2 ^ 32).toNat).length ≤
        data.length := by
      rw [length_toLE]
      omega
    rw [widen, ih (by rw [length_writeAt hfits]; omega) (by omega),
      drop_writeAt (by omega) (by rw [length_toLE]; omega)]

/-- **Every byte is read before it is overwritten.** -/
theorem offsetAt_widen : ∀ (n : Nat) {data : List UInt8}, 4 * n ≤ data.length → ∀ i < n,
    offsetAt (widen n data) i = signMagnitude (data.getD i 0) := by
  intro n
  induction n with
  | zero => intro data _ i hi; exact absurd hi (Nat.not_lt_zero i)
  | succ n ih =>
    intro data hlen i hi
    have hlen4 := length_toLE 4 (signMagnitude (data.getD n 0) % 2 ^ 32).toNat
    have hsame := @length_writeAt data (toLE 4 (signMagnitude (data.getD n 0) % 2 ^ 32).toNat)
      (4 * n) (by omega)
    rw [widen]
    rcases Nat.lt_succ_iff_lt_or_eq.mp hi with hin | rfl
    · rw [ih (by omega) i hin, getD_writeAt (by omega) (by omega)]
    · have hvalue := signMagnitude_range (data.getD i 0)
      have hmod : (((signMagnitude (data.getD i 0) % 2 ^ 32).toNat : Nat) : Int) =
          signMagnitude (data.getD i 0) % 2 ^ 32 :=
        Int.toNat_of_nonneg (Int.emod_nonneg _ (by norm_num))
      rw [offsetAt, drop_widen i (by omega) (Nat.le_refl _), drop_writeAt_self (by omega),
        List.take_left' hlen4, ofLE_toLE_of_lt (by norm_num; omega), hmod]
      rw [← toInt32_of_lt (n := signMagnitude (data.getD i 0)) (by omega) (by omega),
        toInt32_eq_iff,
        toInt32_of_lt (by omega) (by omega)]
      omega

/-! ## The most common offset -/

/-- What the loop over `offset_list` has found below `k`. -/
def foundBelow (offsets : List Int) (k : Nat) : Nat × Int :=
  (List.range k).foldl (fun (found : Nat × Int) (j : Nat) =>
    if offsets.count ((j : Int) - 128) > found.1 then
      (offsets.count ((j : Int) - 128), (j : Int) - 128)
    else found) (0, 0)

theorem foundBelow_succ (offsets : List Int) (k : Nat) : foundBelow offsets (k + 1) =
    if offsets.count ((k : Int) - 128) > (foundBelow offsets k).1 then
      (offsets.count ((k : Int) - 128), (k : Int) - 128)
    else foundBelow offsets k := by
  rw [foundBelow, List.range_succ, List.foldl_append]
  rfl

/-- The least of the values below `k` that occur most often. -/
theorem foundBelow_spec (offsets : List Int) : ∀ k : Nat,
    (∀ j < k, offsets.count ((j : Int) - 128) ≤ (foundBelow offsets k).1) ∧
      (foundBelow offsets k = (0, 0) ∨ ∃ j < k,
        foundBelow offsets k = (offsets.count ((j : Int) - 128), (j : Int) - 128) ∧
          0 < offsets.count ((j : Int) - 128) ∧
            ∀ i < j, offsets.count ((i : Int) - 128) < offsets.count ((j : Int) - 128)) := by
  intro k
  induction k with
  | zero => exact ⟨fun j hj => absurd hj (Nat.not_lt_zero j), .inl rfl⟩
  | succ k ih =>
    obtain ⟨hmax, hleast⟩ := ih
    rw [foundBelow_succ]
    split
    · next hmore =>
      refine ⟨fun j hj => ?_,
        .inr ⟨k, Nat.lt_succ_self k, rfl, Nat.zero_lt_of_lt hmore, fun i hi => ?_⟩⟩
      · rcases Nat.lt_succ_iff_lt_or_eq.mp hj with hj | rfl
        · exact (hmax j hj).trans (Nat.le_of_lt hmore)
        · exact Nat.le_refl _
      · exact Nat.lt_of_le_of_lt (hmax i hi) hmore
    · next hless =>
      refine ⟨fun j hj => ?_, ?_⟩
      · rcases Nat.lt_succ_iff_lt_or_eq.mp hj with hj | rfl
        · exact hmax j hj
        · exact Nat.not_lt.mp hless
      · rcases hleast with hzero | ⟨j, hj, hfound⟩
        · exact .inl hzero
        · exact .inr ⟨j, Nat.lt_succ_of_lt hj, hfound⟩

/-- **The loop finds a most common value.** -/
theorem isMode_mostCommon {offsets : List Int} (hne : offsets ≠ [])
    (hrange : ∀ v ∈ offsets, -128 ≤ v ∧ v ≤ 127) : IsMode (mostCommon offsets) offsets := by
  obtain ⟨hmax, hleast⟩ := foundBelow_spec offsets 256
  have hcount : ∀ w, offsets.count w ≤ (foundBelow offsets 256).1 := by
    intro w
    by_cases hw : w ∈ offsets
    · obtain ⟨hlow, hhigh⟩ := hrange w hw
      have hplace := hmax (w + 128).toNat (by omega)
      rwa [show (((w + 128).toNat : Nat) : Int) - 128 = w by omega] at hplace
    · rw [List.count_eq_zero_of_not_mem hw]
      exact Nat.zero_le _
  obtain ⟨v, hv⟩ := List.exists_mem_of_ne_nil offsets hne
  have hpos := (List.count_pos_iff.mpr hv).trans_le (hcount v)
  rcases hleast with hzero | ⟨j, -, hfound, -, -⟩
  · rw [hzero] at hpos
    exact absurd hpos (Nat.lt_irrefl 0)
  · have hmode : mostCommon offsets = (j : Int) - 128 := congrArg Prod.snd hfound
    rw [hfound] at hpos hcount
    rw [hmode]
    exact ⟨List.count_pos_iff.mp hpos, hcount⟩

theorem mostCommon_eq_zero {offsets : List Int} (hpos : ∀ v ∈ offsets, 0 ≤ v)
    (hzero : ∀ v, offsets.count v ≤ offsets.count 0) : mostCommon offsets = 0 := by
  obtain ⟨-, hnone | ⟨j, -, hfound, hcount, hleast⟩⟩ := foundBelow_spec offsets 256
  · exact congrArg Prod.snd hnone
  · have hmode : mostCommon offsets = (j : Int) - 128 := congrArg Prod.snd hfound
    have hle : ¬ 128 < j := fun hj => absurd (hleast 128 hj) (Nat.not_lt.mpr (hzero _))
    have hge := hpos _ (List.count_pos_iff.mp hcount)
    rw [hmode]
    omega

/-! ## The frames of a subtitle -/

/-- The values of `count` frames from `first` on. -/
def frameValues (points : List UInt8) (first count : Nat) : List Int :=
  (List.range' first count).map fun i => signMagnitude (points.getD i 0)

/-- A header that is accepted. -/
structure Accepted (header : List UInt8) : Prop where
  length : header.length = offsetHeaderSize
  version : headerField header 1 = 1
  magic : header.take 4 = ascii ['o', 'f', 'f', 's']
  fits : headerField header 2 ≤ 512000

/-- `point_count`, and the two halves of the frame rate. -/
abbrev pointCount (header : List UInt8) : Nat := headerField header 2

abbrev fpsNumerator (header : List UInt8) : Nat := headerField header 3

abbrev fpsDenumerator (header : List UInt8) : Nat := headerField header 4

def rightFrame (header : List UInt8) (time : Int) : Int :=
  time * fpsNumerator header / (1000 * fpsDenumerator header)

def codeFrame (header : List UInt8) (time : Int) : Int :=
  (toInt32 (time * quotientFps (fpsNumerator header) (fpsDenumerator header))).tdiv 1001

structure InFile (header : List UInt8) (e : SubtitleIndex) : Prop where
  rate : fpsDenumerator header ≠ 0
  first : 0 ≤ rightFrame header e.timeStart
  order : rightFrame header e.timeStart ≤ rightFrame header e.timeEnd
  last : rightFrame header e.timeEnd < pointCount header

/-- **Offsets come from the right frames**, for any points behind the header: the file is read,
each integer is the value of its byte, and a subtitle in the file gets a most common value of
its frames. -/
structure AssignsModes (s : SrtParser) (stack heap header points rest : List UInt8) : Prop where
  widened : ∃ fps data, loadOffsetData stack heap (header ++ (points ++ rest)) =
      some (fps, pointCount header, data) ∧
    ∀ i < pointCount header, offsetAt data i = signMagnitude (points.getD i 0)
  assigned : ∃ s', s.loadOffsetMetadata stack heap (header ++ (points ++ rest)) = some (s', 0) ∧
    ∀ (i : Nat) (e : SubtitleIndex), s.mIndex[i]? = some e → InFile header e →
      ∃ e', s'.mIndex[i]? = some e' ∧ e'.hasOffset = true ∧
        IsMode e'.offset (frameValues points (rightFrame header e.timeStart).toNat
          (rightFrame header e.timeEnd - rightFrame header e.timeStart + 1).toNat)

/-- The frames are in the file, but begin in front of it. -/
def ReadsBefore (header : List UInt8) (e : SubtitleIndex) : Prop :=
  codeFrame header e.timeStart < 0 ∧ codeFrame header e.timeStart ≤ codeFrame header e.timeEnd ∧
    codeFrame header e.timeEnd < pointCount header

/-- The frames are the right ones, or the code takes one of the right two. -/
def SameFrames (header : List UInt8) (e : SubtitleIndex) : Prop :=
  (codeFrame header e.timeStart = rightFrame header e.timeStart ∧
      codeFrame header e.timeEnd = rightFrame header e.timeEnd) ∨
    (codeFrame header e.timeStart = codeFrame header e.timeEnd ∧
      rightFrame header e.timeEnd = rightFrame header e.timeStart + 1 ∧
      (codeFrame header e.timeStart = rightFrame header e.timeStart ∨
        codeFrame header e.timeStart = rightFrame header e.timeEnd))

/-! ## What the code assigns -/

section Loaded

variable {s : SrtParser} {stack heap header points rest : List UInt8} {e : SubtitleIndex}

theorem headerField_append (h : header.length = offsetHeaderSize) {i : Nat} (hi : i ≤ 4)
    (behind : List UInt8) : headerField (header ++ behind) i = headerField header i := by
  have hlen : header.length = 20 := h
  rw [headerField, headerField, List.drop_append_of_le_length (by omega),
    List.take_append_of_le_length (by rw [List.length_drop]; omega)]

theorem loadOffsetData_of_accepted (h : Accepted header)
    (hpoints : points.length = pointCount header)
    (stack heap rest : List UInt8) :
    loadOffsetData stack heap (header ++ (points ++ rest)) =
      some (quotientFps (fpsNumerator header) (fpsDenumerator header), pointCount header,
        widen (pointCount header) (overlay points heap)) := by
  have hlen : header.length = 20 := h.length
  have hread : overlay ((header ++ (points ++ rest)).take offsetHeaderSize) stack =
      header ++ stack.drop header.length := by
    rw [List.take_left' h.length, overlay]
  have hmagic : (header ++ stack.drop header.length).take 4 = header.take 4 :=
    List.take_append_of_le_length (by omega)
  have hframes : ((header ++ (points ++ rest)).drop offsetHeaderSize).take (pointCount header) =
      points := by
    rw [List.drop_left' h.length, List.take_left' hpoints]
  unfold loadOffsetData
  dsimp only
  rw [hread, hmagic, headerField_append h.length (by omega), headerField_append h.length (by omega),
    headerField_append h.length (by omega), headerField_append h.length (by omega), hframes,
    if_neg (not_not.mpr h.version), if_neg (not_not.mpr h.magic), if_neg (Nat.not_lt.mpr h.fits),
    if_neg (not_not.mpr hpoints)]

theorem offsetAt_points (h : Accepted header) (hheap : heap.length = 2048000)
    (hpoints : points.length = pointCount header) {i : Nat} (hi : i < pointCount header) :
    offsetAt (widen (pointCount header) (overlay points heap)) i =
      signMagnitude (points.getD i 0) := by
  have hfits : pointCount header ≤ 512000 := h.fits
  rw [offsetAt_widen _ (by
    rw [overlay, List.length_append, List.length_drop]
    omega) i hi, overlay, List.getD_eq_getElem?_getD, List.getElem?_append_left (by omega),
    List.getD_eq_getElem?_getD]

theorem setOffset_points (h : Accepted header) (hheap : heap.length = 2048000)
    (hpoints : points.length = pointCount header) :
    setOffset (quotientFps (fpsNumerator header) (fpsDenumerator header)) (pointCount header)
      (widen (pointCount header) (overlay points heap)) e =
        if codeFrame header e.timeStart < pointCount header ∧
            codeFrame header e.timeEnd < pointCount header then
          if codeFrame header e.timeStart < 0 ∧
              codeFrame header e.timeStart ≤ codeFrame header e.timeEnd then none
          else
            some { e with
              hasOffset := true
              offset := mostCommon (frameValues points (codeFrame header e.timeStart).toNat
                (codeFrame header e.timeEnd - codeFrame header e.timeStart + 1).toNat) }
        else some e := by
  unfold setOffset
  dsimp only
  change (if codeFrame header e.timeStart < pointCount header ∧
    codeFrame header e.timeEnd < pointCount header then _ else _) = _
  split
  · next hin =>
    change (if codeFrame header e.timeStart < 0 ∧
      codeFrame header e.timeStart ≤ codeFrame header e.timeEnd then _ else _) = _
    split
    · rfl
    · next hpos =>
      have hvalues : ((List.range (codeFrame header e.timeEnd -
          codeFrame header e.timeStart + 1).toNat).map fun k =>
            offsetAt (widen (pointCount header) (overlay points heap))
              ((codeFrame header e.timeStart).toNat + k)) =
          frameValues points (codeFrame header e.timeStart).toNat
            (codeFrame header e.timeEnd - codeFrame header e.timeStart + 1).toNat := by
        rw [frameValues, List.range'_eq_map_range, List.map_map]
        refine List.map_congr_left fun k hk => ?_
        rw [List.mem_range] at hk
        exact offsetAt_points h hheap hpoints (by omega)
      exact congrArg (fun values => some { e with hasOffset := true, offset := mostCommon values })
        hvalues
  · rfl

theorem frameValues_range (points : List UInt8) (first count : Nat) :
    ∀ v ∈ frameValues points first count, -128 ≤ v ∧ v ≤ 127 := by
  intro v hv
  obtain ⟨i, -, rfl⟩ := List.mem_map.mp hv
  have hrange := signMagnitude_range (points.getD i 0)
  omega

/-- With the same frames, or one of two, what is found is most common. -/
theorem isMode_of_sameFrames (hin : InFile header e) (hsame : SameFrames header e) :
    IsMode (mostCommon (frameValues points (codeFrame header e.timeStart).toNat
        (codeFrame header e.timeEnd - codeFrame header e.timeStart + 1).toNat))
      (frameValues points (rightFrame header e.timeStart).toNat
        (rightFrame header e.timeEnd - rightFrame header e.timeStart + 1).toNat) := by
  have hfirst := hin.first
  have horder := hin.order
  rcases hsame with ⟨hstart, hend⟩ | ⟨hone, htwo, hplace⟩
  · rw [hstart, hend]
    refine isMode_mostCommon ?_ (frameValues_range _ _ _)
    rw [frameValues, ne_eq, List.map_eq_nil_iff, List.range'_eq_nil_iff]
    omega
  · rw [← hone, show (codeFrame header e.timeStart - codeFrame header e.timeStart + 1).toNat = 1 by
      omega]
    obtain ⟨i, hi⟩ : ∃ i, i = (codeFrame header e.timeStart).toNat := ⟨_, rfl⟩
    rw [← hi]
    have hmem : mostCommon (frameValues points i 1) ∈ frameValues points i 1 :=
      (isMode_mostCommon (by simp [frameValues]) (frameValues_range _ _ _)).1
    refine isMode_of_length_le ?_ ?_
    · rw [show frameValues points i 1 = [signMagnitude (points.getD i 0)] from rfl,
        List.mem_singleton] at hmem
      rw [show frameValues points i 1 = [signMagnitude (points.getD i 0)] from rfl, hmem,
        frameValues,
        List.mem_map]
      exact ⟨i, List.mem_range'_1.mpr (by omega), rfl⟩
    · rw [frameValues, List.length_map, List.length_range']
      omega

/-- The points with the values of `f`. -/
def pointsOf (n : Nat) (f : Nat → Nat) : List UInt8 := (List.range n).map fun i => UInt8.ofNat (f i)

theorem length_pointsOf (n : Nat) (f : Nat → Nat) : (pointsOf n f).length = n := by
  rw [pointsOf, List.length_map, List.length_range]

theorem signMagnitude_pointsOf {n : Nat} {f : Nat → Nat} (hf : ∀ i, f i ≤ 2) {i : Nat}
    (hi : i < n) :
    signMagnitude ((pointsOf n f).getD i 0) = f i := by
  have hsmall : ∀ v ≤ 2, signMagnitude (UInt8.ofNat v) = v := by decide
  rw [List.getD_eq_getElem?_getD, pointsOf, List.getElem?_map, List.getElem?_range hi]
  exact hsmall (f i) (hf i)

theorem count_frameValues {n : Nat} {f : Nat → Nat} (hf : ∀ i, f i ≤ 2) {first count : Nat}
    (hlast : first + count ≤ n) (v : Nat) :
    (frameValues (pointsOf n f) first count).count (v : Int) =
      occurs f (List.range' first count).toFinset v := by
  refine count_map_eq_occurs List.nodup_range' (fun i hi => ?_) v
  rw [List.mem_range'_1] at hi
  exact signMagnitude_pointsOf hf (by omega)

/-- Places that follow each other begin and end where they do. -/
theorem range'_of_toFinset_eq {c n r m : Nat} (hm : 0 < m)
    (h : (List.range' c n).toFinset = (List.range' r m).toFinset) : c = r ∧ n = m := by
  have hmem : ∀ i, i ∈ List.range' c n ↔ i ∈ List.range' r m := fun i => by
    rw [← List.mem_toFinset, h, List.mem_toFinset]
  simp only [List.mem_range'_1] at hmem
  have h₁ := hmem r
  have h₂ := hmem (r + m - 1)
  have h₃ := hmem c
  have h₄ := hmem (c + n - 1)
  omega

/-- **With other frames some points get a wrong offset.** -/
theorem exists_wrong_points (hin : InFile header e) (hother : ¬ SameFrames header e)
    (hend : codeFrame header e.timeEnd < pointCount header)
    (hbefore : ¬ ReadsBefore header e) :
    ∃ points : List UInt8, points.length = pointCount header ∧
      ¬ IsMode (mostCommon (frameValues points (codeFrame header e.timeStart).toNat
          (codeFrame header e.timeEnd - codeFrame header e.timeStart + 1).toNat))
        (frameValues points (rightFrame header e.timeStart).toNat
          (rightFrame header e.timeEnd - rightFrame header e.timeStart + 1).toNat) := by
  have hfirst := hin.first
  have horder := hin.order
  have hlast := hin.last
  obtain ⟨c, hc⟩ : ∃ c, c = (codeFrame header e.timeStart).toNat := ⟨_, rfl⟩
  obtain ⟨n, hn⟩ : ∃ n, n = (codeFrame header e.timeEnd - codeFrame header e.timeStart + 1).toNat :=
    ⟨_, rfl⟩
  obtain ⟨r, hr⟩ : ∃ r, r = (rightFrame header e.timeStart).toNat := ⟨_, rfl⟩
  obtain ⟨m, hm⟩ :
      ∃ m, m = (rightFrame header e.timeEnd - rightFrame header e.timeStart + 1).toNat :=
    ⟨_, rfl⟩
  rw [← hc, ← hn, ← hr, ← hm]
  unfold ReadsBefore at hbefore
  unfold SameFrames at hother
  have hcode : ∀ i ∈ List.range' c n, i < pointCount header := by
    intro i hi
    rw [List.mem_range'_1] at hi
    omega
  have hne : (List.range' c n).toFinset ≠ (List.range' r m).toFinset := by
    intro heq
    obtain ⟨hcr, hnm⟩ := range'_of_toFinset_eq (by omega) heq
    omega
  have hone : ¬ ((List.range' c n).toFinset.card = 1 ∧ (List.range' r m).toFinset.card = 2 ∧
      (List.range' c n).toFinset ⊆ (List.range' r m).toFinset) := by
    rw [List.toFinset_card_of_nodup List.nodup_range', List.length_range',
      List.toFinset_card_of_nodup List.nodup_range', List.length_range']
    rintro ⟨hn1, hm2, hsub⟩
    have hplace := hsub (List.mem_toFinset.mpr (List.mem_range'_1.mpr ⟨le_refl c, by omega⟩))
    rw [List.mem_toFinset, List.mem_range'_1] at hplace
    omega
  have hnonempty : (List.range' r m).toFinset.Nonempty :=
    ⟨r, List.mem_toFinset.mpr (List.mem_range'_1.mpr (by omega))⟩
  obtain ⟨f, hf, hzero, v, hv, hless⟩ := exists_wrong_mode hnonempty hne hone
  refine ⟨pointsOf (pointCount header) f, length_pointsOf _ _, ?_⟩
  have hvalue : ∀ w ∈ frameValues (pointsOf (pointCount header) f) c n, ∃ i, w = (f i : Int) := by
    intro w hw
    obtain ⟨i, hi, rfl⟩ := List.mem_map.mp hw
    exact ⟨i, signMagnitude_pointsOf hf (hcode i hi)⟩
  have hcfits : n = 0 ∨ c + n ≤ pointCount header := by omega
  have hcount : ∀ w : Nat, (frameValues (pointsOf (pointCount header) f) c n).count (w : Int) =
      occurs f (List.range' c n).toFinset w := by
    intro w
    rcases hcfits with hnone | hfits
    · rw [hnone]
      simp [frameValues, occurs]
    · exact count_frameValues hf hfits w
  have hfound : mostCommon (frameValues (pointsOf (pointCount header) f) c n) = 0 := by
    refine mostCommon_eq_zero (fun w hw => ?_) fun w => ?_
    · obtain ⟨i, rfl⟩ := hvalue w hw
      omega
    · by_cases hw : w ∈ frameValues (pointsOf (pointCount header) f) c n
      · obtain ⟨i, rfl⟩ := hvalue w hw
        rw [hcount]
        have hz := hcount 0
        rw [Nat.cast_zero] at hz
        rw [hz]
        exact hzero (f i)
      · rw [List.count_eq_zero_of_not_mem hw]
        exact Nat.zero_le _
  rw [hfound]
  rintro ⟨-, hmode⟩
  have hmore := hmode (v : Int)
  have hlast : r + m ≤ pointCount header := by omega
  have hz := count_frameValues hf hlast 0
  rw [Nat.cast_zero] at hz
  rw [hz, count_frameValues hf (by omega)] at hmore
  omega

theorem loadOffsetMetadata_points (h : Accepted header)
    (hpoints : points.length = pointCount header)
    (rest : List UInt8) : s.loadOffsetMetadata stack heap (header ++ (points ++ rest)) =
      (s.mIndex.mapM (setOffset (quotientFps (fpsNumerator header) (fpsDenumerator header))
        (pointCount header) (widen (pointCount header) (overlay points heap)))).map
          fun index => ({ s with mIndex := index }, 0) := by
  rw [SrtParser.loadOffsetMetadata, loadOffsetData_of_accepted h hpoints]

/-- **Offsets come from the right frames** for all points exactly when no subtitle makes the code
read in front of `offset_data`, and it takes the same frames, or one of the right two, for every
subtitle in the file. -/
theorem assignsModes_iff (h : Accepted header) (hheap : heap.length = 2048000) :
    (∀ points : List UInt8, points.length = pointCount header → ∀ rest,
        AssignsModes s stack heap header points rest) ↔
      (∀ e ∈ s.mIndex, ¬ ReadsBefore header e) ∧
        ∀ e ∈ s.mIndex, InFile header e → SameFrames header e := by
  constructor
  · intro hall
    have hturn : ∀ points : List UInt8, points.length = pointCount header → ∀ e ∈ s.mIndex,
        ∃ e', setOffset (quotientFps (fpsNumerator header) (fpsDenumerator header))
            (pointCount header) (widen (pointCount header) (overlay points heap)) e = some e' ∧
          (InFile header e → e'.hasOffset = true ∧
            IsMode e'.offset (frameValues points (rightFrame header e.timeStart).toNat
              (rightFrame header e.timeEnd - rightFrame header e.timeStart + 1).toNat)) := by
      intro points hpoints e he
      obtain ⟨s', hs', hmodes⟩ := (hall points hpoints []).assigned
      rw [loadOffsetMetadata_points h hpoints, Option.map_eq_some_iff] at hs'
      obtain ⟨index, hindex, hs'⟩ := hs'
      rw [Prod.mk.injEq] at hs'
      obtain ⟨rfl, -⟩ := hs'
      obtain ⟨i, hi⟩ := List.getElem?_of_mem he
      obtain ⟨e', he', hset⟩ := Fallible.getElem?_of_mapM hindex hi
      refine ⟨e', hset, fun hin => ?_⟩
      obtain ⟨e'', he'', hoffset, hmode⟩ := hmodes i e hi hin
      rw [he', Option.some.injEq] at he''
      subst he''
      exact ⟨hoffset, hmode⟩
    have hnot : ∀ e ∈ s.mIndex, ¬ ReadsBefore header e := by
      rintro e he ⟨hneg, horder, hlast⟩
      obtain ⟨e', hset, -⟩ := hturn (pointsOf (pointCount header) fun _ => 0) (length_pointsOf _ _)
        e he
      rw [setOffset_points h hheap (length_pointsOf _ _), if_pos ⟨by omega, hlast⟩,
        if_pos ⟨hneg, horder⟩] at hset
      cases hset
    refine ⟨hnot, fun e he hin => ?_⟩
    by_contra hother
    by_cases hfits : codeFrame header e.timeStart < pointCount header ∧
        codeFrame header e.timeEnd < pointCount header
    · obtain ⟨points, hpoints, hwrong⟩ :=
        exists_wrong_points hin hother hfits.2 (hnot e he)
      obtain ⟨e', hset, hright⟩ := hturn points hpoints e he
      have hbefore := hnot e he
      unfold ReadsBefore at hbefore
      rw [setOffset_points h hheap hpoints, if_pos hfits, if_neg (by omega),
        Option.some.injEq] at hset
      subst hset
      exact hwrong (hright hin).2
    · -- the old offset stays, and is no mode of zeros or of ones
      have hkept : ∀ v : Nat, v ≤ 2 → e.offset = (v : Int) := by
        intro v hv
        obtain ⟨e', hset, hright⟩ := hturn (pointsOf (pointCount header) fun _ => v)
          (length_pointsOf _ _) e he
        rw [setOffset_points h hheap (length_pointsOf _ _), if_neg hfits, Option.some.injEq] at hset
        subst hset
        obtain ⟨i, hi, hvalue⟩ := List.mem_map.mp (hright hin).2.1
        have hfirst := hin.first
        have horder := hin.order
        have hlast := hin.last
        rw [List.mem_range'_1] at hi
        rw [← hvalue]
        exact signMagnitude_pointsOf (fun _ => hv) (by omega)
      have h₀ := hkept 0 (by omega)
      have h₁ := hkept 1 (by omega)
      omega
  · rintro ⟨hnot, hsame⟩ points hpoints rest
    have hsome : ∀ e ∈ s.mIndex, (setOffset (quotientFps (fpsNumerator header)
        (fpsDenumerator header)) (pointCount header)
          (widen (pointCount header) (overlay points heap)) e).isSome := by
      intro e he
      have hbefore := hnot e he
      unfold ReadsBefore at hbefore
      rw [setOffset_points h hheap hpoints]
      split
      · rw [if_neg (by omega)]
        rfl
      · rfl
    obtain ⟨index, hindex⟩ := Option.isSome_iff_exists.mp (Fallible.isSome_mapM hsome)
    refine ⟨⟨_, _, loadOffsetData_of_accepted h hpoints .., fun i hi =>
      offsetAt_points h hheap hpoints hi⟩, { s with mIndex := index }, ?_, fun i e hi hin => ?_⟩
    · rw [loadOffsetMetadata_points h hpoints, hindex]
      rfl
    · obtain ⟨e', he', hset⟩ := Fallible.getElem?_of_mapM hindex hi
      have hmem := List.mem_of_getElem? hi
      have hframes := hsame e hmem hin
      have hbefore := hnot e hmem
      have hfirst := hin.first
      have horder := hin.order
      have hlast := hin.last
      have hfits : codeFrame header e.timeStart < pointCount header ∧
          codeFrame header e.timeEnd < pointCount header := by
        unfold SameFrames at hframes
        omega
      unfold ReadsBefore at hbefore
      rw [setOffset_points h hheap hpoints, if_pos hfits, if_neg (by omega),
        Option.some.injEq] at hset
      subst hset
      exact ⟨_, he', rfl, isMode_of_sameFrames hin hframes⟩

end Loaded

/-- Four points at 24 frames a second. -/
def fourPoints : List UInt8 :=
  ascii ['o', 'f', 'f', 's'] ++ toLE 4 1 ++ toLE 4 4 ++ toLE 4 24 ++ toLE 4 1

/-- A subtitle at 125 ms, in the last of four frames. -/
def lastFrame : SrtParser :=
  { SrtParser.init 1 [97, 0] [] with mIndex := [⟨125, 125, 0, 0, false⟩] }

theorem accepted_fourPoints : Accepted fourPoints :=
  ⟨by decide, by decide, by decide, by decide⟩

theorem assignsModes_iff_fourPoints :
    (∀ points : List UInt8, points.length = pointCount fourPoints → ∀ rest,
        AssignsModes lastFrame [] (List.replicate 2048000 0) fourPoints points rest) ↔
      (∀ e ∈ lastFrame.mIndex, ¬ ReadsBefore fourPoints e) ∧
        ∀ e ∈ lastFrame.mIndex, InFile fourPoints e → SameFrames fourPoints e :=
  assignsModes_iff accepted_fourPoints List.length_replicate

/-- **At 125 ms the offset comes from the frame before.** -/
theorem last_frame_gets_wrong_offset :
    ¬ AssignsModes lastFrame [] (List.replicate 2048000 0) fourPoints [0, 0, 0, 1] [] := by
  rintro ⟨-, s', hs', hmodes⟩
  have hpoints : ([0, 0, 0, 1] : List UInt8).length = pointCount fourPoints := by decide
  have hin : InFile fourPoints ⟨125, 125, 0, 0, false⟩ :=
    ⟨by decide, by decide, by decide, by decide⟩
  obtain ⟨e', he', -, hmode⟩ := hmodes 0 _ rfl hin
  rw [loadOffsetMetadata_points accepted_fourPoints hpoints, Option.map_eq_some_iff] at hs'
  obtain ⟨index, hindex, hs'⟩ := hs'
  rw [Prod.mk.injEq] at hs'
  obtain ⟨rfl, -⟩ := hs'
  obtain ⟨e'', he'', hset⟩ := Fallible.getElem?_of_mapM hindex
    (show lastFrame.mIndex[0]? = some ⟨125, 125, 0, 0, false⟩ from rfl)
  rw [setOffset_points accepted_fourPoints List.length_replicate hpoints,
    if_pos (by decide),
    if_neg (by decide), Option.some.injEq] at hset
  rw [he', Option.some.injEq] at he''
  subst he'' hset
  exact absurd hmode.1 (by decide +kernel)

end DWindow.Srt
