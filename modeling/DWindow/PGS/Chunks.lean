import DWindow.Lib.Framing
import DWindow.PGS.Parser

/-!
# The stream may be cut anywhere

What `parse` does depends on the pending bytes alone.  `front` is one round of it
over a list of bytes, with no memory behind: skip a byte, take an element off or
wait.  A verdict of `front` stands when more bytes follow, so it is a `Framer`, and
`parse_refines` says that `parse` is its `consume`.  So two ways of cutting a
stream into calls of `add_data` end alike.
-/

namespace DWindow.PGS

open BigEndian Framing Runs

variable (yuv2rgb : UInt8 → UInt8 → UInt8 → UInt8 → UInt32)

/-! ## A handler depends on its payload -/

section Congr

variable {data data' : Nat → UInt8} {size : Nat} (h : ∀ i < size, data i = data' i)

include h

namespace Decoder

theorem present_congr (d : Decoder) (time : Int) :
    d.present data size time = d.present data' size time := by
  rw [present, present]
  by_cases hs : size ≥ 4
  · rw [if_pos hs, if_pos hs, readWORD_congr h (by omega), readWORD_congr h (by omega)]
  · rw [if_neg hs, if_neg hs]

theorem parseWindow_congr (d : Decoder) : d.parseWindow data size = d.parseWindow data' size := by
  rw [parseWindow, parseWindow]
  by_cases hs : size < 10
  · simp only [hs, or_true, if_true]
  · rw [h 0 (by omega), readWORD_congr h (p := 2) (by omega),
      readWORD_congr h (p := 4) (by omega), readWORD_congr h (p := 6) (by omega),
      readWORD_congr h (p := 8) (by omega)]

theorem parsePalette_congr (d : Decoder) :
    parsePalette yuv2rgb d data size = parsePalette yuv2rgb d data' size := by
  have hcolors : ∀ palette, setColors yuv2rgb data ((size - 2) / 5) palette =
      setColors yuv2rgb data' ((size - 2) / 5) palette := by
    intro palette
    refine List.foldl_ext _ _ _ (fun palette i hi => ?_)
    have hi := List.mem_range.mp hi
    rw [h (2 + 5 * i) (by omega), h (2 + 5 * i + 1) (by omega), h (2 + 5 * i + 2) (by omega),
      h (2 + 5 * i + 3) (by omega), h (2 + 5 * i + 4) (by omega)]
  rw [parsePalette, parsePalette]
  simp only [hcolors]

theorem bytesAt_congr (a : Nat) : bytesAt data a size = bytesAt data' a size := by
  refine List.map_congr_left (fun i hi => h (a + i) ?_)
  have := List.mem_range.mp hi
  omega

theorem parseObject_congr (d : Decoder) : d.parseObject data size = d.parseObject data' size := by
  rw [parseObject, parseObject]
  by_cases hs : size < 11
  · simp only [if_pos hs, bytesAt_congr h]
  · simp only [bytesAt_congr h, readWORD_congr h (p := 7) (by omega),
      readWORD_congr h (p := 9) (by omega)]

/-- **Nothing behind the payload counts.** -/
theorem parseRawElement_congr (d : Decoder) (type : UInt8) (start : Int) :
    d.parseRawElement yuv2rgb data type size start =
      d.parseRawElement yuv2rgb data' type size start := by
  have hpresent : ∀ d : Decoder, d.present data size start = d.present data' size start :=
    fun d => present_congr h d start
  rw [parseRawElement, parseRawElement, parseWindow_congr h, parsePalette_congr yuv2rgb h,
    parseObject_congr h, parsePresentaionSegment, parsePresentaionSegment]
  simp only [hpresent]

end Decoder

end Congr

/-! ## One round over a list of bytes -/

/-- The element at the front: its length in the stream, and the parser after it. -/
def element (d : Decoder) (data : Nat → UInt8) : Nat × Option Decoder :=
  (headerSize + readWORD data 11,
    (d.parseRawElement yuv2rgb (fun i => data (headerSize + i)) (data 10) (readWORD data 11)
      (readDWORD data 2 / 90 : Nat)).map Prod.fst)

theorem element_congr {data data' : Nat → UInt8} {n : Nat} (h : ∀ i < n, data i = data' i)
    (d : Decoder) (hn : headerSize + readWORD data 11 ≤ n) :
    element yuv2rgb d data = element yuv2rgb d data' := by
  have hheader : 13 ≤ n := Nat.le_trans (Nat.le_add_right _ _) hn
  have hsize := readWORD_congr h (p := 11) (by omega)
  have hpayload : ∀ i < readWORD data 11, data (headerSize + i) = data' (headerSize + i) :=
    fun i hi => h _ (by omega)
  rw [element, element, Decoder.parseRawElement_congr yuv2rgb hpayload, hsize, h 10 (by omega),
    readDWORD_congr h (p := 2) (by omega)]

/-- One round of `parse` over the pending bytes. -/
def front (d : Decoder) (s : List UInt8) : Option (Nat × Option Decoder) :=
  let data := fun i => s.getD i 0
  if s.length < 2 then none
  else if data 0 ≠ 80 ∨ data 1 ≠ 0x47 then some (1, some d)
  else if s.length < headerSize then none
  else if s.length < headerSize + readWORD data 11 then none
  else some (element yuv2rgb d data)

theorem getD_append_left {s : List UInt8} (t : List UInt8) : ∀ i < s.length,
    s.getD i 0 = (s ++ t).getD i 0 := by
  intro i hi
  rw [List.getD_eq_getElem?_getD, List.getD_eq_getElem?_getD, List.getElem?_append_left hi]

theorem front_pos_le {d : Decoder} {s : List UInt8} {n : Nat} {r : Option Decoder}
    (h : front yuv2rgb d s = some (n, r)) : 0 < n ∧ n ≤ s.length := by
  rw [front] at h
  dsimp only at h
  split at h
  · exact absurd h (by simp)
  · split at h
    · rw [Option.some.injEq, Prod.mk.injEq] at h
      omega
    · split at h
      · exact absurd h (by simp)
      · split at h
        · exact absurd h (by simp)
        · rw [element, Option.some.injEq, Prod.mk.injEq] at h
          rw [headerSize] at *
          omega

theorem front_stands {d : Decoder} {s : List UInt8} {n : Nat} {r : Option Decoder}
    (h : front yuv2rgb d s = some (n, r)) (t : List UInt8) :
    front yuv2rgb d (s ++ t) = some (n, r) := by
  have hget := getD_append_left (s := s) t
  rw [front] at h ⊢
  dsimp only at h ⊢
  rw [List.length_append]
  split at h
  · exact absurd h (by simp)
  · next h2 =>
    have h0 := hget 0 (by omega)
    have h1 := hget 1 (by omega)
    rw [if_neg (by omega)]
    split at h
    · next hmagic => rw [if_pos (by rwa [← h0, ← h1]), h]
    · next hmagic =>
      rw [if_neg (by rwa [← h0, ← h1])]
      split at h
      · exact absurd h (by simp)
      · next hheader =>
        have hsize := readWORD_congr hget (p := 11) (Nat.le_of_not_lt hheader)
        rw [if_neg (by omega), ← hsize]
        split at h
        · exact absurd h (by simp)
        · next hdata =>
          rw [if_neg (by omega), ← element_congr yuv2rgb hget d (by omega), h]

def pgsFramer : Framer Decoder UInt8 where
  front := front yuv2rgb
  pos_le := front_pos_le yuv2rgb
  stands := front_stands yuv2rgb

/-! ## The buffer -/

namespace PGSParser

/-- What lasts of a parser: the members but the buffer, and the pending bytes. -/
def view (p : PGSParser) : Decoder × List UInt8 := (p.toDecoder, p.pending)

theorem front_of_short {p : PGSParser} (h : p.mDataPos < 2) (d : Decoder) :
    front yuv2rgb d p.pending = none := by
  rw [front]
  exact if_pos (by rw [length_pending]; exact h)

theorem front_pending {p : PGSParser} (h : ¬ p.mDataPos < 2) (d : Decoder) :
    front yuv2rgb d p.pending =
      if p.mData 0 ≠ 80 ∨ p.mData 1 ≠ 0x47 then some (1, some d)
      else if p.mDataPos < headerSize then none
      else if p.mDataPos < headerSize + readWORD p.mData 11 then none
      else some (element yuv2rgb d p.mData) := by
  have hget : ∀ i < p.mDataPos, p.mData i = p.pending.getD i 0 := fun i hi => (getD_pending hi).symm
  have h0 := hget 0 (by omega)
  have h1 := hget 1 (by omega)
  rw [front]
  dsimp only
  rw [length_pending, if_neg h]
  by_cases hmagic : p.mData 0 ≠ 80 ∨ p.mData 1 ≠ 0x47
  · rw [if_pos hmagic, if_pos (by rwa [← h0, ← h1])]
  · rw [if_neg hmagic, if_neg (by rwa [← h0, ← h1])]
    by_cases hheader : p.mDataPos < headerSize
    · rw [if_pos hheader, if_pos hheader]
    · rw [if_neg hheader, if_neg hheader,
        readWORD_congr hget (p := 11) (Nat.le_of_not_lt hheader)]
      split
      · rfl
      · next hdata =>
        rw [element_congr yuv2rgb hget d]
        rw [readWORD_congr hget (p := 11) (Nat.le_of_not_lt hheader)]
        exact Nat.le_of_not_lt hdata

/-- **The search for a header** skips what the framer skips. -/
theorem findHeader_refines : ∀ (fuel : Nat) (p : PGSParser), p.mDataPos < fuel →
    (findHeader fuel p).1.toDecoder = p.toDecoder ∧
    (findHeader fuel p).1.mDataPos ≤ p.mDataPos ∧
    consume (pgsFramer yuv2rgb) p.toDecoder p.pending =
      consume (pgsFramer yuv2rgb) p.toDecoder (findHeader fuel p).1.pending ∧
    if (findHeader fuel p).2 then
      (findHeader fuel p).1.mData 0 = 80 ∧ (findHeader fuel p).1.mData 1 = 0x47
    else (findHeader fuel p).1.mDataPos < 2 := by
  intro fuel
  induction fuel with
  | zero => intro p h; exact absurd h (Nat.not_lt_zero _)
  | succ fuel ih =>
    intro p hp
    rw [findHeader]
    by_cases hmagic : p.mData 0 ≠ 80 ∨ p.mData 1 ≠ 0x47
    · rw [if_pos hmagic]
      by_cases h2 : p.mDataPos < 2
      · rw [if_pos h2]
        exact ⟨rfl, Nat.le_refl _, rfl, h2⟩
      · rw [if_neg h2]
        have hpos : (p.removeHead 1).mDataPos = p.mDataPos - 1 := rfl
        obtain ⟨hd, hle, hconsume, hfound⟩ := ih (p.removeHead 1) (by omega)
        refine ⟨hd, by omega, ?_, hfound⟩
        have hskip : (pgsFramer yuv2rgb).front p.toDecoder p.pending =
            some (1, some p.toDecoder) := (front_pending yuv2rgb h2 _).trans (if_pos hmagic)
        rw [consume_take hskip, ← pending_removeHead]
        exact hconsume
    · rw [if_neg hmagic]
      rw [not_or, not_not, not_not] at hmagic
      exact ⟨rfl, Nat.le_refl _, rfl, hmagic⟩

/-- **`parse` takes elements off as the framer does**, whatever stands behind the
pending bytes. -/
theorem parse_refines : ∀ (fuel : Nat) (p : PGSParser), p.mDataPos < fuel →
    (parse yuv2rgb fuel p).map view = consume (pgsFramer yuv2rgb) p.toDecoder p.pending := by
  intro fuel
  induction fuel with
  | zero => intro p h; exact absurd h (Nat.not_lt_zero _)
  | succ fuel ih =>
    intro p hp
    rw [parse]
    by_cases h2 : p.mDataPos < 2
    · rw [if_pos h2, consume_wait (front_of_short yuv2rgb h2 _)]
      rfl
    rw [if_neg h2]
    obtain ⟨hd, hle, hconsume, hfound⟩ :=
      findHeader_refines yuv2rgb (p.mDataPos + 1) p (Nat.lt_succ_self _)
    rw [hconsume]
    obtain ⟨⟨q, found⟩, hq⟩ : ∃ r, r = findHeader (p.mDataPos + 1) p := ⟨_, rfl⟩
    rw [← hq] at hd hle hfound ⊢
    dsimp only at hd hle hfound ⊢
    have hwait : front yuv2rgb q.toDecoder q.pending = none →
        (some q).map view = consume (pgsFramer yuv2rgb) p.toDecoder q.pending := by
      intro h
      rw [← hd, consume_wait h]
      rfl
    cases found with
    | false => exact hwait (front_of_short yuv2rgb hfound _)
    | true =>
      rw [if_neg (by decide)]
      by_cases hq2 : q.mDataPos < 2
      · rw [if_pos (by rw [headerSize]; omega)]
        exact hwait (front_of_short yuv2rgb hq2 _)
      have hfront := front_pending yuv2rgb hq2 q.toDecoder
      rw [if_neg (by rw [hfound.1, hfound.2]; decide)] at hfront
      split
      · next hheader => exact hwait (by rw [hfront, if_pos hheader])
      next hheader =>
      rw [if_neg hheader] at hfront
      split
      · next hdata => exact hwait (by rw [hfront, if_pos hdata])
      next hdata =>
      rw [if_neg hdata, element] at hfront
      rw [← hd]
      cases hnext : q.toDecoder.parseRawElement yuv2rgb (fun i => q.mData (headerSize + i))
          (q.mData 10) (readWORD q.mData 11) (readDWORD q.mData 2 / 90 : Nat) with
      | none =>
        rw [hnext] at hfront
        rw [consume_fail hfront]
        rfl
      | some r =>
        obtain ⟨d, hr⟩ := r
        rw [hnext] at hfront
        rw [consume_take hfront]
        have hrest := ih ({ q with toDecoder := d }.removeHead (headerSize + readWORD q.mData 11))
          (by
            show q.mDataPos - (headerSize + readWORD q.mData 11) < fuel
            rw [headerSize]
            omega)
        rw [pending_removeHead] at hrest
        exact hrest

/-! ## Calls of `add_data` -/

/-- The call does not reach the end of the buffer. -/
def Room (p : PGSParser) (data : List UInt8) : Prop := p.mDataPos + data.length < bufferSize

theorem addData_refines (p : PGSParser) (data : List UInt8) (h : p.Room data) :
    (addData yuv2rgb p data).map view =
      consume (pgsFramer yuv2rgb) p.view.1 (p.view.2 ++ data) := by
  rw [addData, if_neg (Nat.not_le_of_lt h)]
  exact (parse_refines yuv2rgb _ (p.append data) (Nat.lt_succ_self _)).trans
    (congrArg _ (pending_append p data))

/-- **The stream may be cut anywhere**: two parsers that differ only in the memory
behind an empty buffer, fed one stream in two ways, end with the same members and
the same pending bytes, or both crash. -/
theorem addData_cut_anywhere : ∀ (p q : PGSParser) (cs ds : List (List UInt8)),
    p.toDecoder = q.toDecoder → p.mDataPos = 0 → q.mDataPos = 0 → cs.flatten = ds.flatten →
    Along (deliver (addData yuv2rgb)) (Fits Room) (some p) cs →
    Along (deliver (addData yuv2rgb)) (Fits Room) (some q) ds →
    (run (deliver (addData yuv2rgb)) (some p) cs).map view =
      (run (deliver (addData yuv2rgb)) (some q) ds).map view := by
  intro p q cs ds hpq hp hq hs hcs hds
  have hempty : ∀ r : PGSParser, r.mDataPos = 0 → r.pending = [] := by
    intro r hr
    rw [pending, hr]
    rfl
  have hwait : ∀ r : PGSParser, r.mDataPos = 0 →
      (pgsFramer yuv2rgb).front r.view.1 r.view.2 = none := by
    intro r hr
    exact front_of_short yuv2rgb (by omega) _
  rw [consume_run (addData_refines yuv2rgb) cs p (hwait p hp) hcs,
    consume_run (addData_refines yuv2rgb) ds q (hwait q hq) hds, hs]
  show consume _ p.toDecoder (p.pending ++ _) = consume _ q.toDecoder (q.pending ++ _)
  rw [hempty p hp, hempty q hq, hpq]

theorem fits_of_pos {c : Option PGSParser} {piece : List UInt8} {n : Nat}
    (h : c.map mDataPos = some n) (hn : n + piece.length < bufferSize) : Fits Room c piece := by
  intro p hp
  rw [hp, Option.map_some, Option.some.injEq] at h
  rw [Room, h]
  exact hn

def fresh (stale : UInt8) : PGSParser :=
  ⟨⟨0, 0, [], 0, .empty, false⟩, fun _ => stale, 0⟩

/-- A stray `P`, a presentation segment of four bytes, and the start of the next
element. -/
def sample : List UInt8 :=
  [80, 80, 0x47, 0, 0, 0, 90, 0, 0, 0, 90, 0x16, 0, 4, 7, 128, 4, 56, 80]

/-- A cut inside the magic and one inside the payload, and no cut. -/
theorem addData_cut_anywhere_sample :
    (run (deliver (addData fun _ _ _ _ => 0)) (some (fresh 0x47))
        [sample.take 2, (sample.take 16).drop 2, sample.drop 16]).map view =
      (run (deliver (addData fun _ _ _ _ => 0)) (some (fresh 80)) [sample]).map view := by
  refine addData_cut_anywhere _ (fresh 0x47) (fresh 80) _ _ rfl rfl rfl rfl
    ⟨?_, ?_, ?_, trivial⟩ ⟨?_, trivial⟩
  · exact fits_of_pos (n := 0) rfl (by decide)
  · exact fits_of_pos (n := 1) (by decide) (by decide)
  · exact fits_of_pos (n := 15) (by decide) (by decide)
  · exact fits_of_pos (n := 0) rfl (by decide)

end PGSParser

end DWindow.PGS
