import DWindow.Lib.ByteFile
import DWindow.Lib.CInt
import DWindow.Lib.ByteOrder
import DWindow.Lib.Orbit

/-!
# The markers of an MPO file

`MPOParser.cpp`: `parseFile` goes from marker to marker until it finds an APP2 block of the
multi-picture format or stands behind the end.  At the end the length of a block is read as 0,
and `fseek` goes back by two bytes: from the last two bytes of a file the scan comes back to
them.  `parse_ends_iff` says when it ends.

A `long` and an `int` have 32 bits; `ftell` returns -1 where the position is too large for one,
and `fseek` to a negative place fails.
-/

namespace DWindow.Mpo

open CInt LittleEndian Orbit

/-! ## The file -/

/-- `swapendian` on one pair of bytes. -/
def swapPair (a b : UInt8) : UInt8 × UInt8 :=
  let a := b ^^^ a
  let b := a ^^^ b
  let a := b ^^^ a
  (a, b)

def swapendian : List UInt8 → List UInt8
  | [a, b] => [(swapPair a b).1, (swapPair a b).2]
  | [a, b, c, d] => [(swapPair a d).1, (swapPair b c).1, (swapPair b c).2, (swapPair a d).2]
  | bytes => bytes

def ftell (f : ByteFile) : Int := if f.pos < 2 ^ 31 then f.pos else -1

/-- `fseek` with `SEEK_SET`. -/
def fseekSet (f : ByteFile) (offset : Int) : ByteFile :=
  if offset < 0 then f else f.seekSet offset.toNat

/-- `fseek` with `SEEK_CUR`. -/
def fseekCur (f : ByteFile) (offset : Int) : ByteFile := f.seekSet (f.pos + offset).toNat

/-- `fsize`: the size, and the file afterwards. -/
def fsize (f : ByteFile) : Int × ByteFile :=
  let pos := toDWORD (ftell f)
  let o := toDWORD (ftell f.seekEnd)
  (toInt32 o, fseekSet f.seekEnd (toInt32 pos))

/-- What `read2` and `read4` have in common: a number of `size` bytes, and the file behind it. -/
def readNumber (size : Nat) (f : ByteFile) (isLittleEndian : Bool) : Nat × ByteFile :=
  let o := ByteFile.overlay (f.readBytes size) (List.replicate size 0)
  (ofLE (if isLittleEndian then o else swapendian o), f.afterRead size)

def read2 : ByteFile → Bool → Nat × ByteFile := readNumber 2

def read4 : ByteFile → Bool → Nat × ByteFile := readNumber 4

/-! ## The loop over the markers -/

def MARKER_SOI : Nat := 0xFFD8

def MARKER_APP2 : Nat := 0xFFE2

/-- The value a cast to `unsigned short` leaves. -/
def toWORD (n : Int) : Nat := (n % 2 ^ 16).toNat

/-- One turn of the loop: it is over, or has found the block it looks for, or goes on. -/
inductive Turn
  | over
  | found (f : ByteFile)
  | next (f : ByteFile)

/-- `strcmp(identifier, "MPF\0") == 0`. -/
def isMPF (identifier : List UInt8) : Bool := identifier.takeWhile (· ≠ 0) = [77, 80, 70]

def body (f : ByteFile) : Turn :=
  let marker := read2 f false
  let length := read2 marker.2 false
  if marker.1 = MARKER_APP2 then
    let identifier := length.2.readBytes 4
    let f := length.2.afterRead 4
    let length := toWORD ((length.1 : Int) - 4)
    if isMPF identifier then .found f else .next (fseekCur f ((length : Int) - 2))
  else .next (fseekCur length.2 ((length.1 : Int) - 2))

/-- The loop of `parseFile`. -/
def turn (f : ByteFile) : Turn :=
  if ftell f < (fsize f).1 then body (fsize f).2 else .over

def Turn.goesOn : Turn → Option ByteFile
  | .next f => some f
  | .found _ => none
  | .over => none

def next (f : ByteFile) : Option ByteFile := (turn f).goesOn

def opened (data : List UInt8) : ByteFile := { data := data, pos := 0 }

/-- `parseFile` comes to an end: there is no SOI, or the loop does.  Behind the loop there are
only loops over a count. -/
def ParseEnds (data : List UInt8) : Prop :=
  (read2 (opened data) false).1 = MARKER_SOI → Ends next (read2 (opened data) false).2

/-! ## Numbers -/

theorem swapPair_eq (a b : UInt8) : swapPair a b = (b, a) := by
  unfold swapPair
  have hfirst : b ^^^ a ^^^ b = a := by
    rw [UInt8.xor_comm b a, UInt8.xor_assoc, UInt8.xor_self, UInt8.xor_zero]
  dsimp only
  rw [hfirst, UInt8.xor_comm b a, ← UInt8.xor_assoc, UInt8.xor_self, UInt8.zero_xor]

/-- The byte at a place, 0 behind the end. -/
def byteAt (data : List UInt8) (p : Nat) : Nat := (data.getD p 0).toNat

def wordAt (data : List UInt8) (p : Nat) : Nat := byteAt data p * 256 + byteAt data (p + 1)

theorem byteAt_lt (data : List UInt8) (p : Nat) : byteAt data p < 256 := UInt8.toNat_lt _

theorem byteAt_of_ge {data : List UInt8} {p : Nat} (h : data.length ≤ p) : byteAt data p = 0 := by
  rw [byteAt, List.getD_eq_getElem?_getD, List.getElem?_eq_none h]
  rfl

theorem wordAt_lt (data : List UInt8) (p : Nat) : wordAt data p < 65536 := by
  have hhigh := byteAt_lt data p
  have hlow := byteAt_lt data (p + 1)
  rw [wordAt]
  omega

theorem wordAt_of_ge {data : List UInt8} {p : Nat} (h : data.length ≤ p) : wordAt data p = 0 := by
  rw [wordAt, byteAt_of_ge h, byteAt_of_ge (by omega)]

theorem wordAt_last {data : List UInt8} {p : Nat} (h : data.length = p + 1) :
    wordAt data p ≠ MARKER_APP2 := by
  rw [wordAt, byteAt_of_ge h.le, MARKER_APP2]
  omega

theorem overlay_readBytes_two (f : ByteFile) :
    ByteFile.overlay (f.readBytes 2) (List.replicate 2 0) =
      [f.data.getD f.pos 0, f.data.getD (f.pos + 1) 0] := by
  unfold ByteFile.overlay ByteFile.readBytes
  rcases hdrop : f.data.drop f.pos with _ | ⟨a, _ | ⟨b, rest⟩⟩
  · have hlen := List.drop_eq_nil_iff.mp hdrop
    rw [List.getD_eq_getElem?_getD, List.getD_eq_getElem?_getD, List.getElem?_eq_none hlen,
      List.getElem?_eq_none (by omega)]
    rfl
  · have ha : f.data[f.pos]? = some a := by
      rw [← List.head?_drop, hdrop]
      rfl
    have hb : f.data[f.pos + 1]? = none := by
      rw [← List.getElem?_drop, hdrop]
      rfl
    rw [List.getD_eq_getElem?_getD, List.getD_eq_getElem?_getD, ha, hb]
    rfl
  · have ha : f.data[f.pos]? = some a := by
      rw [← List.head?_drop, hdrop]
      rfl
    have hb : f.data[f.pos + 1]? = some b := by
      rw [← List.getElem?_drop, hdrop]
      rfl
    rw [List.getD_eq_getElem?_getD, List.getD_eq_getElem?_getD, ha, hb]
    rfl

/-- **What `read2` reads**: the word at the position. -/
theorem read2_eq (f : ByteFile) : read2 f false =
    (wordAt f.data f.pos, { f with pos := f.pos + min 2 (f.data.length - f.pos) }) := by
  rw [read2, readNumber, overlay_readBytes_two, ByteFile.afterRead, ByteFile.readBytes,
    List.length_take, List.length_drop]
  simp only [Bool.false_eq_true, if_false, swapendian, swapPair_eq, ofLE, wordAt, byteAt]
  refine Prod.ext ?_ rfl
  dsimp only
  omega

/-! ## The places of the markers -/

variable {data : List UInt8} {p : Nat}

/-- There is a block of the multi-picture format at a place. -/
def Mpf (data : List UInt8) (p : Nat) : Prop :=
  wordAt data p = MARKER_APP2 ∧ isMPF ((data.drop (min (p + 4) data.length)).take 4) = true

instance (data : List UInt8) (p : Nat) : Decidable (Mpf data p) :=
  inferInstanceAs (Decidable (_ ∧ _))

/-- The place that the loop takes for that of the next marker. -/
def follow (data : List UInt8) (p : Nat) : Nat :=
  if wordAt data p = MARKER_APP2 then
    min (p + 8) data.length + toWORD (wordAt data (p + 2) - 4) - 2
  else min (p + 4) data.length + wordAt data (p + 2) - 2

/-- The places of the markers: the one behind the SOI, and those that follow. -/
inductive Marker (data : List UInt8) : Nat → Prop
  | first : Marker data 2
  | follow {p : Nat} : Marker data p → p < data.length → ¬ Mpf data p → Marker data (follow data p)

/-- The last two bytes and the last one, and a place that `ftell` cannot tell. -/
def Stuck (data : List UInt8) (p : Nat) : Prop :=
  data.length ≤ p + 2 ∧ (p < data.length ∨ 2 ^ 31 ≤ p)

theorem body_eq (h : p ≤ data.length) :
    body ⟨data, p⟩ = if Mpf data p then .found ⟨data, min (p + 8) data.length⟩
      else .next ⟨data, follow data p⟩ := by
  have hsecond : p + min 2 (data.length - p) = min (p + 2) data.length := by omega
  have hthird : min (p + 2) data.length + min 2 (data.length - min (p + 2) data.length) =
      min (p + 4) data.length := by omega
  have hword : wordAt data (min (p + 2) data.length) = wordAt data (p + 2) := by
    by_cases hp : p + 2 ≤ data.length
    · rw [Nat.min_eq_left hp]
    · rw [Nat.min_eq_right (by omega), wordAt_of_ge le_rfl, wordAt_of_ge (by omega)]
  have hid : min (p + 4) data.length + min 4 (data.length - min (p + 4) data.length) =
      min (p + 8) data.length := by omega
  unfold body
  simp only [read2_eq, hsecond, hthird, hword, ByteFile.readBytes, ByteFile.afterRead,
    List.length_take, List.length_drop, hid]
  by_cases happ : wordAt data p = MARKER_APP2
  · have hmpf : Mpf data p ↔
        isMPF ((data.drop (min (p + 4) data.length)).take 4) = true := and_iff_right happ
    have hplace : (((min (p + 8) data.length : Nat) : Int) +
        ((toWORD (wordAt data (p + 2) - 4) : Int) - 2)).toNat = follow data p := by
      rw [follow, if_pos happ]
      omega
    simp only [if_pos happ, hmpf, fseekCur, ByteFile.seekSet, hplace]
  · have hmpf : ¬ Mpf data p := fun h => happ h.1
    have hplace : (((min (p + 4) data.length : Nat) : Int) +
        ((wordAt data (p + 2) : Int) - 2)).toNat = follow data p := by
      rw [follow, if_neg happ]
      omega
    simp only [if_neg happ, if_neg hmpf, fseekCur, ByteFile.seekSet, hplace]

/-! ## One turn -/

theorem ftell_of_lt (data : List UInt8) (h : p < 2 ^ 31) : ftell ⟨data, p⟩ = p := if_pos h

theorem ftell_of_ge (data : List UInt8) (h : 2 ^ 31 ≤ p) : ftell ⟨data, p⟩ = -1 :=
  if_neg (Nat.not_lt.mpr h)

theorem seekEnd_eq (data : List UInt8) (p : Nat) :
    ByteFile.seekEnd ⟨data, p⟩ = ⟨data, data.length⟩ := rfl

theorem toInt32_toDWORD_of_lt {n : Nat} (h : n < 2 ^ 31) : toInt32 (toDWORD n) = n := by
  rw [toDWORD_of_lt (by omega) (by omega), toInt32_of_lt (by omega) (by omega)]

theorem toInt32_toDWORD_neg_one : toInt32 (toDWORD (-1)) = -1 := by decide

theorem fsize_of_lt (hsize : data.length < 2 ^ 31) (hp : p < 2 ^ 31) :
    fsize ⟨data, p⟩ = ((data.length : Int), (⟨data, p⟩ : ByteFile)) := by
  rw [fsize, seekEnd_eq, ftell_of_lt data hp, ftell_of_lt data hsize]
  rw [toInt32_toDWORD_of_lt hsize, toInt32_toDWORD_of_lt hp, fseekSet, if_neg (by omega)]
  rfl

theorem fsize_of_ge (hsize : data.length < 2 ^ 31) (hp : 2 ^ 31 ≤ p) :
    fsize ⟨data, p⟩ = ((data.length : Int), (⟨data, data.length⟩ : ByteFile)) := by
  rw [fsize, seekEnd_eq, ftell_of_ge data hp, ftell_of_lt data hsize]
  rw [toInt32_toDWORD_of_lt hsize, toInt32_toDWORD_neg_one, fseekSet, if_pos (by decide)]

theorem turn_of_lt (hsize : data.length < 2 ^ 31) (hp : p < data.length) :
    turn ⟨data, p⟩ = if Mpf data p then .found ⟨data, min (p + 8) data.length⟩
      else .next ⟨data, follow data p⟩ := by
  have hlt : p < 2 ^ 31 := hp.trans hsize
  have hin : (p : Int) < data.length := by omega
  rw [turn, fsize_of_lt hsize hlt, ftell_of_lt data hlt]
  dsimp only
  rw [if_pos hin, body_eq hp.le]

theorem next_of_lt (hsize : data.length < 2 ^ 31) (hp : p < data.length) :
    next ⟨data, p⟩ = if Mpf data p then none else some ⟨data, follow data p⟩ := by
  rw [next, turn_of_lt hsize hp]
  split
  · rfl
  · rfl

theorem next_of_ge (hsize : data.length < 2 ^ 31) (hp : data.length ≤ p) (hlt : p < 2 ^ 31) :
    next ⟨data, p⟩ = none := by
  have hout : ¬ (p : Int) < data.length := by omega
  rw [next, turn, fsize_of_lt hsize hlt, ftell_of_lt data hlt]
  dsimp only
  rw [if_neg hout]
  rfl

/-- A turn where `ftell` fails: it goes back to the last two bytes. -/
theorem next_of_far (hsize : data.length < 2 ^ 31) (hp : 2 ^ 31 ≤ p) :
    next ⟨data, p⟩ = some ⟨data, data.length - 2⟩ := by
  have hin : (-1 : Int) < data.length := by omega
  have hword : wordAt data data.length = 0 := wordAt_of_ge le_rfl
  have hmpf : ¬ Mpf data data.length := by
    rw [Mpf, hword]
    exact fun h => absurd h.1 (by decide)
  have hfollow : follow data data.length = data.length - 2 := by
    rw [follow, hword, if_neg (by decide), wordAt_of_ge (by omega)]
    omega
  rw [next, turn, fsize_of_ge hsize hp, ftell_of_ge data hp]
  dsimp only
  rw [if_pos hin, body_eq le_rfl, if_neg hmpf, hfollow]
  rfl

theorem turn_of_large (hsize : 2 ^ 31 ≤ data.length) (hp : p < 2 ^ 31) :
    turn ⟨data, p⟩ = .over := by
  have hout : ¬ (p : Int) < -1 := by omega
  rw [turn, fsize, seekEnd_eq, ftell_of_lt data hp, ftell_of_ge data hsize,
    toInt32_toDWORD_neg_one]
  dsimp only
  rw [if_neg hout]

theorem next_of_large (hsize : 2 ^ 31 ≤ data.length) (hp : p < 2 ^ 31) :
    next ⟨data, p⟩ = none := by
  rw [next, turn_of_large hsize hp]
  rfl

/-! ## From place to place -/

theorem lt_follow (h : p + 2 < data.length) : p < follow data p := by
  have hword := wordAt_lt data (p + 2)
  rw [follow, toWORD]
  split
  · by_cases hall : p + 8 ≤ data.length
    · rw [Nat.min_eq_left hall]
      omega
    · rw [Nat.min_eq_right (by omega)]
      omega
  · by_cases hall : p + 4 ≤ data.length
    · rw [Nat.min_eq_left hall]
      omega
    · -- one byte is left of the length, the high one
      have hlow : byteAt data (p + 2 + 1) = 0 := byteAt_of_ge (by omega)
      rw [Nat.min_eq_right (by omega)]
      omega

/-- From the last byte it goes to the one in front of it. -/
theorem follow_last (h : data.length = p + 1) : follow data p = data.length - 2 := by
  rw [follow, if_neg (wordAt_last h), wordAt_of_ge (by omega)]
  omega

/-- From the last two bytes it comes back to them, unless they are the marker of an APP2 block,
whose length is read as 0 and wraps. -/
theorem follow_lastTwo (h : data.length = p + 2) :
    follow data p = if wordAt data p = MARKER_APP2 then data.length + 65530 else p := by
  rw [follow, wordAt_of_ge (p := p + 2) (by omega)]
  split
  · rw [show toWORD ((0 : Nat) - 4) = 65532 by decide]
    omega
  · omega

theorem not_mpf_of_lastTwo (h : data.length ≤ p + 2) : ¬ Mpf data p := by
  rintro ⟨-, hmpf⟩
  rw [List.drop_of_length_le (by omega)] at hmpf
  exact absurd hmpf (by decide)

/-- **Where the loop stands** is the place of a marker, and it comes to every such place. -/
theorem reaches_marker (hsize : data.length < 2 ^ 31) (h : Marker data p) :
    Reaches next ⟨data, 2⟩ ⟨data, p⟩ := by
  induction h with
  | first => exact .refl _
  | follow _ hp hmpf ih =>
    refine ih.trans (.step ?_)
    rw [next_of_lt hsize hp, if_neg hmpf]

/-- From a place where it is stuck the loop comes to the last two bytes. -/
theorem reaches_lastTwo (hsize : data.length < 2 ^ 31) (h2 : 2 ≤ data.length)
    (h : Stuck data p) : Reaches next ⟨data, p⟩ ⟨data, data.length - 2⟩ := by
  obtain ⟨hge, hlt | hfar⟩ := h
  · by_cases hlast : data.length = p + 1
    · refine .step ?_
      rw [next_of_lt hsize hlt, if_neg (not_mpf_of_lastTwo hge), follow_last hlast]
    · obtain rfl : p = data.length - 2 := by omega
      exact .refl _
  · exact .step (next_of_far hsize hfar)

/-- **The last two bytes**: there the loop ends when they are FF E2 and the jump that the
wrapped length makes can be told by `ftell`. -/
theorem lastTwo_ends_iff (hsize : data.length < 2 ^ 31) (h2 : 2 ≤ data.length) :
    Ends next ⟨data, data.length - 2⟩ ↔
      wordAt data (data.length - 2) = MARKER_APP2 ∧ data.length + 65530 < 2 ^ 31 := by
  have hstep : next ⟨data, data.length - 2⟩ =
      some ⟨data, follow data (data.length - 2)⟩ := by
    rw [next_of_lt hsize (by omega), if_neg (not_mpf_of_lastTwo (by omega))]
  rw [follow_lastTwo (by omega)] at hstep
  by_cases happ : wordAt data (data.length - 2) = MARKER_APP2
  · rw [if_pos happ] at hstep
    by_cases hfits : data.length + 65530 < 2 ^ 31
    · refine iff_of_true ?_ ⟨happ, hfits⟩
      exact (Reaches.step hstep).ends_iff.mpr
        (ends_of_stops (next_of_ge hsize (Nat.le_add_right _ _) hfits))
    · refine iff_of_false ?_ fun h => hfits h.2
      exact not_ends_of_cycle hstep (.step (next_of_far hsize (Nat.not_lt.mp hfits)))
  · rw [if_neg happ] at hstep
    exact iff_of_false (not_ends_of_fixed hstep) fun h => happ h.1

/-- The loop ends when it is nowhere stuck. -/
theorem ends_of_not_stuck (hsize : data.length < 2 ^ 31)
    (h : ∀ p, Marker data p → ¬ Stuck data p) : Ends next ⟨data, 2⟩ := by
  refine ends_of_rank (fun f => f.data = data ∧ Marker data f.pos)
    (fun f => data.length - f.pos) ?_ ⟨rfl, .first⟩
  rintro ⟨bytes, p⟩ g ⟨hbytes, hmarker⟩ hnext
  obtain rfl : data = bytes := hbytes.symm
  dsimp only at hmarker hnext ⊢
  have hfree := h p hmarker
  by_cases hp : p < data.length
  · have hroom : p + 2 < data.length := by
      by_contra hnone
      exact hfree ⟨Nat.not_lt.mp hnone, Or.inl hp⟩
    rw [next_of_lt hsize hp] at hnext
    split at hnext
    · cases hnext
    · rename_i hmpf
      obtain rfl := Option.some.inj hnext
      have hless := lt_follow hroom
      exact ⟨⟨rfl, hmarker.follow hp hmpf⟩, by dsimp only; omega⟩
  · have hlt : p < 2 ^ 31 := by
      by_contra hfar
      exact hfree ⟨by omega, Or.inr (Nat.not_lt.mp hfar)⟩
    rw [next_of_ge hsize (Nat.not_lt.mp hp) hlt] at hnext
    cases hnext

/-- **`parseFile` comes to an end** exactly when the file does not begin with SOI, is too large
for an `int`, or no marker is stuck; or the last two bytes are FF E2 and what the jump from them
leads to is no further than `ftell` can tell. -/
theorem parse_ends_iff (data : List UInt8) : ParseEnds data ↔
    wordAt data 0 ≠ MARKER_SOI ∨ 2 ^ 31 ≤ data.length ∨ (∀ p, Marker data p → ¬ Stuck data p) ∨
      wordAt data (data.length - 2) = MARKER_APP2 ∧ data.length + 65530 < 2 ^ 31 := by
  rw [ParseEnds, opened, read2_eq]
  dsimp only
  by_cases hsoi : wordAt data 0 = MARKER_SOI
  · have h2 : 2 ≤ data.length := by
      by_contra hshort
      rw [wordAt, byteAt_of_ge (p := 0 + 1) (by omega), MARKER_SOI] at hsoi
      omega
    have hpos : 0 + min 2 (data.length - 0) = 2 := by omega
    rw [hpos, or_iff_right (not_not.mpr hsoi)]
    simp only [hsoi, true_imp_iff]
    by_cases hlarge : 2 ^ 31 ≤ data.length
    · exact iff_of_true (ends_of_stops (next_of_large hlarge (by norm_num))) (Or.inl hlarge)
    · have hsize := Nat.not_le.mp hlarge
      rw [or_iff_right hlarge]
      by_cases hfree : ∀ p, Marker data p → ¬ Stuck data p
      · exact iff_of_true (ends_of_not_stuck hsize hfree) (Or.inl hfree)
      · rw [or_iff_right hfree, ← lastTwo_ends_iff hsize h2]
        simp only [not_forall, not_not] at hfree
        obtain ⟨p, hmarker, hstuck⟩ := hfree
        exact ((reaches_marker hsize hmarker).trans (reaches_lastTwo hsize h2 hstuck)).ends_iff
  · exact iff_of_true (fun h => absurd h hsoi) (Or.inl hsoi)

/-- **Four bytes on which it does not end.** -/
theorem endless_scan : ¬ ParseEnds [0xFF, 0xD8, 0, 0] := by
  intro h
  refine not_ends_of_fixed ?_ (h (by decide))
  decide

end DWindow.Mpo
