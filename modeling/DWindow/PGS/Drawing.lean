import DWindow.PGS.Rle
import Mathlib.Tactic.Ring

/-!
# The bitmap of a PGS picture

`decodeRLE` goes on from code to code with the place `pos` of the next pixel and the number
`xpos` of pixels of its line.  `Draws` says of codes that they bring it to the end of the bitmap
without a line that is too short, and that each of their runs fits what the bitmap shall be;
then it ends there with that bitmap and has looked at those codes alone (`loop_draws`).  The
lines of a picture, each with its width of pixels and a new line, are such codes, so a picture
is decoded as it was encoded (`decodeRLE_lines`).
-/

namespace DWindow.PGS

open Looking

namespace Decoding

/-! ## A round -/

/-- **What a run does**: up to the end of the bitmap its pixels are assigned. -/
theorem fill_eq {size : Nat} (pixel : UInt32) (n : Nat) : ∀ {d : Decoding}, d.pos ≤ size →
    fill size pixel n d =
      { d with
        pos := min (d.pos + n) size
        decoded := fun k =>
          if d.pos ≤ k ∧ k < min (d.pos + n) size then some pixel else d.decoded k } := by
  induction n with
  | zero =>
    intro d hd
    have hempty : ∀ k, ¬ (d.pos ≤ k ∧ k < min (d.pos + 0) size) := by
      intro k
      omega
    simp only [fill, Nat.add_zero, min_eq_left hd]
    cases d
    simp only [mk.injEq, true_and]
    funext k
    rw [if_neg (by omega)]
  | succ n ih =>
    intro d hd
    rw [fill]
    split
    case isTrue h =>
      have hpos : d.pos = size := Nat.le_antisymm hd h
      cases d
      simp only at hpos ⊢
      subst hpos
      simp only [mk.injEq, true_and, Nat.le_add_right, min_eq_right]
      funext k
      rw [if_neg (by omega)]
    case isFalse h =>
      rw [ih (by simp only; omega)]
      have hmin : min (d.pos + 1 + n) size = min (d.pos + (n + 1)) size := by
        rw [Nat.add_assoc, Nat.add_comm 1 n]
      simp only [hmin, mk.injEq, true_and]
      funext k
      by_cases hk : k = d.pos
      · subst hk
        rw [if_neg (by omega), if_pos (by omega), Function.update_self]
      · rw [Function.update_of_ne hk]
        exact if_congr (by omega) rfl rfl

section Loop

variable {width size rleSize : Nat} {palette : List UInt32} {mem : Nat → UInt8}

def next (width size : Nat) (palette : List UInt32) (d : Decoding) (c : Code) : Decoding :=
  { d with idx := d.idx + c.bytes.length }.put width size palette c.token

theorem value_loop {d : Decoding} {c : Code} (h : Stands mem d.idx c.bytes) (rounds : Nat) :
    (loop width size rleSize palette (rounds + 1) d).value mem =
      if (d.next width size palette c).pos < size ∧ (d.next width size palette c).idx < rleSize then
        (loop width size rleSize palette rounds (d.next width size palette c)).value mem
      else some (d.next width size palette c) := by
  rw [loop, value_bind, (readCode_bytes h).1, value_ite]
  rfl

theorem places_loop {d : Decoding} {c : Code} (h : Stands mem d.idx c.bytes) (rounds : Nat) :
    (loop width size rleSize palette (rounds + 1) d).places mem =
      List.range' d.idx c.bytes.length ++
        if (d.next width size palette c).pos < size ∧ (d.next width size palette c).idx < rleSize
        then (loop width size rleSize palette rounds (d.next width size palette c)).places mem
        else [] := by
  rw [loop, places_bind, (readCode_bytes h).2, (readCode_bytes h).1, places_ite]
  rfl

theorem next_newLine {d : Decoding} (h : width ≤ d.xpos) :
    (d.next width size palette .newLine).pos = d.pos - d.pos % width :=
  if_neg (Nat.not_lt.mpr h)

theorem next_run (d : Decoding) (r : Run) (hd : d.pos ≤ size) :
    d.next width size palette (.run r) =
      { pos := min (d.pos + r.count) size
        idx := d.idx + r.bytes.length
        xpos := d.xpos + r.count
        decoded := fun k =>
          if d.pos ≤ k ∧ k < min (d.pos + r.count) size then some (palette.getD r.color.toNat 0)
          else d.decoded k } :=
  fill_eq _ _ (d := { d with idx := d.idx + r.bytes.length, xpos := d.xpos + r.count }) hd

theorem next_idx {d : Decoding} (c : Code) (hd : d.pos ≤ size) :
    (d.next width size palette c).idx = d.idx + c.bytes.length := by
  cases c with
  | newLine => rfl
  | run r => exact congrArg idx (next_run d r hd)

/-- The pixels in front of `pos` have colors that fit. -/
def Drawn (fits : Nat → UInt8 → Prop) (palette : List UInt32) (d : Decoding) : Prop :=
  ∀ k < d.pos, ∃ c, fits k c ∧ d.decoded k = some (palette.getD c.toNat 0)

variable {fits : Nat → UInt8 → Prop}

theorem Drawn.newLine {d : Decoding} (h : d.Drawn fits palette) (hfull : width ≤ d.xpos) :
    (d.next width size palette .newLine).Drawn fits palette := by
  intro k hk
  rw [next_newLine hfull] at hk
  exact h k (by omega)

theorem Drawn.run {d : Decoding} (h : d.Drawn fits palette) (hd : d.pos ≤ size) {r : Run}
    (hr : ∀ i < r.count, fits (d.pos + i) r.color) :
    (d.next width size palette (.run r)).Drawn fits palette := by
  rw [next_run d r hd]
  intro k hk
  simp only at hk ⊢
  by_cases hpos : d.pos ≤ k
  · rw [if_pos ⟨hpos, hk⟩]
    refine ⟨r.color, ?_, rfl⟩
    have := hr (k - d.pos) (by omega)
    rwa [Nat.add_sub_cancel' hpos] at this
  · rw [if_neg (fun hc => hpos hc.1)]
    exact h k (by omega)

end Loop

end Decoding

/-- Codes that draw a bitmap from `pos` on, with `xpos` pixels in the line: no new line comes
before the line is full, and the runs fit. -/
def Draws (width size : Nat) (fits : Nat → UInt8 → Prop) : List Code → Nat → Nat → Prop
  | [], pos, _ => size ≤ pos
  | .newLine :: cs, pos, xpos => width ≤ xpos ∧ Draws width size fits cs (pos - pos % width) 0
  | .run r :: cs, pos, xpos =>
    (∀ i < r.count, fits (pos + i) r.color) ∧
      Draws width size fits cs (pos + r.count) (xpos + r.count)

def encode (cs : List Code) : List UInt8 := cs.flatMap Code.bytes

theorem Code.length_pos (c : Code) : 0 < c.bytes.length := by
  cases c with
  | newLine => exact Nat.two_pos
  | run r => cases r <;> exact Nat.succ_pos _

section Draws

variable {width size rleSize : Nat} {palette : List UInt32} {mem : Nat → UInt8}
  {fits : Nat → UInt8 → Prop}

/-- Codes that draw more than is there are not at their end. -/
theorem Draws.length_pos {cs : List Code} {pos xpos : Nat} (h : Draws width size fits cs pos xpos)
    (hpos : pos < size) : 0 < (encode cs).length := by
  cases cs with
  | nil => exact absurd h (Nat.not_le.mpr hpos)
  | cons c cs =>
    rw [encode, List.flatMap_cons, List.length_append]
    exact Nat.add_pos_left c.length_pos _

/-- **A round over such codes**: the loop is at the end of the bitmap, or the codes behind draw
the rest. -/
theorem Draws.next {d : Decoding} {c : Code} {cs : List Code}
    (h : Draws width size fits (c :: cs) d.pos d.xpos) (hpos : d.pos < size)
    (hd : d.Drawn fits palette) :
    (d.next width size palette c).Drawn fits palette ∧
      ((d.next width size palette c).pos = size ∨
        (d.next width size palette c).pos < size ∧
          Draws width size fits cs (d.next width size palette c).pos
            (d.next width size palette c).xpos) := by
  cases c with
  | newLine =>
    obtain ⟨hfull, hcs⟩ := h
    refine ⟨hd.newLine hfull, .inr ?_⟩
    rw [Decoding.next_newLine hfull]
    exact ⟨by omega, hcs⟩
  | run r =>
    obtain ⟨hr, hcs⟩ := h
    refine ⟨hd.run hpos.le hr, ?_⟩
    rw [Decoding.next_run d r hpos.le]
    by_cases hend : size ≤ d.pos + r.count
    · exact .inl (min_eq_right hend)
    · rw [min_eq_left (by omega)]
      exact .inr ⟨by simp only; omega, hcs⟩

/-- **Codes that draw the bitmap are decoded** to its end, and the loop looks at them alone. -/
theorem loop_draws {cs : List Code} : ∀ {d : Decoding} (rounds : Nat),
    Stands mem d.idx (encode cs) → d.idx + (encode cs).length ≤ rleSize →
    rleSize < d.idx + rounds → d.pos < size → Draws width size fits cs d.pos d.xpos →
    d.Drawn fits palette →
    (∃ d', (d.loop width size rleSize palette rounds).value mem = some d' ∧
        d'.Drawn fits palette ∧ d'.pos = size) ∧
      ∀ p ∈ (Decoding.loop width size rleSize palette rounds d).places mem, p < rleSize := by
  induction cs with
  | nil =>
    intro d rounds _ _ _ hpos hdraws _
    exact absurd hdraws (Nat.not_le.mpr hpos)
  | cons c cs ih =>
    intro d rounds hstands hroom hrounds hpos hdraws hdrawn
    rw [encode, List.flatMap_cons] at hstands hroom
    rw [List.length_append] at hroom
    obtain ⟨hc, hcs⟩ := stands_append.mp hstands
    obtain ⟨rounds, rfl⟩ : ∃ n, rounds = n + 1 := ⟨rounds - 1, by omega⟩
    have hidx : (d.next width size palette c).idx = d.idx + c.bytes.length :=
      Decoding.next_idx c hpos.le
    have hlen := c.length_pos
    have hplaces : ∀ p ∈ List.range' d.idx c.bytes.length, p < rleSize := by
      intro p hp
      rw [List.mem_range'_1] at hp
      omega
    obtain ⟨hdrawn', hend | ⟨hpos', hdraws'⟩⟩ := hdraws.next hpos hdrawn
    · have hstop : ¬ ((d.next width size palette c).pos < size ∧
          (d.next width size palette c).idx < rleSize) := by
        rw [hend]
        exact fun h => Nat.lt_irrefl _ h.1
      rw [Decoding.value_loop hc, Decoding.places_loop hc, if_neg hstop, if_neg hstop,
        List.append_nil]
      exact ⟨⟨_, rfl, hdrawn', hend⟩, hplaces⟩
    · have hmore : 0 < (encode cs).length := hdraws'.length_pos hpos'
      have hgo : (d.next width size palette c).pos < size ∧
          (d.next width size palette c).idx < rleSize := by
        refine ⟨hpos', ?_⟩
        rw [hidx]
        exact Nat.lt_of_lt_of_le (Nat.lt_add_of_pos_right hmore) (by rwa [Nat.add_assoc])
      rw [Decoding.value_loop hc, Decoding.places_loop hc, if_pos hgo, if_pos hgo,
        List.forall_mem_append]
      obtain ⟨hvalue, hrest⟩ := ih (d := d.next width size palette c) rounds
        (by rwa [hidx]) (by rw [hidx, Nat.add_assoc]; exact hroom) (by rw [hidx]; omega) hpos'
        hdraws' hdrawn'
      exact ⟨hvalue, hplaces, hrest⟩

end Draws

/-! ## A picture -/

/-- The sizes of the pictures that are put on the list. -/
structure Subtitle.Sized (sub : Subtitle) : Prop where
  width_pos : 0 < sub.width
  width_lt : sub.width < 4096
  height_pos : 0 < sub.height
  height_lt : sub.height < 4096

def linePixels (line : List Run) : List UInt8 := line.flatMap Run.pixels

def lineCodes (line : List Run) : List Code := line.map .run ++ [.newLine]

structure Encodes (lines : List (List Run)) (width height : Nat) (image : Nat → Nat → UInt8) :
    Prop where
  length_eq : lines.length = height
  line_eq : ∀ y (h : y < lines.length), linePixels lines[y] = (List.range width).map (image y)

section Picture

variable {width size : Nat} {fits : Nat → UInt8 → Prop}

theorem draws_runs {cs : List Code} {runs : List Run} : ∀ {pos xpos : Nat},
    (∀ i c, (linePixels runs)[i]? = some c → fits (pos + i) c) →
    Draws width size fits cs (pos + (linePixels runs).length) (xpos + (linePixels runs).length) →
    Draws width size fits (runs.map .run ++ cs) pos xpos := by
  induction runs with
  | nil =>
    intro pos xpos _ h
    exact h
  | cons r runs ih =>
    intro pos xpos hfits h
    rw [linePixels, List.flatMap_cons] at hfits h
    rw [List.length_append, Run.length_pixels, ← Nat.add_assoc, ← Nat.add_assoc] at h
    refine ⟨fun i hi => hfits i r.color ?_, ih (fun i c hc => ?_) h⟩
    · rw [List.getElem?_append_left (by rwa [Run.length_pixels]), Run.pixels,
        List.getElem?_replicate_of_lt hi]
    · rw [Nat.add_assoc]
      refine hfits (r.count + i) c ?_
      rwa [List.getElem?_append_right (by rw [Run.length_pixels]; omega), Run.length_pixels,
        Nat.add_sub_cancel_left]

theorem draws_lines {image : Nat → Nat → UInt8} {height : Nat} {lines : List (List Run)} :
    ∀ {y : Nat}, y + lines.length = height →
    (∀ i (h : i < lines.length), linePixels lines[i] = (List.range width).map (image (y + i))) →
    Draws width (width * height) (fun k c => c = image (k / width) (k % width))
      (lines.flatMap lineCodes) (width * y) 0 := by
  induction lines with
  | nil =>
    intro y hy _
    rw [List.length_nil, Nat.add_zero] at hy
    exact (congrArg (width * ·) hy.symm).le
  | cons line lines ih =>
    intro y hy hline
    have hfirst : linePixels line = (List.range width).map (image y) := hline 0 (by simp)
    have hlen : (linePixels line).length = width := by
      rw [hfirst, List.length_map, List.length_range]
    rw [List.flatMap_cons, lineCodes, List.append_assoc]
    refine draws_runs (fun i c hc => ?_) ?_
    · have hi : i < width := by
        have := (List.getElem?_eq_some_iff.mp hc).1
        omega
      rw [hfirst, List.getElem?_map, List.getElem?_range hi, Option.map_some,
        Option.some.injEq] at hc
      rw [← hc, Nat.mul_add_div (by omega), Nat.mul_add_mod, Nat.div_eq_of_lt hi,
        Nat.mod_eq_of_lt hi, Nat.add_zero]
    · rw [hlen, ← Nat.mul_succ]
      refine ⟨by omega, ?_⟩
      rw [Nat.mul_mod_right, Nat.sub_zero]
      refine ih (by rw [← hy, List.length_cons]; omega) (fun i hi => ?_)
      rw [Nat.succ_add_eq_add_succ]
      exact hline (i + 1) (by rw [List.length_cons]; omega)

end Picture

section Room

variable {sub : Subtitle} {data : List UInt8} (h : sub.rle = some data) (mem : Nat → UInt8)

include h

theorem value_decodeRLE :
    (decodeRLE true sub).value mem =
      (.ok, (Decoding.start.loop sub.width.toNat sub.area sub.rleSize sub.palette
        (sub.rleSize + 1)).value mem) := by
  rw [decodeRLE, if_neg (by rw [h]; exact Bool.false_ne_true), if_neg Bool.noConfusion, value_bind]
  rfl

theorem places_decodeRLE :
    (decodeRLE true sub).places mem =
      (Decoding.start.loop sub.width.toNat sub.area sub.rleSize sub.palette
        (sub.rleSize + 1)).places mem := by
  rw [decodeRLE, if_neg (by rw [h]; exact Bool.false_ne_true), if_neg Bool.noConfusion,
    places_bind]
  exact List.append_nil _

end Room

theorem Decoding.drawn_start (fits : Nat → UInt8 → Prop) (palette : List UInt32) :
    Decoding.start.Drawn fits palette := fun k hk => absurd hk (Nat.not_lt_zero k)

theorem Subtitle.Sized.area_pos {sub : Subtitle} (h : sub.Sized) : 0 < sub.area :=
  Nat.mul_pos (Int.lt_toNat.mpr h.width_pos) (Int.lt_toNat.mpr h.height_pos)

theorem decodeRLE_draws {sub : Subtitle} {data : List UInt8} {cs : List Code}
    {fits : Nat → UInt8 → Prop} (hsized : sub.Sized) (hrle : sub.rle = some data)
    (hsize : sub.rleSize = data.length) (behind : Nat → UInt8) (hcs : encode cs <+: data)
    (hdraws : Draws sub.width.toNat sub.area fits cs 0 0) :
    (∃ d, (decodeRLE true sub).value (memory data behind) = (.ok, some d) ∧
        d.Drawn fits sub.palette ∧ d.pos = sub.area) ∧
      ∀ p ∈ (decodeRLE true sub).places (memory data behind), p < sub.rleSize := by
  have hlen : 0 + (encode cs).length ≤ data.length := by
    rw [Nat.zero_add]
    exact hcs.length_le
  have hstands : Stands (memory data behind) Decoding.start.idx (encode cs) :=
    (stands_memory hlen).mpr hcs
  rw [value_decodeRLE hrle, places_decodeRLE hrle]
  obtain ⟨⟨d, hd, hdrawn⟩, hplaces⟩ := loop_draws (sub.rleSize + 1) hstands
    (hlen.trans_eq hsize.symm) (by rw [Decoding.start, Nat.zero_add]; exact Nat.lt_succ_self _)
    hsized.area_pos hdraws (Decoding.drawn_start fits sub.palette)
  exact ⟨⟨d, congrArg _ hd, hdrawn⟩, hplaces⟩

/-- **A picture is decoded as it was encoded**: with room for the bitmap, `decodeRLE` assigns to
every pixel the palette's value for its color. -/
theorem decodeRLE_lines {sub : Subtitle} {lines : List (List Run)} {image : Nat → Nat → UInt8}
    (hsized : sub.Sized) (hlines : Encodes lines sub.width.toNat sub.height.toNat image)
    (hrle : sub.rle = some (encode (lines.flatMap lineCodes)))
    (hsize : sub.rleSize = (encode (lines.flatMap lineCodes)).length) (behind : Nat → UInt8) :
    ∃ d, (decodeRLE true sub).value (memory (encode (lines.flatMap lineCodes)) behind) =
        (.ok, some d) ∧
      ∀ y < sub.height.toNat, ∀ x < sub.width.toNat,
        d.decoded (sub.width.toNat * y + x) = some (sub.palette.getD (image y x).toNat 0) := by
  have hdraws : Draws sub.width.toNat sub.area _ (lines.flatMap lineCodes) 0 0 :=
    draws_lines (y := 0) ((Nat.zero_add _).trans hlines.length_eq)
      (fun i hi => (hlines.line_eq i hi).trans (by rw [Nat.zero_add]))
  obtain ⟨⟨d, hd, hdrawn, hpos⟩, -⟩ :=
    decodeRLE_draws hsized hrle hsize behind List.prefix_rfl hdraws
  refine ⟨d, hd, fun y hy x hx => ?_⟩
  obtain ⟨c, rfl, hc⟩ := hdrawn (sub.width.toNat * y + x) (by
    rw [hpos]
    calc sub.width.toNat * y + x < sub.width.toNat * (y + 1) := by rw [Nat.mul_succ]; omega
      _ ≤ sub.width.toNat * sub.height.toNat := Nat.mul_le_mul_left _ hy)
  rwa [Nat.mul_add_div (by omega), Nat.mul_add_mod, Nat.div_eq_of_lt hx, Nat.mod_eq_of_lt hx,
    Nat.add_zero] at hc

def fiveRuns : List (List Run) :=
  [[.pixel 5 (by decide), .longColors 2 (by decide) 7, .zeros 1 (by decide)],
    [.colors 3 (by decide) 9, .longZeros 1 (by decide)]]

def fiveRunsPicture : Subtitle :=
  { Subtitle.zero with
    width := 4
    height := 2
    palette := (List.range 256).map (fun i => UInt32.ofNat (i * 1000))
    rleSize := 17
    rle := some (encode (fiveRuns.flatMap lineCodes)) }

def fiveRunsImage (y x : Nat) : UInt8 := ([[5, 7, 7, 0], [9, 9, 9, 0]].getD y []).getD x 0

theorem decodeRLE_lines_fiveRuns :
    ∃ d, (decodeRLE true fiveRunsPicture).value
        (memory (encode (fiveRuns.flatMap lineCodes)) fun _ => 1) = (.ok, some d) ∧
      ∀ y < 2, ∀ x < 4, d.decoded (4 * y + x) =
        some (fiveRunsPicture.palette.getD (fiveRunsImage y x).toNat 0) :=
  decodeRLE_lines ⟨by decide, by decide, by decide, by decide⟩ ⟨rfl, by decide⟩ rfl rfl _

end DWindow.PGS
