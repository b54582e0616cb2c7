import DWindow.PGS.Drawing

/-!
# What `decodeRLE` reads and what it leaves

The loop tests `idx` once for a code and reads as many as four bytes, `rle[0]` before any test,
and a new line in a line that is not full leaves the rest of the line without a value, as the
end of the data leaves what is missing.  So `decodeRLE` stays inside its data and assigns every
pixel exactly when the data begin with codes that fill the bitmap (`decodesSafely_iff`): the
lines in front of a new line have the width or more, and with the whole widths in them the last
line brings the pixels to the end.  What it writes is inside the bitmap for any data.
-/

namespace DWindow.PGS

open Looking

/-- How many pixels the lines have that a new line ends, and the line behind the last of them;
the first has `xpos` pixels before the codes. -/
def lineTotals : Nat → List Code → List Nat × Nat
  | xpos, [] => ([], xpos)
  | xpos, .newLine :: cs => (xpos :: (lineTotals 0 cs).1, (lineTotals 0 cs).2)
  | xpos, .run r :: cs => lineTotals (xpos + r.count) cs

/-- **Codes that fill a bitmap**: no line in front of a new line is short, and the pixels, of
which a new line keeps whole widths, are enough. -/
structure FillsBitmap (width height : Nat) (cs : List Code) : Prop where
  full : ∀ n ∈ (lineTotals 0 cs).1, width ≤ n
  enough : width * height ≤
    width * ((lineTotals 0 cs).1.map (· / width)).sum + (lineTotals 0 cs).2

/-- Such codes are the ones that draw a bitmap of any colors. -/
theorem draws_iff {width size : Nat} {cs : List Code} : ∀ {row xpos : Nat},
    Draws width size (fun _ _ => True) cs (width * row + xpos) xpos ↔
      (∀ n ∈ (lineTotals xpos cs).1, width ≤ n) ∧
        size ≤ width * (row + ((lineTotals xpos cs).1.map (· / width)).sum) +
          (lineTotals xpos cs).2 := by
  induction cs with
  | nil =>
    intro row xpos
    simp [Draws, lineTotals]
  | cons c cs ih =>
    intro row xpos
    cases c with
    | newLine =>
      have hpos : width * row + xpos - (width * row + xpos) % width =
          width * (row + xpos / width) + 0 := by
        have := Nat.div_add_mod xpos width
        rw [Nat.mul_add_mod, Nat.mul_add]
        omega
      rw [Draws, hpos, ih, lineTotals, List.forall_mem_cons, List.map_cons, List.sum_cons,
        ← Nat.add_assoc, and_assoc]
    | run r =>
      rw [Draws, lineTotals, Nat.add_assoc, ih]
      exact and_iff_right (fun _ _ => trivial)

theorem fillsBitmap_iff {width height : Nat} {cs : List Code} :
    FillsBitmap width height cs ↔ Draws width (width * height) (fun _ _ => True) cs 0 0 := by
  have h : Draws width (width * height) (fun _ _ => True) cs (width * 0 + 0) 0 ↔ _ := draws_iff
  rw [Nat.zero_add, Nat.mul_zero] at h
  exact ⟨fun hf => h.mpr ⟨hf.full, hf.enough⟩, fun hd => ⟨(h.mp hd).1, (h.mp hd).2⟩⟩

namespace Decoding

section Loop

variable {width size rleSize : Nat} {palette : List UInt32} {mem : Nat → UInt8}

/-- **What a round keeps** where there is a pixel to draw, the loop keeps. -/
theorem loop_rule {P : Decoding → Prop}
    (hnext : ∀ d c, P d → d.pos < size → P (d.next width size palette c)) (rounds : Nat) :
    ∀ d : Decoding, P d → d.pos < size →
      ∀ d' ∈ (d.loop width size rleSize palette rounds).value mem, P d' := by
  induction rounds with
  | zero =>
    intro d _ _ d' hd'
    cases hd'
  | succ rounds ih =>
    intro d hd hpos d' hd'
    obtain ⟨c, hc⟩ := exists_code mem d.idx
    rw [value_loop hc] at hd'
    split at hd'
    case isTrue h => exact ih _ (hnext d c hd hpos) h.1 d' hd'
    case isFalse h => exact Option.some.inj hd' ▸ hnext d c hd hpos

/-- The loop ends: every round takes a byte off the data or more. -/
theorem loop_isSome (rounds : Nat) : ∀ {d : Decoding}, d.pos < size → rleSize < d.idx + rounds →
    d.idx ≤ rleSize → ((d.loop width size rleSize palette rounds).value mem).isSome = true := by
  induction rounds with
  | zero =>
    intro d _ hrounds hidx
    omega
  | succ rounds ih =>
    intro d hpos hrounds _
    obtain ⟨c, hc⟩ := exists_code mem d.idx
    rw [value_loop hc]
    split
    case isTrue h =>
      have hnext : (d.next width size palette c).idx = d.idx + c.bytes.length :=
        next_idx c hpos.le
      have hlen := c.length_pos
      exact ih h.1 (by omega) h.2.le
    case isFalse => rfl

/-- A pixel without a value, in a row that is over. -/
def Lost (width k : Nat) (d : Decoding) : Prop :=
  d.decoded k = none ∧ ∃ row, k < width * row ∧ width * row ≤ d.pos

theorem Lost.next {k : Nat} {d : Decoding} (h : d.Lost width k) (hd : d.pos ≤ size) (c : Code) :
    (d.next width size palette c).Lost width k := by
  obtain ⟨hnone, row, hk, hrow⟩ := h
  cases c with
  | newLine =>
    refine ⟨hnone, row, hk, ?_⟩
    have hdiv : width * row ≤ width * (d.pos / width) := Nat.mul_le_mul_left _ (by
      rcases Nat.eq_zero_or_pos width with h0 | hpos
      · rw [h0, Nat.zero_mul] at hk
        exact absurd hk (Nat.not_lt_zero _)
      · exact (Nat.le_div_iff_mul_le hpos).mpr (by rwa [Nat.mul_comm]))
    have := Nat.div_add_mod d.pos width
    show width * row ≤ if d.xpos < width then d.pos + (width - d.pos % width)
      else d.pos - d.pos % width
    split <;> omega
  | run r =>
    rw [next_run d r hd]
    refine ⟨?_, row, hk, ?_⟩
    · simp only
      rw [if_neg (by omega)]
      exact hnone
    · simp only
      omega

/-- Nothing has a value behind `pos` and behind the last pixel but one of the row: an overlong
line before may have left fewer pixels than a row. -/
def Blank (width : Nat) (d : Decoding) : Prop :=
  ∃ row, d.pos = width * row + d.xpos ∧
    ∀ k, d.pos ≤ k → width * row + width - 1 ≤ k → d.decoded k = none

theorem blank_start : Blank width .start := ⟨0, rfl, fun _ _ _ => rfl⟩

theorem Blank.newLine {d : Decoding} (h : d.Blank width) (hwidth : 0 < width)
    (hfull : width ≤ d.xpos) : (d.next width size palette .newLine).Blank width := by
  obtain ⟨row, hpos, hnone⟩ := h
  have hdiv := Nat.div_add_mod d.xpos width
  have hmod := Nat.mod_lt d.xpos hwidth
  have hpos' : d.pos - d.pos % width = width * (row + d.xpos / width) := by
    rw [hpos, Nat.mul_add_mod, Nat.mul_add]
    omega
  refine ⟨row + d.xpos / width, (next_newLine hfull).trans hpos', fun k _ hk => ?_⟩
  rw [Nat.mul_add] at hk
  exact hnone k (by omega) (by omega)

theorem Blank.run {d : Decoding} (h : d.Blank width) {r : Run} (hin : d.pos + r.count < size) :
    (d.next width size palette (.run r)).Blank width := by
  obtain ⟨row, hpos, hnone⟩ := h
  rw [next_run d r (by omega), min_eq_left hin.le]
  refine ⟨row, by simp only; omega, fun k hk hrow => ?_⟩
  simp only at hk ⊢
  rw [if_neg (by omega)]
  exact hnone k (by omega) hrow

theorem row_le {pos row xpos height : Nat} (hpos : pos = width * row + xpos)
    (hin : pos < width * height) : width * row + width ≤ width * height := by
  rw [← Nat.mul_succ]
  exact Nat.mul_le_mul_left _ (Nat.lt_of_mul_lt_mul_left (a := width) (by omega))

/-- **A new line in a line that is not full loses** the last pixel of the row. -/
theorem Blank.lost {d : Decoding} (h : d.Blank width) (hshort : d.xpos < width) {height : Nat}
    (hin : d.pos < width * height) :
    ∃ k < width * height, (d.next width size palette .newLine).Lost width k := by
  obtain ⟨row, hpos, hnone⟩ := h
  have hrow := row_le hpos hin
  refine ⟨width * row + width - 1, by omega, hnone _ (by omega) (Nat.le_refl _), row + 1, ?_, ?_⟩
  · rw [Nat.mul_succ]
    omega
  · have hmod : d.pos % width = d.xpos := by
      rw [hpos, Nat.mul_add_mod, Nat.mod_eq_of_lt hshort]
    show _ ≤ if d.xpos < width then d.pos + (width - d.pos % width) else d.pos - d.pos % width
    rw [if_pos hshort, hmod, Nat.mul_succ]
    omega

/-- The last pixel of the bitmap has no value before the end. -/
theorem Blank.last {d : Decoding} (h : d.Blank width) {height : Nat}
    (hin : d.pos < width * height) : d.decoded (width * height - 1) = none := by
  obtain ⟨row, hpos, hnone⟩ := h
  have hrow := row_le hpos hin
  exact hnone _ (by omega) (by omega)

/-- The loop writes inside the bitmap. -/
theorem loop_writes {rounds : Nat} {d d' : Decoding} (hd : ∀ k, size ≤ k → d.decoded k = none)
    (hpos : d.pos < size) (hd' : d' ∈ (d.loop width size rleSize palette rounds).value mem) :
    ∀ k, size ≤ k → d'.decoded k = none := by
  refine loop_rule (P := fun d => ∀ k, size ≤ k → d.decoded k = none) (fun d c h hpos => ?_) rounds
    d hd hpos d' hd'
  cases c with
  | newLine => exact h
  | run r =>
    rw [next_run d r hpos.le]
    intro k hk
    simp only
    rw [if_neg (by omega)]
    exact h k hk

end Loop

end Decoding

section Necessary

variable {width height : Nat} {palette : List UInt32} {data : List UInt8} {behind : Nat → UInt8}

theorem encode_cons_prefix {c : Code} {cs : List Code} {l : List UInt8} (hc : c.bytes <+: l)
    (hcs : encode cs <+: l.drop c.bytes.length) : encode (c :: cs) <+: l := by
  obtain ⟨t, rfl⟩ := hc
  rw [List.drop_left] at hcs
  exact (List.prefix_append_right_inj _).mpr hcs

/-- **Where every pixel gets a value** and no byte behind the data is read, the data behind `idx`
begin with codes that draw the rest. -/
theorem exists_draws (hwidth : 0 < width) (rounds : Nat) : ∀ {d d' : Decoding},
    d.pos < width * height → d.Blank width →
    d' ∈ (d.loop width (width * height) data.length palette rounds).value (memory data behind) →
    (∀ k < width * height, d'.decoded k ≠ none) →
    (∀ p ∈ (d.loop width (width * height) data.length palette rounds).places (memory data behind),
      p < data.length) →
    ∃ cs, encode cs <+: data.drop d.idx ∧
      Draws width (width * height) (fun _ _ => True) cs d.pos d.xpos := by
  induction rounds with
  | zero =>
    intro d d' _ _ hd'
    cases hd'
  | succ rounds ih =>
    intro d d' hpos hblank hd' hall hreads
    obtain ⟨c, hc⟩ := exists_code (memory data behind) d.idx
    rw [Decoding.places_loop hc, List.forall_mem_append] at hreads
    obtain ⟨hcode, hreads⟩ := hreads
    have hlen : d.idx + c.bytes.length ≤ data.length := by
      have hlast := hcode (d.idx + c.bytes.length - 1)
        (List.mem_range'_1.mpr (by have := c.length_pos; omega))
      omega
    have hbytes : c.bytes <+: data.drop d.idx := (stands_memory hlen).mp hc
    rw [Decoding.value_loop hc] at hd'
    -- a round that leaves pixels and no blank line behind goes on
    have hgo : (d.next width (width * height) palette c).pos < width * height →
        (d.next width (width * height) palette c).Blank width →
        ∃ cs, encode cs <+: (data.drop d.idx).drop c.bytes.length ∧
          Draws width (width * height) (fun _ _ => True) cs
            (d.next width (width * height) palette c).pos
            (d.next width (width * height) palette c).xpos := by
      intro hpos' hblank'
      by_cases hidx : (d.next width (width * height) palette c).idx < data.length
      · rw [if_pos ⟨hpos', hidx⟩] at hd' hreads
        obtain ⟨cs, hcs, hdraws⟩ := ih hpos' hblank' hd' hall hreads
        rw [Decoding.next_idx c hpos.le, ← List.drop_drop] at hcs
        exact ⟨cs, hcs, hdraws⟩
      · rw [if_neg (fun h => hidx h.2)] at hd'
        obtain rfl := Option.some.inj hd'
        exact absurd (hblank'.last hpos') (hall _ (by omega))
    cases c with
    | newLine =>
      by_cases hfull : width ≤ d.xpos
      · have hnext : (d.next width (width * height) palette .newLine).pos =
            d.pos - d.pos % width := Decoding.next_newLine hfull
        obtain ⟨cs, hcs, hdraws⟩ := hgo (by rw [hnext]; omega) (hblank.newLine hwidth hfull)
        rw [hnext] at hdraws
        exact ⟨.newLine :: cs, encode_cons_prefix hbytes hcs, hfull, hdraws⟩
      · obtain ⟨k, hk, hlost⟩ : ∃ k < width * height,
            (d.next width (width * height) palette .newLine).Lost width k :=
          hblank.lost (Nat.lt_of_not_le hfull) hpos
        have hlost' : d'.Lost width k := by
          split at hd'
          case isTrue h =>
            exact Decoding.loop_rule (fun d c h hpos => h.next hpos.le c) rounds _ hlost h.1 d' hd'
          case isFalse h => exact Option.some.inj hd' ▸ hlost
        exact absurd hlost'.1 (hall k hk)
    | run r =>
      by_cases hend : width * height ≤ d.pos + r.count
      · refine ⟨[.run r], ?_, fun _ _ => trivial, hend⟩
        exact encode_cons_prefix hbytes (List.nil_prefix)
      · have hin : d.pos + r.count < width * height := by omega
        obtain ⟨cs, hcs, hdraws⟩ := hgo
          (by rw [Decoding.next_run d r hpos.le, min_eq_left hin.le]; exact hin) (hblank.run hin)
        rw [Decoding.next_run d r hpos.le, min_eq_left hin.le] at hdraws
        exact ⟨.run r :: cs, encode_cons_prefix hbytes hcs, fun _ _ => trivial, hdraws⟩

end Necessary

/-- **Decoding is safe**: only data are read, only pixels of the bitmap are written, and `S_OK`
means that every pixel has a value. -/
structure DecodesSafely (room : Bool) (sub : Subtitle) (mem : Nat → UInt8) : Prop where
  reads : ∀ p ∈ (decodeRLE room sub).places mem, p < sub.rleSize
  writes : ∀ d ∈ ((decodeRLE room sub).value mem).2, ∀ k, d.decoded k ≠ none → k < sub.area
  assigns : ((decodeRLE room sub).value mem).1 = .ok →
    ∃ d ∈ ((decodeRLE room sub).value mem).2, ∀ k < sub.area, d.decoded k ≠ none

/-- `decodeRLE` ends for any data. -/
theorem decodeRLE_ends {sub : Subtitle} (hsized : sub.Sized) (hrle : sub.rle.isSome = true)
    (mem : Nat → UInt8) : ((decodeRLE true sub).value mem).2.isSome = true := by
  obtain ⟨data, hdata⟩ := Option.isSome_iff_exists.mp hrle
  rw [value_decodeRLE hdata]
  exact Decoding.loop_isSome _ hsized.area_pos
    (by rw [Decoding.start, Nat.zero_add]; exact Nat.lt_succ_self _) (Nat.zero_le _)

theorem decodeRLE_writes {sub : Subtitle} (hsized : sub.Sized) (room : Bool) (mem : Nat → UInt8) :
    ∀ d ∈ ((decodeRLE room sub).value mem).2, ∀ k, d.decoded k ≠ none → k < sub.area := by
  intro d hd k hk
  cases hrle : sub.rle with
  | none =>
    rw [decodeRLE, hrle] at hd
    cases hd
  | some data =>
    cases room with
    | false =>
      rw [decodeRLE, hrle] at hd
      cases hd
    | true =>
      rw [value_decodeRLE hrle] at hd
      by_contra hout
      exact hk (Decoding.loop_writes (fun _ _ => rfl) hsized.area_pos hd k (Nat.le_of_not_lt hout))

/-- **When decoding is safe**: there is no room for the bitmap, or the data begin with codes that
fill it. -/
theorem decodesSafely_iff {sub : Subtitle} {data : List UInt8} (hsized : sub.Sized)
    (hrle : sub.rle = some data) (hsize : sub.rleSize = data.length) (room : Bool)
    (behind : Nat → UInt8) :
    DecodesSafely room sub (memory data behind) ↔
      (room = true → ∃ cs, encode cs <+: data ∧
        FillsBitmap sub.width.toNat sub.height.toNat cs) := by
  cases room with
  | false =>
    have hfail : decodeRLE false sub = pure (.eFail, none) := by
      rw [decodeRLE, hrle]
      rfl
    refine iff_of_true ⟨?_, decodeRLE_writes hsized false _, ?_⟩ Bool.noConfusion
    · rw [hfail]
      exact fun p hp => absurd hp List.not_mem_nil
    · rw [hfail]
      exact fun h => HRESULT.noConfusion h
  | true =>
    constructor
    · rintro ⟨hreads, -, hassigns⟩ -
      rw [value_decodeRLE hrle] at hassigns
      rw [places_decodeRLE hrle, hsize] at hreads
      rw [hsize] at hassigns
      obtain ⟨d, hd, hall⟩ := hassigns rfl
      obtain ⟨cs, hcs, hdraws⟩ := exists_draws (Int.lt_toNat.mpr hsized.width_pos) _
        hsized.area_pos Decoding.blank_start hd hall hreads
      exact ⟨cs, hcs, fillsBitmap_iff.mpr hdraws⟩
    · intro h
      obtain ⟨cs, hcs, hfills⟩ := h rfl
      obtain ⟨⟨d, hd, hdrawn, hpos⟩, hreads⟩ :=
        decodeRLE_draws hsized hrle hsize behind hcs (fillsBitmap_iff.mp hfills)
      refine ⟨hreads, decodeRLE_writes hsized true _, fun _ => ⟨d, by rw [hd]; rfl, ?_⟩⟩
      intro k hk
      obtain ⟨c, -, hc⟩ := hdrawn k (hk.trans_eq hpos.symm)
      rw [hc]
      exact Option.some_ne_none _

theorem decodesSafely_iff_fiveRuns :
    DecodesSafely true fiveRunsPicture (memory (encode (fiveRuns.flatMap lineCodes)) fun _ => 1) ↔
      (true = true → ∃ cs, encode cs <+: encode (fiveRuns.flatMap lineCodes) ∧
        FillsBitmap 4 2 cs) :=
  decodesSafely_iff ⟨by decide, by decide, by decide, by decide⟩ rfl rfl true _

/-- Two pixels, of which the data give one, and then half of a code. -/
def cutPicture : Subtitle :=
  { Subtitle.zero with width := 2, height := 1, rleSize := 2, rle := some [5, 0] }

/-- The byte behind the data is read, and the second pixel has no value. -/
theorem decodes_cut_code :
    2 ∈ (decodeRLE true cutPicture).places (memory [5, 0] fun _ => 0) ∧
      ((decodeRLE true cutPicture).value (memory [5, 0] fun _ => 0)).1 = .ok ∧
      (((decodeRLE true cutPicture).value (memory [5, 0] fun _ => 0)).2.map (·.decoded 1)) =
        some none ∧
      ¬ DecodesSafely true cutPicture (memory [5, 0] fun _ => 0) := by
  have hread : 2 ∈ (decodeRLE true cutPicture).places (memory [5, 0] fun _ => 0) := by decide
  exact ⟨hread, by decide, by decide, fun h => absurd (h.reads 2 hread) (by decide)⟩

end DWindow.PGS
