import DWindow.VobSub.Decode
import Mathlib.Data.List.GetD

/-!
# Decoding that ends

The loop over the control blocks goes forward: a block is followed from behind itself only.  A
line of the picture ends with its field, a code of it takes a nibble at least, and there are no
more lines than rows.  What is left is the arithmetic of a rectangle that no block has set: with
an end of the first field at 65535 its line may be read round and round.  But then the place in
the bitmap becomes negative, and the run ends where it writes there (`decode_ends`).  In a
rectangle of the packet the line comes to its end (`decode_ends_of_rect`).
-/

namespace DWindow.VobSub.Decode

open CInt Looking Orbit

variable {k : Packet} {p : VobSubParser} {mem : Nat → UInt8} {s t : State} {stack : Stack}

/-- A turn that writes inside the bitmap.  A negative number of pixels is none at all, and
`memset` clears as many bytes. -/
def WritesInside (k : Packet) (p : VobSubParser) (mem : Nat → UInt8) (s : State) : Prop :=
  s.phase = .pixels → 0 ≤ s.pixelCount ∧
    ∀ pixel ∈ ((step k p s).value mem).1, 0 ≤ pixel.1 ∧ pixel.1 < s.pixelCount

instance (k : Packet) (p : VobSubParser) (mem : Nat → UInt8) (s : State) :
    Decidable (WritesInside k p mem s) := inferInstanceAs (Decidable (_ → _))

/-- A turn of a run that ends when it writes outside the bitmap. -/
def nextInside (k : Packet) (p : VobSubParser) (mem : Nat → UInt8) (s : State) : Option State :=
  if WritesInside k p mem s then next k p mem s else none

theorem next_of_inside (h : nextInside k p mem s = some t) :
    next k p mem s = some t ∧ WritesInside k p mem s := by
  unfold nextInside at h
  split at h
  · next hinside => exact ⟨h, hinside⟩
  · cases h

/-! ## The control blocks -/

/-- The sides of a rectangle are `LONG`s. -/
structure Rect.Longs (r : Rect) : Prop where
  left : -2147483648 ≤ r.left ∧ r.left < 2147483648
  top : -2147483648 ≤ r.top ∧ r.top < 2147483648
  bottom : r.bottom < 2147483648

theorem Rect.Read.longs {r : Rect} (h : r.Read) : r.Longs := by
  obtain ⟨hleft, htop, -, hbottom⟩ := h
  exact ⟨by omega, by omega, by omega⟩

structure Controls (k : Packet) (s : State) : Prop where
  phase : s.phase ≠ .pixels
  nextctrlblk : s.nextctrlblk < 65536
  datasize : (s.phase = .block ∧ s.nextctrlblk = k.datasize) ∨ k.datasize = 0 ∨
    k.datasize + 2 < k.packetsize
  longs : s.rect.Longs
  rect : s.rectSet = true → s.rect.Read
  offsets : s.nOffset0 < 65536 ∧ s.nOffset1 < 65536
  plane : s.nPlane = false

/-- What holds when the loop over the codes is entered. -/
structure Entered (k : Packet) (s : State) : Prop where
  phase : s.phase = .pixels
  datasize : k.datasize = 0 ∨ k.datasize + 2 < k.packetsize
  longs : s.rect.Longs
  rect : s.rectSet = true → s.rect.Read
  offsets : s.nOffset0 < 65536 ∧ s.nOffset1 < 65536
  plane : s.nPlane = false
  aligned : s.fAligned = true
  x : s.x = s.rect.left
  y : s.y = s.rect.top

/-- The blocks and commands that may still come. -/
def controlRank (s : State) : Nat :=
  match s.phase with
  | .block => 4 * (65544 - s.nextctrlblk)
  | .command => 4 * (65544 - s.i) + 1
  | .pixels => 0

theorem controls_start (k : Packet) (stack : Stack) : Controls k (start k stack) where
  phase := by
    intro h
    cases h
  nextctrlblk := k.datasize_lt
  datasize := .inl ⟨rfl, rfl⟩
  longs := ⟨⟨stack.left.le_toInt, stack.left.toInt_lt⟩, ⟨stack.top.le_toInt, stack.top.toInt_lt⟩,
    stack.bottom.toInt_lt⟩
  rect := by
    intro h
    cases h
  offsets := ⟨stack.nOffset0.toNat_lt, stack.nOffset1.toNat_lt⟩
  plane := rfl

theorem memory_nil {n : Nat} (h : k.packetsize ≤ n) : k.memory [] n = 0 := by
  rw [Packet.memory, List.append_nil, List.getD_eq_default _ _ h]

/-- **The control blocks go forward**, up to the codes. -/
theorem controls_next (hs : Controls k s) (h : next k p (k.memory []) s = some t) :
    Entered k t ∨ Controls k t ∧ controlRank t < controlRank s := by
  have hsize : k.packetsize < 65536 := k.size_lt
  cases hphase : s.phase with
  | block =>
    obtain ⟨hge, hle, hword, ht⟩ := next_block hphase h
    have hdatasize : k.datasize = 0 ∨ k.datasize + 2 < k.packetsize := by
      rcases hs.datasize with ⟨-, hfirst⟩ | hrest
      · by_contra hno
        rw [not_or, Nat.not_lt] at hno
        rw [value_word, hfirst, memory_nil hno.2, memory_nil (by omega)] at hword
        have hzero : t.nextctrlblk = 0 := hword
        omega
      · exact hrest
    have hnext := hs.nextctrlblk
    have hrank : controlRank t < controlRank s := by
      rw [ht]
      simp only [controlRank, hphase]
      omega
    have hlt : t.nextctrlblk < 65536 := by omega
    refine .inr ⟨?_, hrank⟩
    rw [ht]
    refine ⟨fun h => ?_, hlt, .inr hdatasize, hs.longs, hs.rect, hs.offsets, hs.plane⟩
    cases h
  | command =>
    have hdatasize : k.datasize = 0 ∨ k.datasize + 2 < k.packetsize := by
      rcases hs.datasize with ⟨hblock, -⟩ | hrest
      · rw [hphase] at hblock
        cases hblock
      · exact hrest
    have hoffsets := hs.offsets
    rcases next_command hphase h with hc | hl
    · have hrank : controlRank t < controlRank s := by
        obtain ⟨hforward, hin⟩ := hc.forward
        simp only [controlRank, hphase, hc.phase]
        omega
      refine .inr ⟨⟨fun h => ?_, hc.nextctrlblk ▸ hs.nextctrlblk, .inr hdatasize, ?_, ?_, ?_,
        hc.plane.trans hs.plane⟩, hrank⟩
      · rw [hc.phase] at h
        cases h
      · rcases hc.rect with ⟨hrect, -⟩ | ⟨hread, -⟩
        · exact hrect ▸ hs.longs
        · exact hread.longs
      · rcases hc.rect with ⟨hrect, hset⟩ | ⟨hread, -⟩
        · rw [hrect, hset]
          exact hs.rect
        · exact fun _ => hread
      · rcases hc.offsets with ⟨h₀, h₁, -⟩ | ⟨h₀, h₁, -⟩
        · omega
        · exact ⟨h₀, h₁⟩
    · obtain ⟨hrect, hset⟩ := hl.rect
      obtain ⟨h₀, h₁, -⟩ := hl.offsets
      rcases hl.phase with ⟨hblock, hback⟩ | ⟨hpixels, haligned, hx, hy⟩
      · have hrank : controlRank t < controlRank s := by
          simp only [controlRank, hphase, hblock]
          omega
        refine .inr ⟨⟨fun h => ?_, hl.nextctrlblk ▸ hs.nextctrlblk, .inr hdatasize,
          hrect ▸ hs.longs, ?_, by omega, hl.plane.trans hs.plane⟩, hrank⟩
        · rw [hblock] at h
          cases h
        · rw [hrect, hset]
          exact hs.rect
      · refine .inl ⟨hpixels, hdatasize, hrect ▸ hs.longs, ?_, by omega, hl.plane.trans hs.plane,
          haligned, hx, hy⟩
        rw [hrect, hset]
        exact hs.rect
  | pixels => exact absurd hphase hs.phase

/-! ## Lines in fields that end below place 65535 -/

structure Lines (k : Packet) (s : State) : Prop where
  phase : s.phase = .pixels
  datasize : k.datasize < 65533
  offsets : s.nOffset0 < 65536 ∧ s.nOffset1 < 65535
  bottom : s.rect.bottom < 2147483648
  y : -2147483648 ≤ s.y ∧ s.y < 2147483648

def rowRank (y : Int) : Nat := if y < 2147483647 then (2147483647 - y).toNat else 4294967296

def lineRank (s : State) : Nat := rowRank s.y * 131073 + (131072 - s.pos.nibble)

theorem off_lt_iff {q : Pos} {n : Nat} : q.off < n ↔ q.nibble < 2 * n := by
  rw [off_eq]
  omega

theorem nibble_behind (mem : Nat → UInt8) {q : Pos} {n : Nat} (h : q.off < n) (hn : n < 65535) :
    q.nibble < (q.behind mem).nibble ∧ (q.behind mem).off < 65536 ∧
      (q.behind mem).off < n + 2 := by
  obtain ⟨hone, hfour⟩ := codeNibbles_pos mem q
  have hq := off_lt_iff.mp h
  have hbehind : (q.behind mem).nibble = q.nibble + codeNibbles mem q :=
    nibble_iterate (by omega)
  rw [off_eq (q.behind mem), hbehind]
  omega

theorem off_aligned {q : Pos} {n : Nat} (h : q.off < n + 2) (hn : n < 65533) :
    q.aligned.off < 65535 := by
  unfold Pos.aligned Pos.next
  split
  · omega
  · show (q.off + 1) % 65536 < 65535
    omega

theorem off_aligned_lt {q : Pos} (h : q.off < 65536) : q.aligned.off < 65536 := by
  unfold Pos.aligned Pos.next
  split
  · exact h
  · exact Nat.mod_lt _ (by decide)

/-- The next row is nearer to the last one. -/
theorem rowRank_lt {y bottom : Int} (hbottom : bottom < 2147483648)
    (h : toInt32 (y + 1) < bottom) (hy : -2147483648 ≤ y ∧ y < 2147483648) :
    rowRank (toInt32 (y + 1)) < rowRank y := by
  unfold rowRank
  rw [if_pos (by omega)]
  by_cases hlast : y < 2147483647
  · rw [if_pos hlast, toInt32_of_lt (by omega) (by omega)]
    omega
  · rw [if_neg hlast]
    have hrange' := toInt32_range (y + 1)
    omega

/-- **Every code gets on**, in its row or to the next one. -/
theorem lines_next (hs : Lines k s) (h : next k p mem s = some t) :
    Lines k t ∧ lineRank t < lineRank s := by
  rw [next_pixels hs.phase] at h
  have hend : s.fieldEnd k < 65535 := by
    unfold State.fieldEnd
    split
    · exact hs.datasize.trans (by decide)
    · exact hs.offsets.2
  obtain ⟨h₀, h₁⟩ := hs.offsets
  split at h
  · next hgoes =>
    obtain ⟨hless, hoff, hend'⟩ := nibble_behind mem hgoes hend
    have hnibble : s.pos.nibble < 131072 := by
      have := off_lt_iff.mp hgoes
      omega
    split at h
    · cases h
      refine ⟨⟨?_, hs.datasize, ⟨?_, ?_⟩, ?_, ?_⟩, ?_⟩
      · simpa using hs.phase
      · show (s.setPos _).nOffset0 < _
        rw [setPos_nOffset0]
        split
        · exact h₀
        · exact hoff
      · show (s.setPos _).nOffset1 < _
        rw [setPos_nOffset1]
        split
        · next hplane =>
          rw [State.fieldEnd, if_pos hplane] at hend'
          have := hs.datasize
          omega
        · exact h₁
      · simpa using hs.bottom
      · simpa using hs.y
      · unfold lineRank
        rw [pos_setPos]
        show rowRank (s.setPos _).y * _ + _ < _
        rw [setPos_y]
        omega
    · split at h
      · cases h
      · next hrow =>
        cases h
        rw [not_le] at hrow
        have hrank := rowRank_lt hs.bottom hrow hs.y
        refine ⟨⟨?_, hs.datasize, ⟨?_, ?_⟩, ?_, toInt32_range _⟩, ?_⟩
        · show (s.setPos _).phase = _
          rw [setPos_phase]
          exact hs.phase
        · show (s.setPos _).nOffset0 < _
          rw [setPos_nOffset0]
          split
          · exact h₀
          · exact off_aligned_lt hoff
        · show (s.setPos _).nOffset1 < _
          rw [setPos_nOffset1]
          split
          · next hplane =>
            rw [State.fieldEnd, if_pos hplane] at hend'
            exact off_aligned hend' hs.datasize
          · exact h₁
        · show (s.setPos _).rect.bottom < _
          rw [setPos_rect]
          exact hs.bottom
        · have hy : (s.lineEnd mem).y = toInt32 (s.y + 1) := rfl
          unfold lineRank
          rw [hy]
          omega
  · cases h

theorem ends_of_lines (hs : Lines k s) : Ends (next k p mem) s :=
  ends_of_rank (Lines k) lineRank (fun _ _ hs h => lines_next hs h) hs

/-! ## A first field that ends at place 65535 -/

/-- What holds at every code of its first line. -/
structure FirstLine (s : State) : Prop where
  phase : s.phase = .pixels
  plane : s.nPlane = false
  nOffset1 : s.nOffset1 = 65535
  y : s.y = s.rect.top

/-- The second field is empty. -/
structure SecondField (s : State) : Prop where
  phase : s.phase = .pixels
  plane : s.nPlane = true
  nOffset1 : s.nOffset1 = 65535

theorem SecondField.next (hs : SecondField s) : next k p mem s = none := by
  have hdatasize := k.datasize_lt
  rw [next_pixels hs.phase, if_neg]
  rw [State.pos, State.fieldEnd, hs.plane, if_pos rfl, if_pos rfl, hs.nOffset1]
  show ¬ 65535 < k.datasize
  omega

/-- **A code of the line** is a run that the line goes on behind, or leads to the second
field. -/
theorem FirstLine.next (hs : FirstLine s) (h : next k p mem s = some t) :
    (FirstLine t ∧ t.rect = s.rect ∧ isRun mem s.pos = true ∧ t.x < s.rect.right ∧
      t.x = toInt32 (s.x + (codeAt mem s.pos / 4 : Nat))) ∨ SecondField t := by
  rw [next_pixels hs.phase] at h
  have hoffset : ∀ q, (s.setPos q).nOffset1 = 65535 := by
    intro q
    rw [setPos_nOffset1, hs.plane, if_neg Bool.false_ne_true, hs.nOffset1]
  split at h
  · split at h
    · next hstays =>
      cases h
      refine .inl ⟨⟨?_, ?_, hoffset _, ?_⟩, setPos_rect _ _, hstays.1, hstays.2, if_pos hstays.1⟩
      · simpa using hs.phase
      · simpa using hs.plane
      · simpa using hs.y
    · split at h
      · cases h
      · cases h
        refine .inr ⟨(setPos_phase _ _).trans hs.phase, ?_, hoffset _⟩
        show (!s.nPlane) = true
        rw [hs.plane]
        rfl
  · cases h

/-- In a rectangle of the packet a run comes nearer to the right edge. -/
theorem FirstLine.ends_of_read (hs : FirstLine s) (hread : s.rect.Read) (hx : s.x = s.rect.left) :
    Ends (Decode.next k p mem) s := by
  refine ends_of_rank
    (fun s => (FirstLine s ∧ s.rect.Read ∧ 0 ≤ s.x ∧ s.x < 4096) ∨ SecondField s)
    (fun s => if s.nPlane = true then 0 else (s.rect.right - s.x).toNat + 1) ?_
    (.inl ⟨hs, hread, by rw [hx]; exact hread.left⟩)
  rintro s t (⟨hs, hread, hx⟩ | hs) hnext
  · rw [hs.plane, if_neg Bool.false_ne_true]
    rcases hs.next hnext with ⟨ht, hrect, hrun, hless, hbehind⟩ | ht
    · obtain ⟨hone, hmany⟩ := run_bounds hrun
      have hright := hread.right
      rw [toInt32_of_lt (by omega) (by omega)] at hbehind
      rw [ht.plane, if_neg Bool.false_ne_true, hrect]
      exact ⟨.inl ⟨ht, hread, by omega⟩, by omega⟩
    · rw [ht.plane, if_pos rfl]
      exact ⟨.inr ht, Nat.succ_pos _⟩
  · rw [hs.next] at hnext
    cases hnext

theorem FirstLine.pixelAt (hs : FirstLine s) : s.pixelAt s.x = toInt32 (s.x - s.rect.left) := by
  rw [State.pixelAt, hs.y, Int.sub_self, Int.mul_zero, Int.zero_add]

/-- The first pixel of a run is written if it is in front of the end. -/
theorem mem_draw {code : Nat} {x count : Int} (hcount : 0 < count)
    (hlt : s.pixelAt x < s.pixelCount) :
    (s.pixelAt x, s.color p code) ∈ s.draw p code x count := by
  obtain ⟨n, hn⟩ : ∃ n, count.toNat = n + 1 := ⟨count.toNat - 1, by omega⟩
  rw [State.draw, hn, List.range_succ_eq_map, List.map_cons, Nat.cast_zero, Int.add_zero,
    List.takeWhile_cons, if_pos (decide_eq_true hlt), List.map_cons]
  exact List.mem_cons_self

/-- **A run that is drawn inside the bitmap** begins inside or behind it, not in front. -/
theorem FirstLine.pixelAt_nonneg (hs : FirstLine s) (hnext : Decode.next k p mem s = some t)
    (hinside : WritesInside k p mem s) (hrun : isRun mem s.pos = true) :
    0 ≤ s.pixelAt s.x := by
  obtain ⟨hcount, hwrites⟩ := hinside hs.phase
  by_contra hneg
  have hdrawn : (s.pixelAt s.x, s.color p (codeAt mem s.pos)) ∈ s.drawnRun p mem := by
    rw [State.drawnRun, if_pos hrun]
    exact mem_draw (Nat.cast_pos.mpr (run_bounds hrun).1) (by omega)
  have hgoes : s.pos.off < s.fieldEnd k := by
    by_contra hends
    rw [next_pixels hs.phase, if_neg hends] at hnext
    cases hnext
  refine hneg (hwrites (s.pixelAt s.x, s.color p (codeAt mem s.pos)) ?_).1
  rw [step, hs.phase]
  dsimp only
  rw [value_pixelStep, if_pos hgoes, value_drawCode]
  split
  · exact hdrawn
  · exact List.mem_append_left _ hdrawn

theorem toInt32_sub_run (x left : Int) (n : Nat) :
    toInt32 (toInt32 (x + n) - left) = toInt32 (toInt32 (x - left) + n) := by
  obtain ⟨c, hc⟩ := Int.dvd_self_sub_bmod (x := x + n) (m := 2 ^ 32)
  obtain ⟨d, hd⟩ := Int.dvd_self_sub_bmod (x := x - left) (m := 2 ^ 32)
  change _ - toInt32 _ = _ at hc hd
  refine toInt32_eq_iff.mpr ⟨d - c, ?_⟩
  push_cast at hc hd
  omega

/-- **In any rectangle a run leads on in the bitmap**, until the place is negative. -/
theorem FirstLine.ends (hs : FirstLine s) : Ends (nextInside k p mem) s := by
  refine ends_of_rank (fun s => FirstLine s ∨ SecondField s)
    (fun s => if s.nPlane = true then 0
      else if 0 ≤ s.pixelAt s.x then (2 ^ 31 - s.pixelAt s.x).toNat + 2 else 1) ?_ (.inl hs)
  rintro s t (hs | hs) h
  · obtain ⟨hnext, hinside⟩ := next_of_inside h
    rw [hs.plane, if_neg Bool.false_ne_true]
    rcases hs.next hnext with ⟨ht, hrect, hrun, -, hx⟩ | ht
    · have hplace := hs.pixelAt_nonneg hnext hinside hrun
      have hlt : s.pixelAt s.x < 2 ^ 31 := (toInt32_range _).2
      have hone := (run_bounds hrun).1
      rw [ht.plane, if_neg Bool.false_ne_true, if_pos hplace]
      have hbehind : t.pixelAt t.x =
          toInt32 (s.pixelAt s.x + (codeAt mem s.pos / 4 : Nat)) := by
        rw [ht.pixelAt, hs.pixelAt, hrect, hx, toInt32_sub_run]
      refine ⟨.inl ht, ?_⟩
      split
      · next hnonneg =>
        rw [hbehind] at hnonneg ⊢
        by_cases hsmall : s.pixelAt s.x + (codeAt mem s.pos / 4 : Nat) < 2 ^ 31
        · rw [toInt32_of_lt (by omega) hsmall]
          omega
        · have hwraps := toInt32_le_sub (Int.not_lt.mp hsmall)
          have hmany := (run_bounds hrun).2
          omega
      · omega
    · rw [ht.plane, if_pos rfl]
      refine ⟨.inr ht, ?_⟩
      split
      · exact Nat.succ_pos _
      · exact Nat.one_pos
  · rw [nextInside, hs.next, ite_self] at h
    cases h

/-! ## Decoding -/

/-- The loop over the codes is entered in a state. -/
def Enters (k : Packet) (p : VobSubParser) (mem : Nat → UInt8) (stack : Stack) (s : State) : Prop :=
  s.phase = .pixels ∧ ∃ t, Reaches (next k p mem) (start k stack) t ∧ t.phase ≠ .pixels ∧
    next k p mem t = some s

theorem Entered.lines (hs : Entered k s) (hoffset : s.nOffset1 ≠ 65535) : Lines k s := by
  have hsize : k.packetsize < 65536 := k.size_lt
  have hdatasize := hs.datasize
  have hbound := hs.offsets
  refine ⟨hs.phase, by omega, by omega, hs.longs.bottom, ?_⟩
  rw [hs.y]
  exact hs.longs.top

theorem Entered.firstLine (hs : Entered k s) (hoffset : s.nOffset1 = 65535) : FirstLine s :=
  ⟨hs.phase, hs.plane, hoffset, hs.y⟩

/-- **The loop over the codes ends.** -/
theorem Entered.ends (hs : Entered k s) : Ends (nextInside k p mem) s := by
  by_cases hoffset : s.nOffset1 = 65535
  · exact (hs.firstLine hoffset).ends
  · exact (ends_of_lines (hs.lines hoffset)).of_sooner fun _ _ h => (next_of_inside h).1

/-- In a rectangle of the packet it does so wherever it writes. -/
theorem Entered.ends_of_rect (hs : Entered k s) (hset : s.rectSet = true) :
    Ends (next k p mem) s := by
  by_cases hoffset : s.nOffset1 = 65535
  · exact (hs.firstLine hoffset).ends_of_read (hs.rect hset) hs.x
  · exact ends_of_lines (hs.lines hoffset)

/-- **Decoding ends**, with zeros behind the packet, whatever the stack holds. -/
theorem decode_ends (k : Packet) (p : VobSubParser) (stack : Stack) :
    Ends (nextInside k p (k.memory [])) (start k stack) := by
  rcases ends_or_reaches (Controls k) (Entered k) controlRank
    (fun s t hs h => controls_next hs (next_of_inside h).1) (controls_start k stack) with
    hends | ⟨s, t, hs, -, hnext, ht⟩
  · exact hends
  · exact (hs.trans (.step hnext)).ends_iff.mpr ht.ends

/-- **A packet that sets its rectangle** is decoded to an end, wherever it draws. -/
theorem decode_ends_of_rect (k : Packet) (p : VobSubParser) (stack : Stack)
    (hrect : ∀ s, Enters k p (k.memory []) stack s → s.rectSet = true) :
    Ends (next k p (k.memory [])) (start k stack) := by
  rcases ends_or_reaches (Controls k) (Entered k) controlRank
    (fun s t hs h => controls_next hs h) (controls_start k stack) with
    hends | ⟨s, t, hs, hin, hnext, ht⟩
  · exact hends
  · have henters : Enters k p (k.memory []) stack t := ⟨ht.phase, s, hs, hin.phase, hnext⟩
    exact (hs.trans (.step hnext)).ends_iff.mpr (ht.ends_of_rect (hrect t henters))

end DWindow.VobSub.Decode
