import Mathlib.Tactic.Ring
import DWindow.VobSub.DecodeEnds
import DWindow.VobSub.Subpicture

/-!
# Drawing the lines of a picture

What the loop over the codes makes of lines that stand in their fields.  A code is read and drawn
as it was written, and a line leads to the beginning of the next one in the other field, so the
pixels that are written are those of the lines, one after the other (`Ready.decodes`).
-/

namespace DWindow.VobSub.Decode

open CInt Looking

variable {k : Packet} {p : VobSubParser} {mem : Nat → UInt8} {s t : State}

/-! ## Decoding -/

/-- `decode`, with so many turns of its loops at most: the pixels that it writes, in order, and
what it ends with. -/
def decode (k : Packet) (p : VobSubParser) (mem : Nat → UInt8) :
    Nat → State → Option (List (Int × Nat) × Result)
  | 0, _ => none
  | turns + 1, s =>
    let r := (step k p s).value mem
    match r.2 with
    | .go t => (decode k p mem turns t).map fun r' => (r.1 ++ r'.1, r'.2)
    | .fail => some r
    | .ok _ _ _ _ => some r

/-- Decoding comes to its end. -/
def Decodes (k : Packet) (p : VobSubParser) (mem : Nat → UInt8) (s : State)
    (r : List (Int × Nat) × Result) : Prop :=
  ∃ turns, decode k p mem turns s = some r

theorem Decodes.go {writes : List (Int × Nat)} {r : List (Int × Nat) × Result}
    (hstep : (step k p s).value mem = (writes, .go t)) (h : Decodes k p mem t r) :
    Decodes k p mem s (writes ++ r.1, r.2) := by
  obtain ⟨turns, hturns⟩ := h
  refine ⟨turns + 1, ?_⟩
  rw [decode]
  simp only [hstep, hturns, Option.map_some]

theorem Decodes.done {writes : List (Int × Nat)} {left top width height : Int}
    (hstep : (step k p s).value mem = (writes, .ok left top width height)) :
    Decodes k p mem s (writes, .ok left top width height) := by
  refine ⟨1, ?_⟩
  rw [decode]
  simp only [hstep]

theorem Decodes.quiet {r : List (Int × Nat) × Result}
    (hstep : (step k p s).value mem = ([], .go t)) (h : Decodes k p mem t r) :
    Decodes k p mem s r := by
  simpa using h.go hstep

/-- Decoding comes to one end. -/
theorem Decodes.unique {r r' : List (Int × Nat) × Result} (h : Decodes k p mem s r)
    (h' : Decodes k p mem s r') : r = r' := by
  obtain ⟨turns, hr⟩ := h
  obtain ⟨turns', hr'⟩ := h'
  induction turns generalizing s turns' r r' with
  | zero => cases hr
  | succ turns ih =>
    cases turns' with
    | zero => cases hr'
    | succ turns' =>
      rw [decode] at hr hr'
      cases hresult : ((step k p s).value mem).2 with
      | go t =>
        simp only [hresult] at hr hr'
        obtain ⟨q, hq, rfl⟩ := Option.map_eq_some_iff.mp hr
        obtain ⟨q', hq', rfl⟩ := Option.map_eq_some_iff.mp hr'
        rw [ih hq turns' hq']
      | fail =>
        simp only [hresult] at hr hr'
        exact Option.some.inj (hr.symm.trans hr')
      | ok left top width height =>
        simp only [hresult] at hr hr'
        exact Option.some.inj (hr.symm.trans hr')

/-! ## Pixels -/

/-- What a pixel holds after some writes, the last one of which counts. -/
def pixelAfter : List (Int × Nat) → Int → Option Nat
  | [], _ => none
  | (m, c) :: writes, n => (pixelAfter writes n).or (if m = n then some c else none)

def paint : Int → List Nat → List (Int × Nat)
  | _, [] => []
  | n, c :: colors => (n, c) :: paint (n + 1) colors

@[simp] theorem paint_nil (n : Int) : paint n [] = [] := rfl

theorem paint_append (a b : List Nat) : ∀ n : Int,
    paint n (a ++ b) = paint n a ++ paint (n + a.length) b := by
  induction a with
  | nil => simp
  | cons c a ih =>
    intro n
    rw [List.cons_append, paint, paint, ih, List.cons_append, List.length_cons]
    congr 3
    push_cast
    ring

theorem paint_replicate (c : Nat) (count : Nat) : ∀ n : Int,
    paint n (List.replicate count c) =
      (List.range count).map fun i : Nat => (n + i, c) := by
  induction count with
  | zero => simp
  | succ count ih =>
    intro n
    rw [List.replicate_succ, paint, ih, List.range_succ_eq_map, List.map_cons, List.map_map]
    simp only [Nat.cast_zero, add_zero, List.cons.injEq, true_and]
    apply List.map_congr_left
    intro i _
    simp only [Function.comp_apply, Prod.mk.injEq, and_true]
    push_cast
    ring

theorem pixelAfter_paint_of_lt (colors : List Nat) : ∀ {m n : Int}, n < m →
    pixelAfter (paint m colors) n = none := by
  induction colors with
  | nil => intro _ _ _; rfl
  | cons c colors ih =>
    intro m n h
    rw [paint, pixelAfter, ih (by omega), if_neg (by omega)]
    rfl

/-- **Every pixel that is painted holds its color.** -/
theorem pixelAfter_paint (colors : List Nat) : ∀ (n : Int) (i : Nat),
    pixelAfter (paint n colors) (n + i) = colors[i]? := by
  induction colors with
  | nil => intro _ _; rfl
  | cons c colors ih =>
    intro n i
    rw [paint, pixelAfter]
    cases i with
    | zero =>
      rw [pixelAfter_paint_of_lt colors (by simp)]
      simp
    | succ i =>
      have hi : n + ((i + 1 : Nat) : Int) = n + 1 + i := by
        push_cast
        ring
      rw [hi, ih, if_neg (by omega), Option.or_none, List.getElem?_cons_succ]

/-! ## Bytes and nibbles -/

/-- Bytes that stand in a memory. -/
def Stands (mem : Nat → UInt8) : Nat → List UInt8 → Prop
  | _, [] => True
  | place, b :: bytes => mem place = b ∧ Stands mem (place + 1) bytes

def Reads (mem : Nat → UInt8) : Pos → List Nat → Prop
  | _, [] => True
  | q, n :: nibbles => nibbleAt mem q = n ∧ Reads mem q.next nibbles

theorem stands_append (a b : List UInt8) : ∀ place : Nat,
    Stands mem place (a ++ b) ↔ Stands mem place a ∧ Stands mem (place + a.length) b := by
  induction a with
  | nil => simp [Stands]
  | cons c a ih =>
    intro place
    rw [List.cons_append, Stands, Stands, ih, List.length_cons, and_assoc,
      show place + 1 + a.length = place + (a.length + 1) by omega]

theorem reads_append (a b : List Nat) : ∀ q : Pos,
    Reads mem q (a ++ b) ↔ Reads mem q a ∧ Reads mem (Pos.next^[a.length] q) b := by
  induction a with
  | nil => simp [Reads]
  | cons c a ih =>
    intro q
    rw [List.cons_append, Reads, Reads, ih, List.length_cons, Function.iterate_succ_apply,
      and_assoc]

theorem stands_getD (bytes post : List UInt8) : ∀ pre : List UInt8,
    Stands (fun n => (pre ++ (bytes ++ post)).getD n 0) pre.length bytes := by
  induction bytes with
  | nil => intro _; trivial
  | cons b bytes ih =>
    intro pre
    refine ⟨by simp, ?_⟩
    simpa using ih (pre ++ [b])

theorem Packet.Has.le {place : Nat} {bytes : List UInt8} (h : k.Has place bytes)
    (hpos : 0 < bytes.length) : place + bytes.length ≤ k.packetsize := by
  have hle := h.length_le
  rw [List.length_drop] at hle
  rw [Packet.packetsize]
  omega

theorem Packet.Has.lt {place : Nat} {bytes : List UInt8} (h : k.Has place bytes)
    (hplace : place < 65536) : place + bytes.length < 65536 := by
  have hsize : k.packetsize < 65536 := k.size_lt
  cases bytes with
  | nil => exact hplace
  | cons b bytes => exact (h.le (Nat.succ_pos _)).trans_lt hsize

theorem Packet.Has.stands {place : Nat} {bytes : List UInt8} (h : k.Has place bytes)
    (behind : List UInt8) : Stands (k.memory behind) place bytes := by
  cases bytes with
  | nil => trivial
  | cons b bytes =>
    have hplace := h.le (Nat.succ_pos _)
    obtain ⟨post, hpost⟩ := h
    have hbytes : k.bytes ++ behind =
        k.bytes.take place ++ (b :: bytes ++ (post ++ behind)) := by
      rw [← List.append_assoc (b :: bytes), hpost, ← List.append_assoc, List.take_append_drop]
    have hstands := stands_getD (b :: bytes) (post ++ behind) (k.bytes.take place)
    rw [List.length_take_of_le ((Nat.le_add_right _ _).trans hplace), ← hbytes] at hstands
    exact hstands

theorem length_pack (pad : Fin 16) (nibbles : List Nat) :
    (pack pad nibbles).length = (nibbles.length + 1) / 2 := by
  induction nibbles using pack.induct with
  | case1 => rfl
  | case2 high =>
    rw [pack]
    simp
  | case3 high low nibbles ih =>
    rw [pack, List.length_cons, ih, List.length_cons, List.length_cons]
    omega

/-- **The nibbles of a line** stand in its bytes. -/
theorem reads_pack {pad : Fin 16} {nibbles : List Nat} {place : Nat}
    (h : Stands mem place (pack pad nibbles)) (hnibbles : ∀ n ∈ nibbles, n < 16)
    (hplace : place + (pack pad nibbles).length < 65536) : Reads mem ⟨place, true⟩ nibbles := by
  induction nibbles using pack.induct generalizing place with
  | case1 => trivial
  | case2 high =>
    have hhigh : high < 16 := hnibbles high List.mem_cons_self
    have hpad := pad.isLt
    refine ⟨?_, trivial⟩
    rw [nibbleAt, if_pos rfl, h.1, UInt8.toNat_ofNat']
    omega
  | case3 high low nibbles ih =>
    have hhigh : high < 16 := hnibbles high (by simp)
    have hlow : low < 16 := hnibbles low (by simp)
    rw [pack, List.length_cons] at hplace
    have hnext : Pos.next (Pos.next ⟨place, true⟩) = ⟨place + 1, true⟩ := by
      show (⟨(place + 1) % 65536, true⟩ : Pos) = ⟨place + 1, true⟩
      rw [Nat.mod_eq_of_lt (by omega)]
    refine ⟨?_, ?_, ?_⟩
    · rw [nibbleAt, if_pos rfl, h.1, UInt8.toNat_ofNat']
      omega
    · rw [Pos.next, if_pos rfl, nibbleAt, if_neg Bool.false_ne_true, h.1, UInt8.toNat_ofNat']
      omega
    · rw [hnext]
      refine ih h.2 (fun n hn => hnibbles n ?_) (by omega)
      simp [hn]

/-! ## Codes -/

theorem Code.value_lt (c : Code) : c.value < 1024 := by
  cases c with
  | run length colorid pos lt =>
    have hcolorid := colorid.isLt
    rw [Code.value]
    omega
  | endOfLine colorid =>
    have hcolorid := colorid.isLt
    rw [Code.value]
    omega

theorem Code.nibbles_lt (c : Code) : ∀ n ∈ c.nibbles, n < 16 := by
  have hvalue := c.value_lt
  intro n hn
  rw [Code.nibbles] at hn
  split at hn
  · simp only [List.mem_cons, List.not_mem_nil, or_false] at hn
    omega
  · split at hn
    · simp only [List.mem_cons, List.not_mem_nil, or_false] at hn
      omega
    · split at hn
      · simp only [List.mem_cons, List.not_mem_nil, or_false] at hn
        omega
      · simp only [List.mem_cons, List.not_mem_nil, or_false] at hn
        omega

theorem Code.nibbles_ne_nil (c : Code) : c.nibbles ≠ [] := by
  rw [Code.nibbles]
  repeat' split
  all_goals exact List.cons_ne_nil _ _

/-- **A code is read as it was written.** -/
theorem Code.read {q : Pos} (c : Code) (h : Reads mem q c.nibbles) :
    codeNibbles mem q = c.nibbles.length ∧ codeAt mem q = c.value ∧
      (isRun mem q = true ↔ 4 ≤ c.value) := by
  have hvalue := c.value_lt
  rw [Code.nibbles] at h ⊢
  split at h
  · next hfour =>
    obtain ⟨h₀, h₁, h₂, h₃, -⟩ := h
    have hnibbles : codeNibbles mem q = 4 := by
      rw [codeNibbles, if_neg (by omega), if_neg (by omega), if_neg (by omega)]
    rw [if_pos hfour]
    refine ⟨hnibbles, ?_, ?_⟩
    · rw [codeAt, hnibbles]
      show (((0 * 16 + nibbleAt mem q) * 16 + nibbleAt mem q.next) * 16 +
        nibbleAt mem q.next.next) * 16 + nibbleAt mem q.next.next.next = _
      omega
    · rw [isRun, decide_eq_true_eq]
      omega
  · next hfour =>
    rw [if_neg hfour]
    split at h
    · next hthree =>
      obtain ⟨h₀, h₁, h₂, -⟩ := h
      have hnibbles : codeNibbles mem q = 3 := by
        rw [codeNibbles, if_neg (by omega), if_neg (by omega), if_pos (by omega)]
      rw [if_pos hthree]
      refine ⟨hnibbles, ?_, ?_⟩
      · rw [codeAt, hnibbles]
        show ((0 * 16 + nibbleAt mem q) * 16 + nibbleAt mem q.next) * 16 +
          nibbleAt mem q.next.next = _
        omega
      · rw [isRun, decide_eq_true_eq]
        omega
    · next hthree =>
      rw [if_neg hthree]
      split at h
      · next htwo =>
        obtain ⟨h₀, h₁, -⟩ := h
        have hnibbles : codeNibbles mem q = 2 := by
          rw [codeNibbles, if_neg (by omega), if_pos (by omega)]
        rw [if_pos htwo]
        refine ⟨hnibbles, ?_, ?_⟩
        · rw [codeAt, hnibbles]
          show (0 * 16 + nibbleAt mem q) * 16 + nibbleAt mem q.next = _
          omega
        · rw [isRun, decide_eq_true_eq]
          omega
      · next htwo =>
        obtain ⟨h₀, -⟩ := h
        have hnibbles : codeNibbles mem q = 1 := by
          rw [codeNibbles, if_pos (by omega)]
        rw [if_neg htwo]
        refine ⟨hnibbles, ?_, ?_⟩
        · rw [codeAt, hnibbles]
          show 0 * 16 + nibbleAt mem q = _
          omega
        · rw [isRun, decide_eq_true_eq]
          omega

/-! ## Lines -/

theorem color_mod (s : State) (p : VobSubParser) (code : Nat) :
    s.color p code = s.color p (code % 4) := by
  rw [State.color, State.color, Nat.mod_mod]

theorem color_run (s : State) (p : VobSubParser) (length : Nat) (colorid : Fin 4) :
    s.color p (4 * length + colorid) = s.color p colorid := by
  rw [color_mod, Nat.mul_add_mod, ← color_mod]

theorem draw_eq (p : VobSubParser) (code : Nat) {x : Int} {count : Nat} (hread : s.rect.Read)
    (hleft : s.rect.left ≤ x) (hright : x + count ≤ s.rect.right)
    (hy : s.rect.top ≤ s.y ∧ s.y < s.rect.bottom) :
    s.draw p code x count = paint (s.pixelAt x) (List.replicate count (s.color p code)) := by
  have hplace : s.pixelAt x = _ := pixelAt_eq hread ⟨hy.1, hy.2.le⟩
    ⟨hleft, by have := hread.right; omega⟩
  have hrow : (s.rect.right - s.rect.left) * (s.y - s.rect.top) + (s.rect.right - s.rect.left) ≤
      s.pixelCount := by
    rw [pixelCount_eq hread]
    calc (s.rect.right - s.rect.left) * (s.y - s.rect.top) + (s.rect.right - s.rect.left)
        = (s.rect.right - s.rect.left) * (s.y - s.rect.top + 1) := by ring
      _ ≤ (s.rect.right - s.rect.left) * (s.rect.bottom - s.rect.top) :=
        Int.mul_le_mul_of_nonneg_left (by omega) (by omega)
  have hall : ∀ pixel ∈ (List.range count).map fun n : Nat => s.pixelAt x + n,
      decide (pixel < s.pixelCount) = true := by
    intro pixel hpixel
    obtain ⟨n, hn, rfl⟩ := List.mem_map.mp hpixel
    rw [List.mem_range] at hn
    rw [decide_eq_true_eq, hplace]
    omega
  rw [State.draw, Int.toNat_natCast]
  rw [List.takeWhile_eq_self_iff.mpr hall, List.map_map, paint_replicate]
  rfl

theorem fieldEnd_setPos (k : Packet) (s : State) (q : Pos) (x : Int) :
    State.fieldEnd k { s.setPos q with x := x } = s.fieldEnd k := by
  unfold State.fieldEnd State.setPos
  cases s.nPlane with
  | true => rfl
  | false => rfl

/-- A line does not depend on where in it the one in front ended. -/
theorem endLine_setPos (s : State) (q q' : Pos) (x : Int) :
    State.endLine { s.setPos q with x := x } q' = s.endLine q' := by
  unfold State.endLine State.setPos
  cases s.nPlane with
  | true => rfl
  | false => rfl

theorem color_setPos (s : State) (p : VobSubParser) (q : Pos) (x : Int) (code : Nat) :
    State.color { s.setPos q with x := x } p code = s.color p code := by
  unfold State.setPos
  cases s.nPlane with
  | true => rfl
  | false => rfl

theorem pixelAt_setPos (s : State) (q : Pos) (x x' : Int) :
    State.pixelAt { s.setPos q with x := x } x' = s.pixelAt x' := by
  unfold State.setPos
  cases s.nPlane with
  | true => rfl
  | false => rfl

theorem picture_setPos (s : State) (q : Pos) (x : Int) :
    State.picture { s.setPos q with x := x } = s.picture := by
  unfold State.setPos
  cases s.nPlane with
  | true => rfl
  | false => rfl

/-- In front of codes that draw something a code is not the last one. -/
theorem Draws.nibblesBeforeLast_cons {codes : List Code} {pixels : List (Fin 4)}
    (h : Draws codes pixels) (c : Code) :
    nibblesBeforeLast (c :: codes) = c.nibbles.length + nibblesBeforeLast codes := by
  cases h <;> rfl

theorem Draws.length_pos {codes : List Code} {pixels : List (Fin 4)} (h : Draws codes pixels) :
    0 < pixels.length := by
  cases h with
  | last length colorid pos lt => simpa using pos
  | endOfLine colorid rest pos => simpa using pos
  | run length colorid pos lt h => simp [pos]

/-- A line of which some nibbles are left, up to a byte of its field. -/
structure LineLeft (mem : Nat → UInt8) (s : State) (nibbles : List Nat) (stop : Nat) : Prop where
  phase : s.phase = .pixels
  reads : Reads mem s.pos nibbles
  ends : s.pos.nibble + nibbles.length = 2 * stop ∨ s.pos.nibble + nibbles.length + 1 = 2 * stop
  lt : stop < 65536
  rect : s.rect.Read
  left : s.rect.left ≤ s.x
  row : s.rect.top ≤ s.y ∧ s.y < s.rect.bottom

def AfterLine (k : Packet) (p : VobSubParser) (mem : Nat → UInt8) (s : State)
    (r : List (Int × Nat) × Result) : Prop :=
  if s.rect.bottom ≤ s.y then r = ([], s.picture) else Decodes k p mem s r

section LineLeft

variable {c : Code} {nibbles : List Nat} {stop : Nat} {r : List (Int × Nat) × Result}

theorem LineLeft.nibble_behind (h : LineLeft mem s (c.nibbles ++ nibbles) stop) :
    (s.pos.behind mem).nibble = s.pos.nibble + c.nibbles.length := by
  have hread := c.read ((reads_append _ _ _).mp h.reads).1
  have hstop := h.ends
  have hlt := h.lt
  rw [List.length_append] at hstop
  rw [Pos.behind, hread.1, nibble_iterate (by omega)]

/-- **The turn of a code** that the field is not at its end in front of. -/
theorem LineLeft.step (h : LineLeft mem s nibbles stop) (p : VobSubParser)
    (hgoes : s.pos.off < s.fieldEnd k) : (step k p s).value mem =
      if s.Stays mem then
        (s.drawnRun p mem, .go { s.setPos (s.pos.behind mem) with x := s.xBehind mem })
      else (s.drawnRun p mem ++ s.drawnRest p mem,
        if s.rect.bottom ≤ (s.lineEnd mem).y then (s.lineEnd mem).picture
        else .go (s.lineEnd mem)) := by
  rw [Decode.step, h.phase]
  dsimp only
  rw [value_pixelStep, if_pos hgoes, value_drawCode]

theorem LineLeft.stops (h : LineLeft mem s nibbles stop) (p : VobSubParser)
    (hends : ¬s.pos.off < s.fieldEnd k) : Decodes k p mem s ([], s.picture) := by
  refine Decodes.done ?_
  rw [Decode.step, h.phase]
  dsimp only
  rw [value_pixelStep, if_neg hends, State.picture]

theorem LineLeft.aligned_behind (h : LineLeft mem s (c.nibbles ++ []) stop) :
    (s.pos.behind mem).aligned = ⟨stop, true⟩ := by
  have hnibble := h.nibble_behind
  have hstop := h.ends
  have hlt := h.lt
  rw [List.append_nil] at hstop
  rw [← hnibble] at hstop
  generalize s.pos.behind mem = q at hstop ⊢
  obtain ⟨off, aligned⟩ := q
  cases aligned with
  | true =>
    change 2 * off + 0 = _ ∨ 2 * off + 0 + 1 = _ at hstop
    show (⟨off, true⟩ : Pos) = _
    rw [show off = stop by omega]
  | false =>
    change 2 * off + 1 = _ ∨ 2 * off + 1 + 1 = _ at hstop
    show (⟨(off + 1) % 65536, true⟩ : Pos) = _
    rw [show off + 1 = stop by omega, Nat.mod_eq_of_lt hlt]

theorem LineLeft.decodes_last (h : LineLeft mem s (c.nibbles ++ []) stop)
    (hgoes : s.pos.off < s.fieldEnd k) (hends : ¬s.Stays mem)
    (hafter : AfterLine k p mem (s.endLine ⟨stop, true⟩) r) :
    Decodes k p mem s ((s.drawnRun p mem ++ s.drawnRest p mem) ++ r.1, r.2) := by
  have hstep := h.step p hgoes
  have hrect : (s.endLine ⟨stop, true⟩).rect = s.rect := setPos_rect _ _
  rw [if_neg hends, State.lineEnd, h.aligned_behind] at hstep
  rw [AfterLine, hrect] at hafter
  split at hafter
  · next hbottom =>
    rw [if_pos hbottom] at hstep
    rw [hafter, List.append_nil]
    exact Decodes.done hstep
  · next hbottom =>
    rw [if_neg hbottom] at hstep
    exact hafter.go hstep

/-- A code in front of others leaves the rest of the line. -/
theorem LineLeft.behind (h : LineLeft mem s (c.nibbles ++ nibbles) stop) {x : Int}
    (hx : s.rect.left ≤ x) :
    LineLeft mem { s.setPos (s.pos.behind mem) with x := x } nibbles stop := by
  have hread := c.read ((reads_append _ _ _).mp h.reads).1
  have hbehind := h.nibble_behind
  have hstop := h.ends
  rw [List.length_append] at hstop
  refine ⟨?_, ?_, ?_, h.lt, ?_, ?_, ?_⟩
  · simpa using h.phase
  · rw [pos_setPos, Pos.behind, hread.1]
    exact ((reads_append _ _ _).mp h.reads).2
  · rw [pos_setPos, hbehind]
    omega
  · simpa using h.rect
  · simpa using hx
  · simpa using h.row

/-- **A run is drawn**, and the place behind it is that in the line. -/
theorem LineLeft.run {length : Nat} {colorid : Fin 4} {pos : 0 < length} {lt : length < 256}
    (h : LineLeft mem s ((Code.run length colorid pos lt).nibbles ++ nibbles) stop)
    (hright : s.x + length ≤ s.rect.right) (p : VobSubParser) :
    isRun mem s.pos = true ∧ s.xBehind mem = s.x + length ∧
      s.drawnRun p mem = paint (s.pixelAt s.x) (List.replicate length (s.color p colorid)) := by
  obtain ⟨-, hcode, hrun⟩ := Code.read _ ((reads_append _ _ _).mp h.reads).1
  have hcolorid := colorid.isLt
  rw [Code.value] at hcode hrun
  have hisRun : isRun mem s.pos = true := hrun.mpr (by omega)
  have hlength : codeAt mem s.pos / 4 = length := by omega
  have hleft := h.left
  have hread := h.rect
  have hleft' := hread.left
  have hright' := hread.right
  refine ⟨hisRun, ?_, ?_⟩
  · rw [State.xBehind, if_pos hisRun, hlength, toInt32_of_lt (by omega) (by omega)]
  · rw [State.drawnRun, if_pos hisRun, hlength, draw_eq p _ hread hleft hright h.row, hcode,
      color_run]

/-- **A line is drawn**, whatever comes behind it, if its last code is in front of the end of the
field. -/
theorem Draws.decodes {codes : List Code} {pixels : List (Fin 4)} (hdraws : Draws codes pixels) :
    ∀ {s : State}, LineLeft mem s (codes.flatMap Code.nibbles) stop →
      (s.pos.nibble + nibblesBeforeLast codes) / 2 < s.fieldEnd k →
      s.x + pixels.length = s.rect.right → AfterLine k p mem (s.endLine ⟨stop, true⟩) r →
        Decodes k p mem s
          (paint (s.pixelAt s.x) (pixels.map fun colorid : Fin 4 => s.color p colorid) ++ r.1,
            r.2) := by
  induction hdraws with
  | last length colorid pos lt =>
    intro s h hgoes hright hafter
    rw [List.flatMap_cons, List.flatMap_nil] at h
    rw [List.length_replicate] at hright
    rw [nibblesBeforeLast, Nat.add_zero, ← off_eq] at hgoes
    obtain ⟨hrun, hbehind, hdrawn⟩ := h.run hright.le p
    have hstays : ¬s.Stays mem := by
      rintro ⟨-, hx⟩
      omega
    have hrest : s.drawnRest p mem = [] := by
      rw [State.drawnRest, hbehind, hright, sub_self, State.draw]
      rfl
    have hdecodes := h.decodes_last hgoes hstays hafter
    rw [hdrawn, hrest, List.append_nil] at hdecodes
    rw [List.map_replicate]
    exact hdecodes
  | endOfLine colorid rest pos =>
    intro s h hgoes hright hafter
    rw [List.flatMap_cons, List.flatMap_nil] at h
    rw [List.length_replicate] at hright
    rw [nibblesBeforeLast, Nat.add_zero, ← off_eq] at hgoes
    obtain ⟨-, hcode, hrun⟩ := Code.read _ ((reads_append _ _ _).mp h.reads).1
    rw [Code.value] at hcode hrun
    have hisRun : ¬isRun mem s.pos = true := by
      have hcolorid := colorid.isLt
      rw [hrun]
      omega
    have hstays : ¬s.Stays mem := by
      rintro ⟨hrun', -⟩
      exact hisRun hrun'
    have hdecodes := h.decodes_last hgoes hstays hafter
    have hleft := h.left
    have hread := h.rect
    have hread' := hread.left
    have hright' := hread.right
    have hcount : toInt32 (s.rect.right - s.x) = (rest : Int) := by
      rw [toInt32_of_lt (by omega) (by omega)]
      omega
    rw [State.drawnRun, if_neg hisRun, List.nil_append, State.drawnRest, State.xBehind,
      if_neg hisRun, hcount, hcode, draw_eq p _ hread hleft hright.le h.row] at hdecodes
    rw [List.map_replicate]
    exact hdecodes
  | run length colorid pos lt hdraws ih =>
    rename_i codes pixels
    intro s h hgoes hright hafter
    rw [List.flatMap_cons] at h
    rw [List.length_append, List.length_replicate] at hright
    have hpixels : 0 < pixels.length := hdraws.length_pos
    push_cast at hright
    obtain ⟨hrun, hbehind, hdrawn⟩ := h.run (by omega) p
    have hstays : s.Stays mem := ⟨hrun, by omega⟩
    have hfirst : s.pos.off < s.fieldEnd k := by
      rw [off_eq]
      omega
    have hstep := h.step p hfirst
    rw [if_pos hstays, hdrawn] at hstep
    have hleft := h.left
    have hnext : LineLeft mem { s.setPos (s.pos.behind mem) with x := s.xBehind mem }
        (codes.flatMap Code.nibbles) stop := h.behind (by omega)
    have hdecodes := ih hnext (by
      rw [fieldEnd_setPos, pos_setPos, h.nibble_behind, Nat.add_assoc,
        ← hdraws.nibblesBeforeLast_cons]
      exact hgoes) (by
      show s.xBehind mem + _ = (s.setPos _).rect.right
      rw [setPos_rect]
      omega) (by rw [endLine_setPos]; exact hafter)
    have hgo := hdecodes.go hstep
    simp only [pixelAt_setPos, color_setPos] at hgo
    have hplace : s.pixelAt (s.xBehind mem) = s.pixelAt s.x + length := by
      have hright' := h.rect.right
      rw [pixelAt_eq h.rect ⟨h.row.1, h.row.2.le⟩ ⟨by omega, by omega⟩,
        pixelAt_eq h.rect ⟨h.row.1, h.row.2.le⟩ ⟨hleft, by omega⟩, hbehind]
      ring
    rw [List.map_append, List.map_replicate, paint_append, List.length_replicate, ← hplace,
      List.append_assoc]
    exact hgo

/-- **The picture ends in the line** if its last code is not. -/
theorem Draws.stops {codes : List Code} {pixels : List (Fin 4)} (hdraws : Draws codes pixels) :
    ∀ {s : State}, LineLeft mem s (codes.flatMap Code.nibbles) stop →
      ¬(s.pos.nibble + nibblesBeforeLast codes) / 2 < s.fieldEnd k →
      s.x + pixels.length = s.rect.right →
        ∃ writes, Decodes k p mem s (writes, s.picture) := by
  induction hdraws with
  | last length colorid pos lt =>
    intro s h hends _
    rw [nibblesBeforeLast, Nat.add_zero, ← off_eq] at hends
    exact ⟨[], h.stops p hends⟩
  | endOfLine colorid rest pos =>
    intro s h hends _
    rw [nibblesBeforeLast, Nat.add_zero, ← off_eq] at hends
    exact ⟨[], h.stops p hends⟩
  | run length colorid pos lt hdraws ih =>
    rename_i codes pixels
    intro s h hends hright
    by_cases hgoes : s.pos.off < s.fieldEnd k
    · rw [List.flatMap_cons] at h
      rw [List.length_append, List.length_replicate] at hright
      have hpixels : 0 < pixels.length := hdraws.length_pos
      push_cast at hright
      obtain ⟨hrun, hbehind, -⟩ := h.run (by omega) p
      have hstays : s.Stays mem := ⟨hrun, by omega⟩
      have hstep := h.step p hgoes
      rw [if_pos hstays] at hstep
      have hleft := h.left
      have hnext : LineLeft mem { s.setPos (s.pos.behind mem) with x := s.xBehind mem }
          (codes.flatMap Code.nibbles) stop := h.behind (by omega)
      obtain ⟨writes, hdecodes⟩ := ih hnext (by
        rw [fieldEnd_setPos, pos_setPos, h.nibble_behind, Nat.add_assoc,
          ← hdraws.nibblesBeforeLast_cons]
        exact hends) (by
        show s.xBehind mem + _ = (s.setPos _).rect.right
        rw [setPos_rect]
        omega)
      rw [picture_setPos] at hdecodes
      exact ⟨_, hdecodes.go hstep⟩
    · exact ⟨[], h.stops p hgoes⟩

end LineLeft

/-! ## Fields -/

theorem Line.nibbles_lt (l : Line) : ∀ n ∈ l.nibbles, n < 16 := by
  intro n hn
  obtain ⟨c, -, hc⟩ := List.mem_flatMap.mp hn
  exact c.nibbles_lt n hc

/-- The lines left in the first field and in the second one. -/
def State.fieldLines (s : State) (lines : List Line) : List Line × List Line :=
  if s.nPlane = true then (fields lines).swap else fields lines

/-- The beginning of a line, with the lines that are left. -/
structure Ready (mem : Nat → UInt8) (s : State) (lines : List Line) : Prop where
  phase : s.phase = .pixels
  aligned : s.fAligned = true
  rect : s.rect.Read
  x : s.x = s.rect.left
  top : s.rect.top ≤ s.y
  first : Stands mem s.nOffset0 ((s.fieldLines lines).1.flatMap Line.bytes)
  second : Stands mem s.nOffset1 ((s.fieldLines lines).2.flatMap Line.bytes)
  first_lt : s.nOffset0 + ((s.fieldLines lines).1.flatMap Line.bytes).length < 65536
  second_lt : s.nOffset1 + ((s.fieldLines lines).2.flatMap Line.bytes).length < 65536

/-- The codes that are left are reached. -/
def State.Reached (k : Packet) (s : State) (lines : List Line) : Prop :=
  Decode.Reached k.datasize s.nPlane s.nOffset0 s.nOffset1 lines

theorem reached_cons (k : Packet) (s : State) (l : Line) (lines : List Line) :
    s.Reached k (l :: lines) ↔ s.pos.off + nibblesBeforeLast l.codes / 2 < s.fieldEnd k ∧
      (s.endLine ⟨s.pos.off + l.bytes.length, true⟩).Reached k lines := by
  unfold State.Reached State.endLine State.setPos State.fieldEnd State.pos
  cases s.nPlane with
  | true => rfl
  | false => rfl

section Ready

variable {l : Line} {lines : List Line}

theorem Ready.current (h : Ready mem s (l :: lines)) :
    Stands mem s.pos.off l.bytes ∧ s.pos.off + l.bytes.length < 65536 := by
  obtain ⟨-, -, -, -, -, hfirst, hsecond, hfirst_lt, hsecond_lt⟩ := h
  rw [State.pos]
  unfold State.fieldLines at hfirst hsecond hfirst_lt hsecond_lt
  cases hplane : s.nPlane with
  | true =>
    rw [hplane, if_pos rfl, fields, Prod.swap_prod_mk] at hsecond hsecond_lt
    rw [List.flatMap_cons, stands_append] at hsecond
    rw [List.flatMap_cons, List.length_append] at hsecond_lt
    rw [if_pos rfl]
    exact ⟨hsecond.1, by dsimp only; omega⟩
  | false =>
    rw [hplane, if_neg Bool.false_ne_true, fields] at hfirst hfirst_lt
    rw [List.flatMap_cons, stands_append] at hfirst
    rw [List.flatMap_cons, List.length_append] at hfirst_lt
    rw [if_neg Bool.false_ne_true]
    exact ⟨hfirst.1, by dsimp only; omega⟩

theorem Ready.nibble_pos (h : Ready mem s lines) : s.pos.nibble = 2 * s.pos.off := by
  rw [Pos.nibble, State.pos, h.aligned]
  rfl

/-- **The line can be drawn.** -/
theorem Ready.lineLeft (h : Ready mem s (l :: lines)) (hbottom : s.y < s.rect.bottom) :
    LineLeft mem s l.nibbles (s.pos.off + l.bytes.length) := by
  obtain ⟨hstands, hlt⟩ := h.current
  have hlength : l.bytes.length = (l.nibbles.length + 1) / 2 := length_pack _ _
  have hpos : s.pos = ⟨s.pos.off, true⟩ := by
    rw [State.pos, h.aligned]
  have hnibble := h.nibble_pos
  refine ⟨h.phase, ?_, by omega, hlt, h.rect, h.x.ge, h.top, hbottom⟩
  rw [hpos]
  exact reads_pack hstands l.nibbles_lt hlt

/-- **Behind it the next one is ready**, in the other field. -/
theorem Ready.endLine (h : Ready mem s (l :: lines)) (hbottom : s.y < s.rect.bottom) :
    Ready mem (s.endLine ⟨s.pos.off + l.bytes.length, true⟩) lines := by
  obtain ⟨hphase, haligned, hrect, hx, htop, hfirst, hsecond, hfirst_lt, hsecond_lt⟩ := h
  have htop' := hrect.top
  have hbottom' := hrect.bottom
  have hy : toInt32 (s.y + 1) = s.y + 1 := toInt32_of_lt (by omega) (by omega)
  have hnext : s.rect.top ≤ toInt32 (s.y + 1) := by omega
  unfold State.fieldLines at hfirst hsecond hfirst_lt hsecond_lt
  unfold State.endLine State.setPos State.pos
  cases hplane : s.nPlane with
  | true =>
    rw [hplane, if_pos rfl, fields, Prod.swap_prod_mk] at hfirst hsecond hfirst_lt hsecond_lt
    dsimp only at hfirst hsecond hfirst_lt hsecond_lt
    rw [List.flatMap_cons, stands_append] at hsecond
    rw [List.flatMap_cons, List.length_append] at hsecond_lt
    refine ⟨hphase, rfl, hrect, rfl, hnext, hfirst, hsecond.2, hfirst_lt, ?_⟩
    show s.nOffset1 + l.bytes.length + _ < 65536
    rw [Nat.add_assoc]
    exact hsecond_lt
  | false =>
    rw [hplane, if_neg Bool.false_ne_true, fields] at hfirst hsecond hfirst_lt hsecond_lt
    dsimp only at hfirst hsecond hfirst_lt hsecond_lt
    rw [List.flatMap_cons, stands_append] at hfirst
    rw [List.flatMap_cons, List.length_append] at hfirst_lt
    refine ⟨hphase, rfl, hrect, rfl, hnext, hfirst.2, hsecond, ?_, hsecond_lt⟩
    show s.nOffset0 + l.bytes.length + _ < 65536
    rw [Nat.add_assoc]
    exact hfirst_lt

theorem endLine_color (s : State) (p : VobSubParser) (q : Pos) (code : Nat) :
    (s.endLine q).color p code = s.color p code := by
  unfold State.endLine State.setPos
  cases s.nPlane with
  | true => rfl
  | false => rfl

theorem picture_eq (h : s.rect.Read) (htop : s.rect.top ≤ s.y) : s.picture =
    .ok s.rect.left s.rect.top (s.rect.right - s.rect.left)
      (min s.y s.rect.bottom - s.rect.top) := by
  obtain ⟨hleft, htop', hright, hbottom⟩ := h
  rw [State.picture, toInt32_of_lt (by omega) (by omega), toInt32_of_lt (by omega) (by omega)]

/-- **All lines are drawn**, one after the other, if all codes are reached. -/
theorem Ready.decodes {rows : List (List (Fin 4))}
    (hrows : List.Forall₂ (fun (l : Line) row => Draws l.codes row) lines rows) :
    ∀ {s : State}, Ready mem s lines → s.Reached k lines → lines ≠ [] →
      s.y + lines.length = s.rect.bottom →
      (∀ row ∈ rows, s.rect.left + row.length = s.rect.right) →
        Decodes k p mem s
          (paint (s.pixelAt s.rect.left)
              (rows.flatten.map fun colorid : Fin 4 => s.color p colorid),
            .ok s.rect.left s.rect.top (s.rect.right - s.rect.left)
              (s.rect.bottom - s.rect.top)) := by
  induction hrows with
  | nil =>
    intro _ _ _ hne
    exact absurd rfl hne
  | cons hdraws hrows ih =>
    rename_i l row lines rows
    intro s h hreached _ hbottom hwidth
    rw [List.forall_mem_cons] at hwidth
    rw [List.length_cons] at hbottom
    push_cast at hbottom
    obtain ⟨hgoes, hreached'⟩ := (reached_cons k s l lines).mp hreached
    have hread := h.rect
    have hleft' := hread.left
    have hright' := hread.right
    have hbottom' := hread.bottom
    have htop' := hread.top
    have htop := h.top
    have hleft := h.lineLeft (by omega)
    have hy : toInt32 (s.y + 1) = s.y + 1 := toInt32_of_lt (by omega) (by omega)
    have hready := h.endLine (by omega)
    let s' := s.endLine ⟨s.pos.off + l.bytes.length, true⟩
    have hrect' : s'.rect = s.rect := setPos_rect _ _
    have hy' : s'.y = s.y + 1 := hy
    have hplace : s.pixelAt s.x + row.length = s'.pixelAt s'.rect.left := by
      have hwidth' := hwidth.1
      rw [pixelAt_eq hread (by omega) (by rw [h.x]; omega),
        pixelAt_eq (by rw [hrect']; exact hread) (by rw [hrect', hy']; omega)
          (by rw [hrect']; omega), hrect', hy', h.x,
        show (row.length : Int) = s.rect.right - s.rect.left by omega]
      ring
    have hafter : AfterLine k p mem s' (paint (s'.pixelAt s'.rect.left)
        (rows.flatten.map fun colorid : Fin 4 => s'.color p colorid),
          .ok s.rect.left s.rect.top (s.rect.right - s.rect.left)
            (s.rect.bottom - s.rect.top)) := by
      rw [AfterLine]
      split
      · next hlast =>
        have hpicture := picture_eq hready.rect hready.top
        rw [hrect', hy'] at hlast
        obtain rfl : lines = [] := List.length_eq_zero_iff.mp (by omega)
        cases hrows
        rw [hpicture, hrect', hy', min_eq_right hlast]
        rfl
      · next hlast =>
        rw [hrect', hy'] at hlast
        have hnext := ih hready hreached' (by
          rintro rfl
          simp at hbottom
          omega) (by rw [hrect', hy']; omega) (by rw [hrect']; exact hwidth.2)
        rw [hrect'] at hnext
        rw [hrect']
        exact hnext
    have hdecodes := hdraws.decodes (p := p) hleft
      (by rw [h.nibble_pos, Nat.mul_add_div Nat.two_pos]; exact hgoes)
      (by rw [h.x]; exact hwidth.1) hafter
    have hx : s.pixelAt s.rect.left = s.pixelAt s.x := by rw [h.x]
    rw [List.flatten_cons, List.map_append, paint_append, List.length_map, hx, hplace]
    simpa only [s', endLine_color] using hdecodes

/-- **A picture of too few lines** comes of a code that is not reached. -/
theorem Ready.stops {rows : List (List (Fin 4))}
    (hrows : List.Forall₂ (fun (l : Line) row => Draws l.codes row) lines rows) :
    ∀ {s : State}, Ready mem s lines → ¬s.Reached k lines →
      s.y + lines.length = s.rect.bottom →
      (∀ row ∈ rows, s.rect.left + row.length = s.rect.right) →
        ∃ writes height, height < s.rect.bottom - s.rect.top ∧ Decodes k p mem s
          (writes, .ok s.rect.left s.rect.top (s.rect.right - s.rect.left) height) := by
  induction hrows with
  | nil =>
    intro s _ hreached
    exact absurd trivial hreached
  | cons hdraws hrows ih =>
    rename_i l row lines rows
    intro s h hreached hbottom hwidth
    rw [List.forall_mem_cons] at hwidth
    rw [List.length_cons] at hbottom
    push_cast at hbottom
    rw [reached_cons] at hreached
    have hread := h.rect
    have hbottom' := hread.bottom
    have htop' := hread.top
    have htop := h.top
    have hleft := h.lineLeft (by omega)
    have hplace : (s.pos.nibble + nibblesBeforeLast l.codes) / 2 =
        s.pos.off + nibblesBeforeLast l.codes / 2 := by
      rw [h.nibble_pos, Nat.mul_add_div Nat.two_pos]
    by_cases hgoes : s.pos.off + nibblesBeforeLast l.codes / 2 < s.fieldEnd k
    · -- the line is drawn, and the code is behind it
      have hy : toInt32 (s.y + 1) = s.y + 1 := toInt32_of_lt (by omega) (by omega)
      let s' := s.endLine ⟨s.pos.off + l.bytes.length, true⟩
      have hrect' : s'.rect = s.rect := setPos_rect _ _
      have hy' : s'.y = s.y + 1 := hy
      have hnot : ¬s'.Reached k lines := fun hnext => hreached ⟨hgoes, hnext⟩
      obtain ⟨writes, height, hheight, hdecodes⟩ := ih (h.endLine (by omega)) hnot
        (by rw [hrect', hy']; omega) (by rw [hrect']; exact hwidth.2)
      rw [hrect'] at hheight hdecodes
      have hmore : lines ≠ [] := by
        rintro rfl
        exact hnot trivial
      have hpos := List.length_pos_iff.mpr hmore
      have hafter : AfterLine k p mem s'
          (writes, .ok s.rect.left s.rect.top (s.rect.right - s.rect.left) height) := by
        rw [AfterLine, if_neg (by rw [hrect', hy']; omega)]
        exact hdecodes
      exact ⟨_, height, hheight, hdraws.decodes hleft (by rw [hplace]; exact hgoes)
        (by rw [h.x]; exact hwidth.1) hafter⟩
    · obtain ⟨writes, hdecodes⟩ := hdraws.stops (p := p) hleft (by rw [hplace]; exact hgoes)
        (by rw [h.x]; exact hwidth.1)
      rw [picture_eq hread htop] at hdecodes
      exact ⟨writes, _, by omega, hdecodes⟩

end Ready

end DWindow.VobSub.Decode
