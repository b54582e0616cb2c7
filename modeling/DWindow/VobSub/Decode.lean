import DWindow.Lib.CInt
import DWindow.Lib.Looking
import DWindow.Lib.Orbit
import DWindow.VobSub.Parser
import Mathlib.Algebra.Order.Ring.Abs

/-!
# Decoding a picture

`decode` goes through the control blocks of a packet, and then reads run-length codes of one to
four nibbles, a line from the one field and a line from the other.  `step` is one turn of either
loop, the part of a block in front of its commands being a turn of its own; it says where it
looks, and gives the pixels that it writes.  The locals `fForced`, `delay` and `t` are set and
never read and are left out, but not the places that `t` is read from.

Nothing initializes `rect` and `nOffset`: they begin with what the stack holds.
-/

namespace DWindow.VobSub.Decode

open CInt Looking

/-! ## States -/

/-- A packet with the fields of its `vobsub_subtitle` that `decode` reads: both are taken from
two bytes. -/
structure Packet where
  bytes : List UInt8
  datasize : Nat
  size_lt : bytes.length < 65536
  datasize_lt : datasize < 65536

def Packet.packetsize (k : Packet) : Nat := k.bytes.length

def Packet.memory (k : Packet) (behind : List UInt8) (p : Nat) : UInt8 :=
  (k.bytes ++ behind).getD p 0

structure Rect where
  left : Int
  top : Int
  right : Int
  bottom : Int
deriving DecidableEq, Repr

/-- What the stack holds for `rect` and `nOffset`. -/
structure Stack where
  left : Int32
  top : Int32
  right : Int32
  bottom : Int32
  nOffset0 : UInt16
  nOffset1 : UInt16

/-- Where `decode` is: at a control block, at a command of it, or at a code. -/
inductive Phase
  | block
  | command
  | pixels
deriving DecidableEq, Repr

/-- The locals of `decode`, with whether `rect` and `nOffset` have been set. -/
structure State where
  phase : Phase
  i : Nat
  nextctrlblk : Nat
  pal : Nat
  tr : Nat
  rect : Rect
  nOffset0 : Nat
  nOffset1 : Nat
  rectSet : Bool
  offsetsSet : Bool
  nPlane : Bool
  fAligned : Bool
  x : Int
  y : Int
deriving DecidableEq, Repr

/-- What a turn leads to: another one, or the end with an error or with a picture. -/
inductive Result
  | go (s : State)
  | fail
  | ok (left top width height : Int)
deriving DecidableEq, Repr

def start (k : Packet) (stack : Stack) : State where
  phase := .block
  i := 0
  nextctrlblk := k.datasize
  pal := 0
  tr := 0
  rect := ⟨stack.left.toInt, stack.top.toInt, stack.right.toInt, stack.bottom.toInt⟩
  nOffset0 := stack.nOffset0.toNat
  nOffset1 := stack.nOffset1.toNat
  rectSet := false
  offsetsSet := false
  nPlane := false
  fAligned := true
  x := 0
  y := 0

/-! ## Control blocks -/

def word (p : Nat) : Looking UInt8 Nat := do
  let high ← peek p
  let low ← peek (p + 1)
  pure (high.toNat * 256 + low.toNat)

/-- The beginning of a block. -/
def blockStep (k : Packet) (s : State) : Looking UInt8 Result := do
  let _t ← word s.nextctrlblk
  let next ← word (s.nextctrlblk + 2)
  if k.packetsize < next ∨ next < k.datasize then pure .fail
  else pure (.go { s with phase := .command, i := s.nextctrlblk + 4, nextctrlblk := next })

/-- `len`. -/
def commandLength (b : UInt8) : Nat :=
  if b = 0x03 ∨ b = 0x04 then 2 else if b = 0x05 then 6 else if b = 0x06 then 4 else 0

/-- The end of a block: the next one, or the codes. -/
def endBlock (k : Packet) (s : State) : Result :=
  if s.i ≤ s.nextctrlblk ∧ s.i < k.packetsize then .go { s with phase := .block }
  else .go { s with
    phase := .pixels
    fAligned := true
    x := s.rect.left
    y := s.rect.top }

def readRect (p : Nat) : Looking UInt8 Rect := do
  let b₀ ← peek p
  let b₁ ← peek (p + 1)
  let b₂ ← peek (p + 2)
  let b₃ ← peek (p + 3)
  let b₄ ← peek (p + 4)
  let b₅ ← peek (p + 5)
  pure {
    left := b₀.toNat * 16 + b₁.toNat / 16
    top := b₃.toNat * 16 + b₄.toNat / 16
    right := b₁.toNat % 16 * 256 + b₂.toNat + 1
    bottom := b₄.toNat % 16 * 256 + b₅.toNat + 1 }

/-- A command that begins with `b`. -/
def command (k : Packet) (s : State) (b : UInt8) : Looking UInt8 Result :=
  if k.packetsize ≤ s.i + commandLength b then pure (endBlock k s)
  else if b = 0x00 ∨ b = 0x01 ∨ b = 0x02 then pure (.go { s with i := s.i + 1 })
  else if b = 0x03 then do
    let pal ← word (s.i + 1)
    pure (.go { s with i := s.i + 3, pal := pal })
  else if b = 0x04 then do
    let tr ← word (s.i + 1)
    pure (.go { s with i := s.i + 3, tr := tr })
  else if b = 0x05 then do
    let rect ← readRect (s.i + 1)
    pure (.go { s with i := s.i + 7, rect := rect, rectSet := true })
  else if b = 0x06 then do
    let nOffset0 ← word (s.i + 1)
    let nOffset1 ← word (s.i + 3)
    pure (.go { s with
      i := s.i + 5
      nOffset0 := nOffset0
      nOffset1 := nOffset1
      offsetsSet := true })
  else pure (endBlock k { s with i := s.i + 1 })

def commandStep (k : Packet) (s : State) : Looking UInt8 Result := do
  let b ← peek s.i
  command k s b

/-! ## Codes -/

/-- The place of a nibble: `nOffset[nPlane]` and `fAligned`. -/
structure Pos where
  off : Nat
  fAligned : Bool
deriving DecidableEq, Repr

def getNibble (q : Pos) : Looking UInt8 (Nat × Pos) := do
  let b ← peek q.off
  pure (if q.fAligned = true then (b.toNat / 16, ⟨q.off, false⟩)
    else (b.toNat % 16, ⟨(q.off + 1) % 65536, true⟩))

/-- A code, with whether it is a run: a nibble more for every limit that it is below. -/
def readCode : List Nat → Nat → Pos → Looking UInt8 (Nat × Bool × Pos)
  | [], code, q => pure (code, false, q)
  | limit :: limits, code, q => do
    let (nibble, q) ← getNibble q
    let code := code * 16 + nibble
    if limit ≤ code then pure (code, true, q) else readCode limits code q

/-- The limits of codes with one to four nibbles. -/
def limits : List Nat := [0x4, 0x10, 0x40, 0x100]

namespace State

def pos (s : State) : Pos := ⟨if s.nPlane = true then s.nOffset1 else s.nOffset0, s.fAligned⟩

def setPos (s : State) (q : Pos) : State :=
  if s.nPlane = true then { s with nOffset1 := q.off, fAligned := q.fAligned }
  else { s with nOffset0 := q.off, fAligned := q.fAligned }

/-- Where the field ends. -/
def fieldEnd (k : Packet) (s : State) : Nat := if s.nPlane = true then k.datasize else s.nOffset1

def picture (s : State) : Result :=
  .ok s.rect.left s.rect.top (toInt32 (s.rect.right - s.rect.left))
    (toInt32 (min s.y s.rect.bottom - s.rect.top))

def pixelCount (s : State) : Int :=
  toInt32 ((s.rect.right - s.rect.left) * (s.rect.bottom - s.rect.top))

/-- The place of a pixel of the line in `lpPixels`. -/
def pixelAt (s : State) (x : Int) : Int :=
  toInt32 ((s.rect.right - s.rect.left) * (s.y - s.rect.top) + (x - s.rect.left))

/-- The color of a code. -/
def color (s : State) (p : VobSubParser) (code : Nat) : Nat :=
  let colorid := code % 4
  if p.mUseCustomColor = true then p.mCuspal.getD colorid 0
  else p.mOrgpal.getD (s.pal / 16 ^ colorid % 16) 0 % 2 ^ 24 +
    s.tr / 16 ^ colorid % 16 * 17 * 2 ^ 24

/-- The loop that draws `count` pixels from `x` on, as long as they are in front of the end. -/
def draw (s : State) (p : VobSubParser) (code : Nat) (x count : Int) : List (Int × Nat) :=
  let ptr := (List.range count.toNat).map fun n : Nat => s.pixelAt x + n
  (ptr.takeWhile (· < s.pixelCount)).map fun pixel => (pixel, s.color p code)

/-- The line in front of the next one. -/
def endLine (s : State) (q : Pos) : State :=
  { s.setPos q with x := s.rect.left, y := toInt32 (s.y + 1), nPlane := !s.nPlane }

end State

/-- A nibble is read if it is the second one of its byte. -/
def align (q : Pos) : Looking UInt8 Pos := do
  if q.fAligned = true then pure q
  else
    let (_, q) ← getNibble q
    pure q

/-- A code is drawn, and the rest of the line behind a code that ends it. -/
def drawCode (p : VobSubParser) (s : State) (code : Nat) (run : Bool) (q : Pos) :
    Looking UInt8 (List (Int × Nat) × Result) :=
  let x := if run = true then toInt32 (s.x + (code / 4 : Nat)) else s.x
  let drawn := if run = true then s.draw p code s.x (code / 4 : Nat) else []
  if run = true ∧ x < s.rect.right then pure (drawn, .go { s.setPos q with x := x })
  else do
    let q ← align q
    let s' := s.endLine q
    pure (drawn ++ s.draw p code x (toInt32 (s.rect.right - x)),
      if s.rect.bottom ≤ s'.y then s'.picture else .go s')

/-- The loop over the codes. -/
def pixelStep (k : Packet) (p : VobSubParser) (s : State) :
    Looking UInt8 (List (Int × Nat) × Result) :=
  if s.pos.off < s.fieldEnd k then do
    let (code, run, q) ← readCode limits 0 s.pos
    drawCode p s code run q
  else pure ([], s.picture)

/-! ## Both loops -/

/-- A turn, with the pixels that it writes. -/
def step (k : Packet) (p : VobSubParser) (s : State) :
    Looking UInt8 (List (Int × Nat) × Result) :=
  match s.phase with
  | .block => do
    let r ← blockStep k s
    pure ([], r)
  | .command => do
    let r ← commandStep k s
    pure ([], r)
  | .pixels => pixelStep k p s

def Result.state : Result → Option State
  | go s => some s
  | fail => none
  | ok _ _ _ _ => none

def next (k : Packet) (p : VobSubParser) (mem : Nat → UInt8) (s : State) : Option State :=
  ((step k p s).value mem).2.state

/-! ## What a turn does -/

variable {k : Packet} {p : VobSubParser} {mem : Nat → UInt8} {s t : State}

@[simp] theorem value_word (mem : Nat → UInt8) (n : Nat) :
    (word n).value mem = (mem n).toNat * 256 + (mem (n + 1)).toNat := rfl

theorem word_lt (mem : Nat → UInt8) (n : Nat) : (word n).value mem < 65536 := by
  have hhigh := (mem n).toNat_lt
  have hlow := (mem (n + 1)).toNat_lt
  rw [value_word]
  omega

theorem next_block (hphase : s.phase = .block) (h : next k p mem s = some t) :
    k.datasize ≤ t.nextctrlblk ∧ t.nextctrlblk ≤ k.packetsize ∧
      t.nextctrlblk = (word (s.nextctrlblk + 2)).value mem ∧
      t = { s with
        phase := .command
        i := s.nextctrlblk + 4
        nextctrlblk := t.nextctrlblk } := by
  simp only [next, step, hphase, blockStep, value_bind, value_ite, value_pure] at h
  split at h
  · cases h
  · next hfits =>
    rw [not_or, Nat.not_lt, Nat.not_lt] at hfits
    cases h
    exact ⟨hfits.2, hfits.1, rfl, rfl⟩

structure Rect.Read (r : Rect) : Prop where
  left : 0 ≤ r.left ∧ r.left < 4096
  top : 0 ≤ r.top ∧ r.top < 4096
  right : 0 < r.right ∧ r.right ≤ 4096
  bottom : 0 < r.bottom ∧ r.bottom ≤ 4096

theorem read_readRect (mem : Nat → UInt8) (n : Nat) : ((readRect n).value mem).Read := by
  have h₀ := (mem n).toNat_lt
  have h₁ := (mem (n + 1)).toNat_lt
  have h₂ := (mem (n + 2)).toNat_lt
  have h₃ := (mem (n + 3)).toNat_lt
  have h₄ := (mem (n + 4)).toNat_lt
  have h₅ := (mem (n + 5)).toNat_lt
  simp only [readRect, value_bind, value_peek, value_pure]
  constructor
  · dsimp only
    omega
  · dsimp only
    omega
  · dsimp only
    omega
  · dsimp only
    omega

theorem mul_sides {a b : Int} (ha : -4096 ≤ a ∧ a ≤ 4096) (hb : -4096 ≤ b ∧ b ≤ 4096) :
    -2 ^ 24 ≤ a * b ∧ a * b ≤ 2 ^ 24 := by
  rw [← abs_le] at ha hb ⊢
  calc |a * b| = |a| * |b| := abs_mul a b
    _ ≤ 4096 * 4096 := mul_le_mul ha hb (abs_nonneg b) (by decide)

theorem pixelCount_eq (h : s.rect.Read) :
    s.pixelCount = (s.rect.right - s.rect.left) * (s.rect.bottom - s.rect.top) := by
  obtain ⟨hleft, htop, hright, hbottom⟩ := h
  have harea := mul_sides (a := s.rect.right - s.rect.left) (b := s.rect.bottom - s.rect.top)
    (by omega) (by omega)
  exact toInt32_of_lt (by omega) (by omega)

theorem pixelAt_eq (h : s.rect.Read) {x : Int} (hy : s.rect.top ≤ s.y ∧ s.y ≤ s.rect.bottom)
    (hx : s.rect.left ≤ x ∧ x < 65536) :
    s.pixelAt x = (s.rect.right - s.rect.left) * (s.y - s.rect.top) + (x - s.rect.left) := by
  obtain ⟨hleft, htop, hright, hbottom⟩ := h
  have hlines := mul_sides (a := s.rect.right - s.rect.left) (b := s.y - s.rect.top)
    (by omega) (by omega)
  exact toInt32_of_lt (by omega) (by omega)

/-- A command sets some of the locals and goes on behind itself. -/
structure Commands (k : Packet) (s t : State) : Prop where
  phase : t.phase = .command
  forward : s.i < t.i ∧ t.i ≤ k.packetsize
  nextctrlblk : t.nextctrlblk = s.nextctrlblk
  rect : (t.rect = s.rect ∧ t.rectSet = s.rectSet) ∨ (t.rect.Read ∧ t.rectSet = true)
  offsets : (t.nOffset0 = s.nOffset0 ∧ t.nOffset1 = s.nOffset1 ∧ t.offsetsSet = s.offsetsSet) ∨
    (t.nOffset0 < 65536 ∧ t.nOffset1 < 65536 ∧ t.offsetsSet = true)
  plane : t.nPlane = s.nPlane

/-- The end of a block goes back to a block or on to the codes. -/
structure Leaves (k : Packet) (s t : State) : Prop where
  phase : (t.phase = .block ∧ s.i ≤ t.nextctrlblk) ∨
    (t.phase = .pixels ∧ t.fAligned = true ∧ t.x = t.rect.left ∧ t.y = t.rect.top)
  nextctrlblk : t.nextctrlblk = s.nextctrlblk
  rect : t.rect = s.rect ∧ t.rectSet = s.rectSet
  offsets : t.nOffset0 = s.nOffset0 ∧ t.nOffset1 = s.nOffset1 ∧ t.offsetsSet = s.offsetsSet
  plane : t.nPlane = s.nPlane

theorem leaves_endBlock {s' : State} {i : Nat} (hi : s.i ≤ i)
    (h : endBlock k { s with i := i } = .go s') : Leaves k s s' := by
  unfold endBlock at h
  split at h
  · next hback =>
    cases h
    exact ⟨.inl ⟨rfl, hi.trans hback.1⟩, rfl, ⟨rfl, rfl⟩, ⟨rfl, rfl, rfl⟩, rfl⟩
  · cases h
    exact ⟨.inr ⟨rfl, rfl, rfl, rfl⟩, rfl, ⟨rfl, rfl⟩, ⟨rfl, rfl, rfl⟩, rfl⟩

theorem next_command (hphase : s.phase = .command) (h : next k p mem s = some t) :
    Commands k s t ∨ Leaves k s t := by
  have hgo : ((commandStep k s).value mem) = .go t := by
    simp only [next, step, hphase, value_bind, value_pure] at h
    cases hresult : (commandStep k s).value mem with
    | go s' =>
      rw [hresult] at h
      cases h
      rfl
    | fail =>
      rw [hresult] at h
      cases h
    | ok left top width height =>
      rw [hresult] at h
      cases h
  rw [commandStep, value_bind, value_peek, command] at hgo
  split at hgo
  · exact .inr (leaves_endBlock (Nat.le_refl _) hgo)
  · next hroom =>
    rw [Nat.not_le] at hroom
    have hset : ∀ {t' : State} {n : Nat}, s.i + n < k.packetsize → t'.i = s.i + n + 1 →
        t'.phase = s.phase → t'.nextctrlblk = s.nextctrlblk →
        ((t'.rect = s.rect ∧ t'.rectSet = s.rectSet) ∨ (t'.rect.Read ∧ t'.rectSet = true)) →
        ((t'.nOffset0 = s.nOffset0 ∧ t'.nOffset1 = s.nOffset1 ∧ t'.offsetsSet = s.offsetsSet) ∨
          (t'.nOffset0 < 65536 ∧ t'.nOffset1 < 65536 ∧ t'.offsetsSet = true)) →
        t'.nPlane = s.nPlane → Commands k s t' := by
      intro t' n hn hi hphase' hnext hrect hoffsets hplane
      exact ⟨hphase'.trans hphase, by omega, hnext, hrect, hoffsets, hplane⟩
    have hlength : ∀ {b : UInt8} {n : Nat}, mem s.i = b → commandLength b = n →
        s.i + n < k.packetsize := by
      rintro b n rfl rfl
      exact hroom
    split at hgo
    · cases hgo
      exact .inl (hset (n := 0) (by omega) rfl rfl rfl (.inl ⟨rfl, rfl⟩) (.inl ⟨rfl, rfl, rfl⟩) rfl)
    · split at hgo
      · next hb =>
        cases hgo
        exact .inl (hset (hlength hb rfl) rfl rfl rfl (.inl ⟨rfl, rfl⟩) (.inl ⟨rfl, rfl, rfl⟩) rfl)
      · split at hgo
        · next hb =>
          cases hgo
          exact .inl (hset (hlength hb rfl) rfl rfl rfl (.inl ⟨rfl, rfl⟩) (.inl ⟨rfl, rfl, rfl⟩)
            rfl)
        · split at hgo
          · next hb =>
            rw [value_bind, value_pure] at hgo
            cases hgo
            exact .inl (hset (hlength hb rfl) rfl rfl rfl (.inr ⟨read_readRect mem _, rfl⟩)
              (.inl ⟨rfl, rfl, rfl⟩) rfl)
          · split at hgo
            · next hb =>
              rw [value_bind, value_bind, value_pure] at hgo
              cases hgo
              exact .inl (hset (hlength hb rfl) rfl rfl rfl (.inl ⟨rfl, rfl⟩)
                (.inr ⟨word_lt mem _, word_lt mem _, rfl⟩) rfl)
            · exact .inr (leaves_endBlock (Nat.le_succ _) hgo)

/-! ## Fields -/

section SetPos

variable (s : State) (q : Pos)

@[simp] theorem setPos_phase : (s.setPos q).phase = s.phase := by
  unfold State.setPos
  split <;> rfl

@[simp] theorem setPos_rect : (s.setPos q).rect = s.rect := by
  unfold State.setPos
  split <;> rfl

@[simp] theorem setPos_rectSet : (s.setPos q).rectSet = s.rectSet := by
  unfold State.setPos
  split <;> rfl

@[simp] theorem setPos_offsetsSet : (s.setPos q).offsetsSet = s.offsetsSet := by
  unfold State.setPos
  split <;> rfl

@[simp] theorem setPos_nPlane : (s.setPos q).nPlane = s.nPlane := by
  unfold State.setPos
  split <;> rfl

@[simp] theorem setPos_y : (s.setPos q).y = s.y := by
  unfold State.setPos
  split <;> rfl

theorem setPos_nOffset0 :
    (s.setPos q).nOffset0 = if s.nPlane = true then s.nOffset0 else q.off := by
  unfold State.setPos
  split <;> rfl

theorem setPos_nOffset1 :
    (s.setPos q).nOffset1 = if s.nPlane = true then q.off else s.nOffset1 := by
  unfold State.setPos
  split <;> rfl

@[simp] theorem pos_setPos (x : Int) : State.pos { s.setPos q with x := x } = q := by
  unfold State.pos State.setPos
  cases hplane : s.nPlane with
  | true => rfl
  | false => rfl

end SetPos

/-! ## What a code is -/

def Pos.next (q : Pos) : Pos :=
  if q.fAligned = true then ⟨q.off, false⟩ else ⟨(q.off + 1) % 65536, true⟩

def Pos.nibble (q : Pos) : Nat := 2 * q.off + if q.fAligned = true then 0 else 1

def nibbleAt (mem : Nat → UInt8) (q : Pos) : Nat :=
  if q.fAligned = true then (mem q.off).toNat / 16 else (mem q.off).toNat % 16

theorem value_getNibble (mem : Nat → UInt8) (q : Pos) :
    (getNibble q).value mem = (nibbleAt mem q, q.next) := by
  rw [getNibble, value_bind, value_peek, value_pure, nibbleAt, Pos.next]
  split
  · rfl
  · rfl

theorem places_getNibble (mem : Nat → UInt8) (q : Pos) : (getNibble q).places mem = [q.off] := rfl

theorem nibbleAt_lt (mem : Nat → UInt8) (q : Pos) : nibbleAt mem q < 16 := by
  have hbyte := (mem q.off).toNat_lt
  unfold nibbleAt
  split
  · omega
  · omega

theorem nibble_next {q : Pos} (h : q.nibble + 1 < 131072) : q.next.nibble = q.nibble + 1 := by
  unfold Pos.nibble at h
  unfold Pos.next Pos.nibble
  split at h
  · next haligned => rw [if_pos haligned, if_pos haligned]; rfl
  · next haligned =>
    rw [if_neg haligned, if_neg haligned]
    dsimp only
    rw [if_pos rfl, Nat.mod_eq_of_lt (by omega)]
    omega

theorem nibble_iterate {q : Pos} : ∀ {n : Nat}, q.nibble + n < 131072 →
    (Pos.next^[n] q).nibble = q.nibble + n := by
  intro n
  induction n with
  | zero => intro _; rfl
  | succ n ih =>
    intro h
    have hn := ih (by omega)
    rw [Function.iterate_succ_apply', nibble_next (by omega), hn]
    omega

theorem off_eq (q : Pos) : q.off = q.nibble / 2 := by
  unfold Pos.nibble
  split
  · omega
  · omega

/-- The number of nibbles of the code at a place. -/
def codeNibbles (mem : Nat → UInt8) (q : Pos) : Nat :=
  if 4 ≤ nibbleAt mem q then 1
  else if 1 ≤ nibbleAt mem q then 2
  else if 4 ≤ nibbleAt mem q.next then 3
  else 4

def codeAt (mem : Nat → UInt8) (q : Pos) : Nat :=
  (List.range (codeNibbles mem q)).foldl (fun code n => code * 16 + nibbleAt mem (Pos.next^[n] q)) 0

/-- It is a run, and does not end its line. -/
def isRun (mem : Nat → UInt8) (q : Pos) : Bool :=
  decide (¬ (nibbleAt mem q = 0 ∧ nibbleAt mem q.next = 0))

theorem codeNibbles_pos (mem : Nat → UInt8) (q : Pos) :
    1 ≤ codeNibbles mem q ∧ codeNibbles mem q ≤ 4 := by
  unfold codeNibbles
  split
  · omega
  · split
    · omega
    · split
      · omega
      · omega

theorem value_readCode_cons (mem : Nat → UInt8) (limit : Nat) (limits : List Nat) (code : Nat)
    (q : Pos) : (readCode (limit :: limits) code q).value mem =
      if limit ≤ code * 16 + nibbleAt mem q then (code * 16 + nibbleAt mem q, true, q.next)
      else (readCode limits (code * 16 + nibbleAt mem q) q.next).value mem := by
  rw [readCode, value_bind, value_getNibble]
  exact value_ite mem _ _

theorem places_readCode_cons (mem : Nat → UInt8) (limit : Nat) (limits : List Nat) (code : Nat)
    (q : Pos) : (readCode (limit :: limits) code q).places mem =
      q.off :: if limit ≤ code * 16 + nibbleAt mem q then []
        else (readCode limits (code * 16 + nibbleAt mem q) q.next).places mem := by
  rw [readCode, places_bind, places_getNibble, value_getNibble, List.singleton_append]
  exact congrArg _ (places_ite mem _ _)

theorem readCode_spec (mem : Nat → UInt8) (q : Pos) :
    (readCode limits 0 q).value mem =
        (codeAt mem q, isRun mem q, Pos.next^[codeNibbles mem q] q) ∧
      (readCode limits 0 q).places mem =
        (List.range (codeNibbles mem q)).map fun n => (Pos.next^[n] q).off := by
  have h₁ := nibbleAt_lt mem q
  have h₂ := nibbleAt_lt mem q.next
  have h₃ := nibbleAt_lt mem q.next.next
  have h₄ := nibbleAt_lt mem q.next.next.next
  unfold limits codeAt isRun
  simp only [value_readCode_cons, places_readCode_cons]
  by_cases hone : 4 ≤ 0 * 16 + nibbleAt mem q
  · have hnibbles : codeNibbles mem q = 1 := if_pos (by omega)
    have hrun : ¬ (nibbleAt mem q = 0 ∧ nibbleAt mem q.next = 0) := by omega
    rw [if_pos hone, if_pos hone, hnibbles, decide_eq_true hrun]
    exact ⟨rfl, rfl⟩
  · rw [if_neg hone, if_neg hone]
    by_cases htwo : 16 ≤ (0 * 16 + nibbleAt mem q) * 16 + nibbleAt mem q.next
    · have hnibbles : codeNibbles mem q = 2 := by
        rw [codeNibbles, if_neg (by omega), if_pos (by omega)]
      have hrun : ¬ (nibbleAt mem q = 0 ∧ nibbleAt mem q.next = 0) := by omega
      rw [if_pos htwo, if_pos htwo, hnibbles, decide_eq_true hrun]
      exact ⟨rfl, rfl⟩
    · rw [if_neg htwo, if_neg htwo]
      by_cases hthree : 64 ≤ ((0 * 16 + nibbleAt mem q) * 16 + nibbleAt mem q.next) * 16 +
          nibbleAt mem q.next.next
      · have hnibbles : codeNibbles mem q = 3 := by
          rw [codeNibbles, if_neg (by omega), if_neg (by omega), if_pos (by omega)]
        have hrun : ¬ (nibbleAt mem q = 0 ∧ nibbleAt mem q.next = 0) := by omega
        rw [if_pos hthree, if_pos hthree, hnibbles, decide_eq_true hrun]
        exact ⟨rfl, rfl⟩
      · have hnibbles : codeNibbles mem q = 4 := by
          rw [codeNibbles, if_neg (by omega), if_neg (by omega), if_neg (by omega)]
        rw [if_neg hthree, if_neg hthree, hnibbles]
        by_cases hfour : 256 ≤ (((0 * 16 + nibbleAt mem q) * 16 + nibbleAt mem q.next) * 16 +
            nibbleAt mem q.next.next) * 16 + nibbleAt mem q.next.next.next
        · have hrun : ¬ (nibbleAt mem q = 0 ∧ nibbleAt mem q.next = 0) := by omega
          rw [if_pos hfour, if_pos hfour, decide_eq_true hrun]
          exact ⟨rfl, rfl⟩
        · have hrun : nibbleAt mem q = 0 ∧ nibbleAt mem q.next = 0 := by omega
          rw [if_neg hfour, if_neg hfour, decide_eq_false (not_not.mpr hrun)]
          exact ⟨rfl, rfl⟩

theorem run_bounds {q : Pos} (h : isRun mem q = true) :
    1 ≤ codeAt mem q / 4 ∧ codeAt mem q / 4 < 256 := by
  have hrun : ¬ (nibbleAt mem q = 0 ∧ nibbleAt mem q.next = 0) := of_decide_eq_true h
  have h₁ := nibbleAt_lt mem q
  have h₂ := nibbleAt_lt mem q.next
  have h₃ := nibbleAt_lt mem q.next.next
  have h₄ := nibbleAt_lt mem q.next.next.next
  unfold codeAt codeNibbles
  split
  · show 1 ≤ (0 * 16 + nibbleAt mem q) / 4 ∧ (0 * 16 + nibbleAt mem q) / 4 < 256
    omega
  · split
    · show 1 ≤ ((0 * 16 + nibbleAt mem q) * 16 + nibbleAt mem q.next) / 4 ∧
        ((0 * 16 + nibbleAt mem q) * 16 + nibbleAt mem q.next) / 4 < 256
      omega
    · split
      · show 1 ≤ (((0 * 16 + nibbleAt mem q) * 16 + nibbleAt mem q.next) * 16 +
            nibbleAt mem q.next.next) / 4 ∧ (((0 * 16 + nibbleAt mem q) * 16 +
            nibbleAt mem q.next) * 16 + nibbleAt mem q.next.next) / 4 < 256
        omega
      · show 1 ≤ ((((0 * 16 + nibbleAt mem q) * 16 + nibbleAt mem q.next) * 16 +
            nibbleAt mem q.next.next) * 16 + nibbleAt mem q.next.next.next) / 4 ∧
            ((((0 * 16 + nibbleAt mem q) * 16 + nibbleAt mem q.next) * 16 +
            nibbleAt mem q.next.next) * 16 + nibbleAt mem q.next.next.next) / 4 < 256
        omega

def Pos.behind (mem : Nat → UInt8) (q : Pos) : Pos := Pos.next^[codeNibbles mem q] q

/-- The first place of its byte, or of the one behind. -/
def Pos.aligned (q : Pos) : Pos := if q.fAligned = true then q else q.next

theorem value_align (mem : Nat → UInt8) (q : Pos) : (align q).value mem = q.aligned := by
  unfold align Pos.aligned
  rw [value_ite, value_pure, value_bind, value_getNibble]
  rfl

theorem places_align (mem : Nat → UInt8) (q : Pos) : (align q).places mem =
    if q.fAligned = true then [] else [q.off] := by
  unfold align
  rw [places_ite, places_pure, places_bind, places_getNibble]
  rfl

/-- Where a code leads to in its line. -/
def State.xBehind (s : State) (mem : Nat → UInt8) : Int :=
  if isRun mem s.pos = true then toInt32 (s.x + (codeAt mem s.pos / 4 : Nat)) else s.x

/-- A code that its line goes on behind. -/
def State.Stays (s : State) (mem : Nat → UInt8) : Prop :=
  isRun mem s.pos = true ∧ s.xBehind mem < s.rect.right

instance (s : State) (mem : Nat → UInt8) : Decidable (s.Stays mem) :=
  inferInstanceAs (Decidable (_ ∧ _))

/-- The state behind the line. -/
def State.lineEnd (s : State) (mem : Nat → UInt8) : State :=
  s.endLine (s.pos.behind mem).aligned

/-- The pixels of a run. -/
def State.drawnRun (s : State) (p : VobSubParser) (mem : Nat → UInt8) : List (Int × Nat) :=
  if isRun mem s.pos = true then
    s.draw p (codeAt mem s.pos) s.x (codeAt mem s.pos / 4 : Nat)
  else []

/-- The pixels behind the last code of a line. -/
def State.drawnRest (s : State) (p : VobSubParser) (mem : Nat → UInt8) : List (Int × Nat) :=
  s.draw p (codeAt mem s.pos) (s.xBehind mem) (toInt32 (s.rect.right - s.xBehind mem))

theorem value_drawCode (p : VobSubParser) (s : State) (mem : Nat → UInt8) :
    (drawCode p s (codeAt mem s.pos) (isRun mem s.pos) (s.pos.behind mem)).value mem =
      if s.Stays mem then
        (s.drawnRun p mem, .go { s.setPos (s.pos.behind mem) with x := s.xBehind mem })
      else (s.drawnRun p mem ++ s.drawnRest p mem,
        if s.rect.bottom ≤ (s.lineEnd mem).y then (s.lineEnd mem).picture
        else .go (s.lineEnd mem)) := by
  refine (value_ite mem _ _).trans (if_congr Iff.rfl rfl ?_)
  rw [value_bind, value_align]
  rfl

theorem value_pixelStep (k : Packet) (p : VobSubParser) (s : State) (mem : Nat → UInt8) :
    (pixelStep k p s).value mem = if s.pos.off < s.fieldEnd k then
        (drawCode p s (codeAt mem s.pos) (isRun mem s.pos) (s.pos.behind mem)).value mem
      else ([], s.picture) := by
  refine (value_ite mem _ _).trans (if_congr Iff.rfl ?_ rfl)
  rw [value_bind, (readCode_spec mem s.pos).1]
  rfl

/-- **The loop over the codes.** -/
theorem next_pixels (hphase : s.phase = .pixels) : next k p mem s =
    if s.pos.off < s.fieldEnd k then
      if s.Stays mem then some { s.setPos (s.pos.behind mem) with x := s.xBehind mem }
      else if s.rect.bottom ≤ (s.lineEnd mem).y then none else some (s.lineEnd mem)
    else none := by
  rw [next, step, hphase]
  dsimp only
  rw [value_pixelStep, value_drawCode]
  split
  · split
    · rfl
    · split
      · rfl
      · rfl
  · rfl

/-- There is no way back from the codes. -/
theorem phase_next (hphase : s.phase = .pixels) (h : next k p mem s = some t) :
    t.phase = .pixels := by
  rw [next_pixels hphase] at h
  split at h
  · split at h
    · cases h
      simpa using hphase
    · split at h
      · cases h
      · cases h
        show (s.setPos _).phase = _
        rw [setPos_phase, hphase]
  · cases h

end DWindow.VobSub.Decode
