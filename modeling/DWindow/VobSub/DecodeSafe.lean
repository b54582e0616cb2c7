import DWindow.VobSub.DecodeEnds
import DWindow.VobSub.Packets

/-!
# Decoding inside a packet

Every place that `decode` reads from comes out of the packet: where the blocks are, the length of
their commands, and where the fields begin and end.  None of them is compared with the size of
the packet, but for the last byte of a command.  `decodeSafe_iff_fits` says which packets are read
inside and drawn inside their rectangle, whatever the stack and the memory behind them hold.
-/

namespace DWindow.VobSub.Decode

open CInt Looking Orbit

variable {k : Packet} {p : VobSubParser} {mem : Nat → UInt8} {s t : State} {stack : Stack}

/-- A turn reads places of the packet and writes pixels of a bitmap that is not negative in
size. -/
structure StepSafe (k : Packet) (p : VobSubParser) (mem : Nat → UInt8) (s : State) : Prop where
  reads : Stays mem (· < k.packetsize) (step k p s)
  writes : ∀ pixel ∈ ((step k p s).value mem).1, 0 ≤ pixel.1 ∧ pixel.1 < s.pixelCount
  bitmap : s.phase = .pixels → s.rect.left ≤ s.rect.right ∧ s.rect.top ≤ s.rect.bottom

/-- **Decoding is safe**, whatever the stack and the memory behind the packet hold. -/
def DecodeSafe (k : Packet) (p : VobSubParser) : Prop :=
  ∀ stack behind s, Reaches (next k p (k.memory behind)) (start k stack) s →
    StepSafe k p (k.memory behind) s

/-- A block, a command or a code fits: the beginning of a block and the first byte of a command
are in the packet, a block has set the rectangle and it is not negative in size, and a code of
the first field ends in the packet. -/
def Fits (k : Packet) (s : State) : Prop :=
  match s.phase with
  | .block => s.nextctrlblk + 3 < k.packetsize
  | .command => s.i < k.packetsize
  | .pixels =>
    s.rectSet = true ∧ s.rect.left ≤ s.rect.right ∧ s.rect.top ≤ s.rect.bottom ∧
      (s.nPlane = false → s.nOffset0 < s.nOffset1 →
        s.pos.nibble + codeNibbles (k.memory []) s.pos ≤ 2 * k.packetsize)

/-! ## Reading -/

theorem stays_word (P : Nat → Prop) (n : Nat) : Stays mem P (word n) ↔ P n ∧ P (n + 1) := by
  rw [word, stays_bind, stays_bind, stays_peek, stays_peek]
  exact and_congr_right fun _ => and_iff_left stays_pure

theorem stays_blockStep : Stays mem (· < k.packetsize) (blockStep k s) ↔
    s.nextctrlblk + 3 < k.packetsize := by
  rw [blockStep, stays_bind, stays_bind, stays_word, stays_word]
  constructor
  · rintro ⟨-, h, -⟩
    exact h.2
  · intro h
    refine ⟨by omega, by omega, ?_⟩
    split
    · exact stays_pure
    · exact stays_pure

theorem stays_readRect {P : Nat → Prop} {n : Nat} (h : ∀ m < 6, P (n + m)) :
    Stays mem P (readRect n) := by
  have hbyte : ∀ m < 6, Stays mem P (peek (n + m)) := fun m hm => (stays_peek mem P _).mpr (h m hm)
  simp only [readRect, stays_bind]
  exact ⟨hbyte 0 (by decide), hbyte 1 (by decide), hbyte 2 (by decide), hbyte 3 (by decide),
    hbyte 4 (by decide), hbyte 5 (by decide), stays_pure⟩

theorem stays_command (b : UInt8) : Stays mem (· < k.packetsize) (command k s b) := by
  unfold command
  split
  · exact stays_pure
  · next hroom =>
    rw [not_le] at hroom
    have hlength : ∀ {c : UInt8} {n : Nat}, b = c → commandLength c = n →
        s.i + n < k.packetsize := by
      rintro c n rfl rfl
      exact hroom
    split
    · exact stays_pure
    · split
      · next hb =>
        have hin : s.i + 2 < k.packetsize := hlength hb rfl
        rw [stays_bind, stays_word]
        exact ⟨by omega, stays_pure⟩
      · split
        · next hb =>
          have hin : s.i + 2 < k.packetsize := hlength hb rfl
          rw [stays_bind, stays_word]
          exact ⟨by omega, stays_pure⟩
        · split
          · next hb =>
            have hin : s.i + 6 < k.packetsize := hlength hb rfl
            rw [stays_bind]
            exact ⟨stays_readRect fun m hm => by omega, stays_pure⟩
          · split
            · next hb =>
              have hin : s.i + 4 < k.packetsize := hlength hb rfl
              rw [stays_bind, stays_bind, stays_word, stays_word]
              exact ⟨by omega, by omega, stays_pure⟩
            · exact stays_pure

theorem stays_commandStep : Stays mem (· < k.packetsize) (commandStep k s) ↔
    s.i < k.packetsize := by
  rw [commandStep, stays_bind, stays_peek]
  exact and_iff_left (stays_command _)

theorem stays_readCode {q : Pos} (hsize : k.packetsize < 65536) :
    Stays mem (· < k.packetsize) (readCode limits 0 q) ↔
      q.nibble + codeNibbles mem q ≤ 2 * k.packetsize := by
  obtain ⟨hone, hfour⟩ := codeNibbles_pos mem q
  rw [Stays, (readCode_spec mem q).2, List.forall_mem_map]
  constructor
  · intro h
    by_contra hover
    have hfirst : q.off < k.packetsize := h 0 (List.mem_range.mpr hone)
    rw [off_lt_iff] at hfirst
    -- the first nibble behind the packet
    have hlast := h (2 * k.packetsize - q.nibble) (List.mem_range.mpr (by omega))
    rw [off_lt_iff, nibble_iterate (by omega)] at hlast
    omega
  · intro h n hn
    rw [List.mem_range] at hn
    rw [off_lt_iff, nibble_iterate (by omega)]
    omega

/-- The rest of the byte behind such a code is there as well. -/
theorem stays_drawCode {code : Nat} {run : Bool} {q : Pos}
    (h : q.fAligned = false → q.off < k.packetsize) :
    Stays mem (· < k.packetsize) (drawCode p s code run q) := by
  unfold drawCode
  extract_lets x drawn
  split
  · exact stays_pure
  · rw [stays_bind]
    refine ⟨?_, stays_pure⟩
    rw [Stays, places_align]
    split
    · simp
    · next haligned =>
      rw [Bool.not_eq_true] at haligned
      simpa using h haligned

theorem stays_pixelStep (hsize : k.packetsize < 65536) :
    Stays mem (· < k.packetsize) (pixelStep k p s) ↔
      (s.pos.off < s.fieldEnd k → s.pos.nibble + codeNibbles mem s.pos ≤ 2 * k.packetsize) := by
  unfold pixelStep
  split
  · next hgoes =>
    rw [stays_bind, stays_readCode hsize, (readCode_spec mem s.pos).1]
    constructor
    · exact fun h _ => h.1
    · intro h
      have hfits := h hgoes
      refine ⟨hfits, stays_drawCode fun haligned => ?_⟩
      have hbehind : (s.pos.behind mem).nibble = s.pos.nibble + codeNibbles mem s.pos :=
        nibble_iterate (by omega)
      have hodd : (s.pos.behind mem).nibble = 2 * (s.pos.behind mem).off + 1 := by
        rw [Pos.nibble, Pos.behind, if_neg (by rw [haligned]; decide)]
      show (s.pos.behind mem).off < k.packetsize
      omega
  · next hends =>
    exact iff_of_true stays_pure fun hgoes => absurd hgoes hends

/-! ## Drawing -/

/-- What holds at every code when decoding is safe. -/
structure Drawing (k : Packet) (s : State) : Prop where
  phase : s.phase = .pixels
  datasize : k.datasize + 3 < k.packetsize
  rectSet : s.rectSet = true
  rect : s.rect.Read
  x : s.rect.left ≤ s.x ∧ s.x ≤ s.rect.right
  y : s.rect.top ≤ s.y ∧ s.y ≤ s.rect.bottom

/-- A run stays behind the left edge, and near the right one. -/
theorem xBehind_bounds (hs : Drawing k s) :
    s.rect.left ≤ s.xBehind mem ∧ s.xBehind mem < s.rect.right + 256 := by
  obtain ⟨hleft, -, hright, -⟩ := hs.rect
  have hx := hs.x
  unfold State.xBehind
  split
  · next hrun =>
    have hless := (run_bounds hrun).2
    rw [toInt32_of_lt (by omega) (by omega)]
    omega
  · omega

theorem drawing_next (hs : Drawing k s) (h : next k p mem s = some t) : Drawing k t := by
  have hx : s.rect.left ≤ s.xBehind mem := (xBehind_bounds hs).1
  obtain ⟨hleft, htop, hright, hbottom⟩ := hs.rect
  have hy := hs.y
  rw [next_pixels hs.phase] at h
  split at h
  · split at h
    · next hstays =>
      cases h
      refine ⟨?_, hs.datasize, ?_, ?_, ?_, ?_⟩
      · simpa using hs.phase
      · simpa using hs.rectSet
      · simpa using hs.rect
      · simpa using ⟨hx, hstays.2.le⟩
      · simpa using hs.y
    · split at h
      · cases h
      · next hrow =>
        have hrect : (s.lineEnd mem).rect = s.rect := setPos_rect s _
        have hnext : (s.lineEnd mem).y = s.y + 1 := toInt32_of_lt (by omega) (by omega)
        rw [not_le, hnext] at hrow
        cases h
        refine ⟨(setPos_phase s _).trans hs.phase, hs.datasize,
          (setPos_rectSet s _).trans hs.rectSet, ?_, ?_, ?_⟩
        · rw [hrect]
          exact hs.rect
        · rw [hrect]
          exact ⟨le_refl _, hs.x.1.trans hs.x.2⟩
        · rw [hrect, hnext]
          omega
  · cases h

theorem draw_inside {code : Nat} {x count : Int} (hs : Drawing k s)
    (hx : s.rect.left ≤ x ∧ x < s.rect.right + 256) :
    ∀ pixel ∈ s.draw p code x count, 0 ≤ pixel.1 ∧ pixel.1 < s.pixelCount := by
  intro pixel hpixel
  obtain ⟨place, hin, rfl⟩ := List.mem_map.mp hpixel
  have hless := List.mem_takeWhile_imp hin
  obtain ⟨n, -, rfl⟩ := List.mem_map.mp (List.takeWhile_subset _ hin)
  refine ⟨?_, of_decide_eq_true hless⟩
  have hright := hs.rect.right
  have hlines : 0 ≤ (s.rect.right - s.rect.left) * (s.y - s.rect.top) :=
    mul_nonneg (sub_nonneg.mpr (hs.x.1.trans hs.x.2)) (sub_nonneg.mpr hs.y.1)
  rw [pixelAt_eq hs.rect hs.y ⟨hx.1, by omega⟩]
  omega

theorem writes_inside (hs : Drawing k s) :
    ∀ pixel ∈ ((pixelStep k p s).value mem).1, 0 ≤ pixel.1 ∧ pixel.1 < s.pixelCount := by
  have hrun : ∀ pixel ∈ s.drawnRun p mem, 0 ≤ pixel.1 ∧ pixel.1 < s.pixelCount := by
    unfold State.drawnRun
    split
    · exact draw_inside hs ⟨hs.x.1, by have := hs.x.2; omega⟩
    · simp
  rw [value_pixelStep, value_drawCode]
  split
  · split
    · exact hrun
    · exact List.forall_mem_append.mpr ⟨hrun, draw_inside hs (xBehind_bounds hs)⟩
  · simp

/-! ## A turn -/

theorem stepSafe_block (hphase : s.phase = .block) :
    StepSafe k p mem s ↔ s.nextctrlblk + 3 < k.packetsize := by
  have hreads : Stays mem (· < k.packetsize) (step k p s) ↔ s.nextctrlblk + 3 < k.packetsize := by
    rw [step, hphase]
    dsimp only
    rw [stays_bind, stays_blockStep]
    exact and_iff_left stays_pure
  refine ⟨fun h => hreads.mp h.reads, fun h => ⟨hreads.mpr h, ?_, ?_⟩⟩
  · rw [step, hphase]
    dsimp only
    rw [value_bind, value_pure]
    simp
  · intro hpixels
    rw [hphase] at hpixels
    cases hpixels

theorem stepSafe_command (hphase : s.phase = .command) :
    StepSafe k p mem s ↔ s.i < k.packetsize := by
  have hreads : Stays mem (· < k.packetsize) (step k p s) ↔ s.i < k.packetsize := by
    rw [step, hphase]
    dsimp only
    rw [stays_bind, stays_commandStep]
    exact and_iff_left stays_pure
  refine ⟨fun h => hreads.mp h.reads, fun h => ⟨hreads.mpr h, ?_, ?_⟩⟩
  · rw [step, hphase]
    dsimp only
    rw [value_bind, value_pure]
    simp
  · intro hpixels
    rw [hphase] at hpixels
    cases hpixels

theorem step_pixels (hphase : s.phase = .pixels) : step k p s = pixelStep k p s := by
  rw [step, hphase]

/-- The second field ends in front of the blocks, and so does every code of it. -/
theorem code_second (hdatasize : k.datasize + 3 < k.packetsize) (hplane : s.nPlane = true)
    (hgoes : s.pos.off < s.fieldEnd k) :
    s.pos.nibble + codeNibbles mem s.pos ≤ 2 * k.packetsize := by
  obtain ⟨-, hfour⟩ := codeNibbles_pos mem s.pos
  rw [State.fieldEnd, if_pos hplane, off_lt_iff] at hgoes
  omega

theorem stays_step_pixels (hphase : s.phase = .pixels) :
    Stays mem (· < k.packetsize) (step k p s) ↔ (s.pos.off < s.fieldEnd k →
      s.pos.nibble + codeNibbles mem s.pos ≤ 2 * k.packetsize) := by
  rw [step_pixels hphase]
  exact stays_pixelStep k.size_lt

theorem first_goes_iff (hplane : s.nPlane = false) :
    s.pos.off < s.fieldEnd k ↔ s.nOffset0 < s.nOffset1 := by
  rw [State.pos, State.fieldEnd, hplane, if_neg Bool.false_ne_true, if_neg Bool.false_ne_true]

theorem stepSafe_pixels (hs : Drawing k s) (h : s.nPlane = false → s.nOffset0 < s.nOffset1 →
    s.pos.nibble + codeNibbles mem s.pos ≤ 2 * k.packetsize) : StepSafe k p mem s := by
  refine ⟨(stays_step_pixels hs.phase).mpr fun hgoes => ?_, ?_,
    fun _ => ⟨hs.x.1.trans hs.x.2, hs.y.1.trans hs.y.2⟩⟩
  · cases hplane : s.nPlane with
    | true => exact code_second hs.datasize hplane hgoes
    | false => exact h hplane ((first_goes_iff hplane).mp hgoes)
  · rw [step_pixels hs.phase]
    exact writes_inside hs

/-! ## Runs of a packet that fits -/

/-- What holds at every turn. -/
def Sound (k : Packet) (s : State) : Prop :=
  (Controls k s ∧ (s.phase = .block ∧ s.nextctrlblk = k.datasize ∨
    k.datasize + 3 < k.packetsize)) ∨ Drawing k s

theorem sound_next (hs : Sound k s) (hfits : Fits k s) (hnext : next k p (k.memory []) s = some t)
    (ht : t.phase = .pixels → Fits k t) : Sound k t := by
  rcases hs with ⟨hs, hdatasize⟩ | hs
  · have hroom : k.datasize + 3 < k.packetsize := by
      rcases hdatasize with ⟨hblock, hfirst⟩ | hroom
      · rw [Fits, hblock] at hfits
        rwa [hfirst] at hfits
      · exact hroom
    rcases controls_next hs hnext with hin | ⟨hin, -⟩
    · have hfit := ht hin.phase
      rw [Fits, hin.phase] at hfit
      obtain ⟨hset, hwidth, hheight, -⟩ := hfit
      refine .inr ⟨hin.phase, hroom, hset, hin.rect hset, ?_, ?_⟩
      · rw [hin.x]
        exact ⟨le_refl _, hwidth⟩
      · rw [hin.y]
        exact ⟨le_refl _, hheight⟩
    · exact .inl ⟨hin, .inr hroom⟩
  · exact .inr (drawing_next hs hnext)

theorem stepSafe_of_fits (hs : Sound k s) (hfits : Fits k s) : StepSafe k p (k.memory []) s := by
  cases hphase : s.phase with
  | block =>
    rw [Fits, hphase] at hfits
    exact (stepSafe_block hphase).mpr hfits
  | command =>
    rw [Fits, hphase] at hfits
    exact (stepSafe_command hphase).mpr hfits
  | pixels =>
    rcases hs with ⟨hs, -⟩ | hs
    · exact absurd hphase hs.phase
    · rw [Fits, hphase] at hfits
      exact stepSafe_pixels hs hfits.2.2.2

/-- What stands behind the packet makes no difference to a turn inside. -/
theorem agrees_behind (hs : StepSafe k p (k.memory []) s) (behind : List UInt8) :
    ∀ n ∈ (step k p s).places (k.memory []), k.memory [] n = k.memory behind n := by
  intro n hn
  have hin : n < k.bytes.length := hs.reads n hn
  rw [Packet.memory, Packet.memory, List.getD_append _ _ _ _ hin, List.getD_append _ _ _ _ hin]

theorem StepSafe.behind (hs : StepSafe k p (k.memory []) s) (behind : List UInt8) :
    StepSafe k p (k.memory behind) s := by
  have hagrees := agrees_behind hs behind
  refine ⟨?_, ?_, hs.bitmap⟩
  · rw [Stays, ← places_congr _ hagrees]
    exact hs.reads
  · rw [← value_congr _ hagrees]
    exact hs.writes

theorem sound_of_fits (hfits : ∀ s, Reaches (next k p (k.memory [])) (start k stack) s → Fits k s)
    (hs : Reaches (next k p (k.memory [])) (start k stack) s) : Sound k s := by
  refine hs.invariant (Sound k) (.inl ⟨controls_start k stack, .inl ⟨rfl, rfl⟩⟩) ?_
  intro s t hs hsound hnext
  exact sound_next hsound (hfits s hs) hnext fun _ => hfits t (hs.trans (.step hnext))

/-! ## Another stack -/

def State.control (s : State) : Phase × Nat × Nat × Bool := (s.phase, s.i, s.nextctrlblk, s.rectSet)

theorem control_start (k : Packet) (stack stack' : Stack) :
    (start k stack').control = (start k stack).control := by
  simp only [State.control, start]

theorem control_command {s' : State} (h : s'.control = s.control) (b : UInt8) :
    ((command k s' b).value mem).state.map State.control =
      ((command k s b).value mem).state.map State.control := by
  obtain ⟨phase, i, nextctrlblk, pal, tr, rect, nOffset0, nOffset1, rectSet, offsetsSet, nPlane,
    fAligned, x, y⟩ := s
  obtain ⟨phase', i', nextctrlblk', pal', tr', rect', nOffset0', nOffset1', rectSet', offsetsSet',
    nPlane', fAligned', x', y'⟩ := s'
  cases h
  unfold command
  split
  · dsimp only [value_pure]
    unfold endBlock
    split <;> rfl
  · split
    · rfl
    · split
      · rfl
      · split
        · rfl
        · split
          · rfl
          · split
            · rfl
            · dsimp only [value_pure]
              unfold endBlock
              split <;> rfl

/-- **The blocks do not look at the rectangle.** -/
theorem control_next {s' : State} (hs : s.phase ≠ .pixels) (h : s'.control = s.control) :
    (next k p mem s').map State.control = (next k p mem s).map State.control := by
  have hphase : s'.phase = s.phase := congrArg Prod.fst h
  have hi : s'.i = s.i := congrArg (fun c => c.2.1) h
  have hnextctrlblk : s'.nextctrlblk = s.nextctrlblk := congrArg (fun c => c.2.2.1) h
  have hset : s'.rectSet = s.rectSet := congrArg (fun c => c.2.2.2) h
  cases hcase : s.phase with
  | block =>
    rw [hcase] at hphase
    simp only [next, step, hphase, hcase, blockStep, value_bind, value_pure, value_ite,
      hnextctrlblk]
    split
    · rfl
    · show some (_, _, _, s'.rectSet) = some (_, _, _, s.rectSet)
      rw [hset]
  | command =>
    rw [hcase] at hphase
    simp only [next, step, hphase, hcase, commandStep, value_bind, value_pure, value_peek, hi]
    exact control_command h _
  | pixels => exact absurd hcase hs

theorem rect_next (hs : s.phase ≠ .pixels) (h : next k p mem s = some t)
    (hset : t.rectSet = false) : s.rectSet = false ∧ t.rect = s.rect := by
  cases hphase : s.phase with
  | block =>
    obtain ⟨-, -, -, ht⟩ := next_block hphase h
    rw [ht] at hset ⊢
    exact ⟨hset, rfl⟩
  | command =>
    rcases next_command hphase h with hc | hl
    · rcases hc.rect with ⟨hrect, hold⟩ | ⟨-, hnew⟩
      · exact ⟨hold.symm.trans hset, hrect⟩
      · rw [hset] at hnew
        cases hnew
    · exact ⟨hl.rect.2.symm.trans hset, hl.rect.1⟩
  | pixels => exact absurd hphase hs

theorem rectSet_next (hs : s.phase = .pixels) (h : next k p mem s = some t) :
    t.rectSet = s.rectSet := by
  rw [next_pixels hs] at h
  split at h
  · split at h
    · cases h
      simp
    · split at h
      · cases h
      · cases h
        exact setPos_rectSet s _
  · cases h

/-- **A rectangle that no block sets is any one**: the codes are come to from another stack as
well. -/
theorem exists_from_stack (stack' : Stack) (hs : Reaches (next k p mem) (start k stack) s)
    (hphase : s.phase = .pixels) (hset : s.rectSet = false) :
    ∃ s', Reaches (next k p mem) (start k stack') s' ∧ s'.phase = .pixels ∧
      s'.rect = (start k stack').rect := by
  have hinv := hs.invariant (fun s => (s.phase = .pixels → s.rectSet = false →
      ∃ s', Reaches (next k p mem) (start k stack') s' ∧ s'.phase = .pixels ∧
        s'.rect = (start k stack').rect) ∧ (s.phase ≠ .pixels →
      ∃ s', Reaches (next k p mem) (start k stack') s' ∧ s'.control = s.control ∧
        (s'.rectSet = false → s'.rect = (start k stack').rect))) ?_ ?_
  · exact hinv.1 hphase hset
  · refine ⟨?_, fun _ => ⟨start k stack', .refl _, control_start _ _ _, fun _ => rfl⟩⟩
    intro hpixels
    cases hpixels
  · rintro s t - ⟨hcodes, hblocks⟩ hnext
    by_cases hs : s.phase = .pixels
    · have ht := phase_next hs hnext
      refine ⟨fun _ hset => hcodes hs ?_, fun hno => absurd ht hno⟩
      rwa [rectSet_next hs hnext] at hset
    · obtain ⟨s', hreaches, hcontrol, hrect⟩ := hblocks hs
      have hsame : (next k p mem s').map State.control = (next k p mem s).map State.control :=
        control_next hs hcontrol
      rw [hnext, Option.map_some] at hsame
      obtain ⟨t', hnext', ht'⟩ := Option.map_eq_some_iff.mp hsame
      have hs' : s'.phase ≠ .pixels := by
        rw [show s'.phase = s.phase from congrArg Prod.fst hcontrol]
        exact hs
      have hrect' : t'.rectSet = false → t'.rect = (start k stack').rect := by
        intro hset'
        obtain ⟨hold, heq⟩ := rect_next hs' hnext' hset'
        rw [heq, hrect hold]
      have hreaches' := hreaches.trans (.step hnext')
      refine ⟨fun hpixels hset => ⟨t', hreaches', ?_, hrect' ?_⟩,
        fun _ => ⟨t', hreaches', ht', hrect'⟩⟩
      · rw [show t'.phase = t.phase from congrArg Prod.fst ht', hpixels]
      · rw [show t'.rectSet = t.rectSet from congrArg (fun c => c.2.2.2) ht', hset]

/-! ## Safety -/

theorem fits_of_decodeSafe (h : DecodeSafe k p)
    (hs : Reaches (next k p (k.memory [])) (start k stack) s) : Fits k s := by
  have hsafe := h stack [] s hs
  unfold Fits
  split
  · next hphase => exact (stepSafe_block hphase).mp hsafe
  · next hphase => exact (stepSafe_command hphase).mp hsafe
  · next hphase =>
    obtain ⟨hwidth, hheight⟩ := hsafe.bitmap hphase
    refine ⟨?_, hwidth, hheight, fun hplane hgoes => ?_⟩
    · by_contra hset
      -- a stack with a rectangle that is negative in size
      obtain ⟨s', hs', hpixels, hrect⟩ := exists_from_stack ⟨1, 0, 0, 0, 0, 0⟩ hs hphase
        (Bool.not_eq_true _ ▸ hset)
      have hnegative := ((h _ [] s' hs').bitmap hpixels).1
      rw [hrect] at hnegative
      change (1 : Int32).toInt ≤ (0 : Int32).toInt at hnegative
      exact absurd hnegative (by decide)
    · exact (stays_step_pixels hphase).mp hsafe.reads ((first_goes_iff hplane).mpr hgoes)

/-- **Decoding is safe** exactly when every block, command and code that it comes to fits. -/
theorem decodeSafe_iff_fits (k : Packet) (p : VobSubParser) : DecodeSafe k p ↔
    ∀ stack s, Reaches (next k p (k.memory [])) (start k stack) s → Fits k s := by
  constructor
  · exact fun h stack s hs => fits_of_decodeSafe h hs
  · intro hfits stack behind s hs
    have hsafe : ∀ s, Reaches (next k p (k.memory [])) (start k stack) s →
        StepSafe k p (k.memory []) s :=
      fun s hs => stepSafe_of_fits (sound_of_fits (hfits stack) hs) (hfits stack s hs)
    have hsame : Reaches (next k p (k.memory [])) (start k stack) s := by
      refine Reaches.of_agrees (fun s hs => ?_) hs
      rw [next, next, value_congr _ (agrees_behind (hsafe s hs) behind)]
    exact (hsafe s hsame).behind behind

/-! ## A packet with fields behind it -/

/-- One block with a rectangle of one pixel, and fields at 4096 and 4097. -/
def farBytes : List UInt8 :=
  [0x00, 0x15, 0x00, 0x04, 0x00, 0x00, 0x00, 0x04, 0x05, 0x00, 0x00, 0x00, 0x00, 0x00, 0x00, 0x06,
    0x10, 0x00, 0x10, 0x01, 0xff]

def farPacket : Packet := ⟨farBytes, 4, by decide, by decide⟩

/-- A block of a file with the packet, in the language 0. -/
def farFile : List UInt8 :=
  [0x00, 0x00, 0x01, 0xba] ++ List.replicate 10 0x00 ++ [0x00, 0x00, 0x01, 0xbd] ++
    [0x00, 0x00, 0x00, 0x80, 0x00, 0x20] ++ farBytes ++ List.replicate 2003 0x00

def emptyParser : VobSubParser where
  mTotalWidth := 720
  mTotalHeight := 480
  mScaleX := 0
  mScaleY := 0
  mGlobalTimeOffset := 0
  mSubFile := true
  mFirstLine := false
  mBadIndex := false
  mLangId := 0
  mOrgpal := []
  mCuspal := []
  mUseCustomColor := false
  mScanForLangId := false
  mMaxLangId := 0
  mSubtitles := []
  mCurrentSubtitle := ⟨-1, 0, 0, 0, 0, 0, 0, 0, []⟩

theorem far_added : ∃ sub ∈ (emptyParser.addSubtitle 0 0 farBytes).mSubtitles,
    sub.Holds farPacket :=
  ⟨⟨0, 0, 0, 0, 0, 0, 4, 21, farBytes⟩, by decide, rfl, rfl, rfl⟩

def farEntered : State where
  phase := .pixels
  i := 21
  nextctrlblk := 4
  pal := 0
  tr := 0
  rect := ⟨0, 0, 1, 1⟩
  nOffset0 := 4096
  nOffset1 := 4097
  rectSet := true
  offsetsSet := true
  nPlane := false
  fAligned := true
  x := 0
  y := 0

theorem far_reaches (p : VobSubParser) : Reaches (next farPacket p (farPacket.memory []))
    (start farPacket ⟨0, 0, 0, 0, 0, 0⟩) farEntered :=
  ⟨4, rfl⟩

theorem length_farFile : farFile.length = 0x800 := by
  rw [farFile, List.length_append, List.length_replicate]
  rfl

def farBuff : Buff := ⟨farFile.take 0x800, List.length_take_of_le length_farFile.ge⟩

theorem far_copied : farBuff.copyPacket 0 [] 21 = farBytes := by
  rw [Buff.copyPacket, if_neg (by decide)]
  have hall : min 21 (0x800 - farBuff.hsize) = 21 := by decide
  rw [hall, if_pos rfl]
  decide

theorem far_time : timeLength (farPacket.memory []) 21 4 (-1) 4 (-1) = (true, -1) := by
  have hcommands : stopCommands (farPacket.memory []) 21 (-1) 0 8 (-1) = (9, -1) := by
    rw [stopCommands, if_neg (by decide), if_neg (by decide)]
  have hnumber : (word 4).value (farPacket.memory []) = 0 := by decide
  have hnext : (word (4 + 2)).value (farPacket.memory []) = 4 := by decide
  rw [timeLength]
  dsimp only
  rw [hnumber, hnext, hcommands, if_neg (by decide), if_neg (by decide)]

/-- `read_packet_from_subfile` takes it. -/
theorem far_read : (readPacketFromSubfile [] farFile 0 emptyParser.mCurrentSubtitle).1 = true ∧
    (readPacketFromSubfile [] farFile 0 emptyParser.mCurrentSubtitle).2.Holds farPacket := by
  have hread : readPacketFromSubfile [] farFile 0 emptyParser.mCurrentSubtitle =
      farBuff.readPacket [] [] 0 emptyParser.mCurrentSubtitle := by
    have hbegins : farBuff.begins 0 = true := by decide
    have hrest : farFile.drop 0x800 = [] := List.drop_eq_nil_of_le length_farFile.le
    rw [readPacketFromSubfile, dif_pos length_farFile.ge, hrest]
    exact if_pos hbegins
  have hsize : (word farBuff.hsize).value farBuff.byte = 21 := by decide
  have hdatasize : (word (farBuff.hsize + 2)).value farBuff.byte = 4 := by decide
  rw [hread, Buff.readPacket, hsize, hdatasize, far_copied]
  exact ⟨congrArg Prod.fst far_time, rfl, rfl, rfl⟩

/-- **A packet that both ways take is not read inside.** -/
theorem far_packet_is_read_behind :
    (readPacketFromSubfile [] farFile 0 emptyParser.mCurrentSubtitle).1 = true ∧
    (readPacketFromSubfile [] farFile 0 emptyParser.mCurrentSubtitle).2.Holds farPacket ∧
    (∃ sub ∈ (emptyParser.addSubtitle 0 0 farBytes).mSubtitles, sub.Holds farPacket) ∧
    ¬ ∃ p, DecodeSafe farPacket p := by
  refine ⟨far_read.1, far_read.2, far_added, ?_⟩
  rintro ⟨p, hsafe⟩
  have hfits := fits_of_decodeSafe hsafe (far_reaches p)
  exact absurd (hfits.2.2.2 rfl (by decide)) (by decide)

end DWindow.VobSub.Decode
