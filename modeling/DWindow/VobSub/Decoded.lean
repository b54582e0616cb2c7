import DWindow.VobSub.DecodeSafe
import DWindow.VobSub.Drawn

/-!
# Decoding a valid packet

The commands of the control blocks leave what they set, and the loop over the codes begins with
all lines of the picture in front of it.  Then `decode` ends with a bitmap of which every pixel
has the color of its index, whatever the stack and the memory behind the packet hold, if all
codes are reached, and with too few lines otherwise: `decodes_encoded_iff`.  They are where the
first field stands in front of the second one and that in front of the control blocks
(`decodes_encoded`); a packet whose second field comes first is decoded to no line at all
(`swapped_not_decoded`).
-/

namespace DWindow.VobSub.Decode

open Looking

variable {k : Packet} {p : VobSubParser} {mem : Nat → UInt8} {s : State}

/-! ## Control blocks -/

theorem value_word_of_stands {place n : Nat} (h : Stands mem place (wordBytes n))
    (hn : n < 65536) : (word place).value mem = n := by
  obtain ⟨hhigh, hlow, -⟩ := h
  rw [value_word, hhigh, hlow, UInt8.toNat_ofNat', UInt8.toNat_ofNat']
  omega

theorem value_readRect_of_stands {place : Nat} {a : Area}
    (h : Stands mem place (sideBytes a.left a.right ++ sideBytes a.top a.bottom)) :
    (readRect place).value mem = a.rect := by
  obtain ⟨h₀, h₁, h₂, h₃, h₄, h₅, -⟩ := h
  have hleft := a.left.isLt
  have hright := a.right.isLt
  have htop := a.top.isLt
  have hbottom := a.bottom.isLt
  simp only [readRect, value_bind, value_peek, value_pure, h₀, h₁, h₂, Area.rect,
    UInt8.toNat_ofNat']
  change mem (place + 3) = _ at h₃
  change mem (place + 4) = _ at h₄
  change mem (place + 5) = _ at h₅
  rw [h₃, h₄, h₅, UInt8.toNat_ofNat', UInt8.toNat_ofNat', UInt8.toNat_ofNat']
  congr 1
  · omega
  · omega
  · omega
  · omega

def State.perform (s : State) : Command → State
  | .forced => { s with i := s.i + 1 }
  | .start => { s with i := s.i + 1 }
  | .stop => { s with i := s.i + 1 }
  | .palette pal => { s with i := s.i + 3, pal := pal.toNat }
  | .transparency tr => { s with i := s.i + 3, tr := tr.toNat }
  | .area a => { s with i := s.i + 7, rect := a.rect, rectSet := true }
  | .offsets first second => { s with
      i := s.i + 5
      nOffset0 := first.toNat
      nOffset1 := second.toNat
      offsetsSet := true }

theorem step_command (c : Command) (hphase : s.phase = .command) (hstands : Stands mem s.i c.bytes)
    (hroom : s.i + c.bytes.length ≤ k.packetsize) :
    (step k p s).value mem = ([], .go (s.perform c)) := by
  have hcommand : ∀ b : UInt8, mem s.i = b → (command k s b).value mem = .go (s.perform c) →
      (step k p s).value mem = ([], .go (s.perform c)) := by
    intro b hb hvalue
    rw [step, hphase]
    dsimp only
    rw [value_bind, commandStep, value_bind, value_peek, hb, hvalue, value_pure]
  cases c with
  | forced =>
    obtain ⟨hb, -⟩ := hstands
    apply hcommand _ hb
    rw [command, if_neg (by exact not_le.mpr hroom), if_pos (by decide)]
    rfl
  | start =>
    obtain ⟨hb, -⟩ := hstands
    apply hcommand _ hb
    rw [command, if_neg (by exact not_le.mpr hroom), if_pos (by decide)]
    rfl
  | stop =>
    obtain ⟨hb, -⟩ := hstands
    apply hcommand _ hb
    rw [command, if_neg (by exact not_le.mpr hroom), if_pos (by decide)]
    rfl
  | palette pal =>
    obtain ⟨hb, hword⟩ := hstands
    apply hcommand _ hb
    rw [command, if_neg (by exact not_le.mpr hroom), if_neg (by decide), if_pos rfl, value_bind,
      value_word_of_stands hword pal.toNat_lt]
    rfl
  | transparency tr =>
    obtain ⟨hb, hword⟩ := hstands
    apply hcommand _ hb
    rw [command, if_neg (by exact not_le.mpr hroom), if_neg (by decide), if_neg (by decide),
      if_pos rfl, value_bind, value_word_of_stands hword tr.toNat_lt]
    rfl
  | area a =>
    obtain ⟨hb, hsides⟩ := hstands
    apply hcommand _ hb
    rw [command, if_neg (by exact not_le.mpr hroom), if_neg (by decide), if_neg (by decide),
      if_neg (by decide), if_pos rfl, value_bind, value_readRect_of_stands hsides]
    rfl
  | offsets first second =>
    obtain ⟨hb, hwords⟩ := hstands
    obtain ⟨hfirst, hsecond⟩ := (stands_append _ _ _).mp hwords
    change Stands mem (s.i + 3) _ at hsecond
    apply hcommand _ hb
    rw [command, if_neg (by exact not_le.mpr hroom), if_neg (by decide), if_neg (by decide),
      if_neg (by decide), if_neg (by decide), if_pos rfl, value_bind,
      value_word_of_stands hfirst first.toNat_lt, value_bind,
      value_word_of_stands hsecond second.toNat_lt, value_pure]
    rfl

/-- The locals are those that commands have set. -/
structure State.Shows (s : State) (d : Display) : Prop where
  pal : s.pal = d.pal.toNat
  tr : s.tr = d.tr.toNat
  rect : ∀ a ∈ d.area, s.rect = a.rect
  offsets : ∀ o ∈ d.offsets, s.nOffset0 = o.1.toNat ∧ s.nOffset1 = o.2.toNat

theorem State.Shows.perform {d : Display} (h : s.Shows d) (c : Command) :
    (s.perform c).Shows (d.perform c) := by
  obtain ⟨hpal, htr, hrect, hoffsets⟩ := h
  cases c with
  | forced => exact ⟨hpal, htr, hrect, hoffsets⟩
  | start => exact ⟨hpal, htr, hrect, hoffsets⟩
  | stop => exact ⟨hpal, htr, hrect, hoffsets⟩
  | palette pal => exact ⟨rfl, htr, hrect, hoffsets⟩
  | transparency tr => exact ⟨hpal, rfl, hrect, hoffsets⟩
  | area a =>
    refine ⟨hpal, htr, ?_, hoffsets⟩
    intro a' ha'
    cases ha'
    rfl
  | offsets first second =>
    refine ⟨hpal, htr, hrect, ?_⟩
    intro o ho
    cases ho
    exact ⟨rfl, rfl⟩

theorem perform_frame (s : State) (c : Command) : (s.perform c).phase = s.phase ∧
    (s.perform c).i = s.i + c.bytes.length ∧ (s.perform c).nextctrlblk = s.nextctrlblk ∧
      (s.perform c).nPlane = s.nPlane := by
  cases c <;> exact ⟨rfl, rfl, rfl, rfl⟩

/-- The locals at a block or at a command. -/
structure Between (phase : Phase) (s : State) (d : Display) : Prop where
  phase : s.phase = phase
  nPlane : s.nPlane = false
  shows : s.Shows d

theorem Between.perform {d : Display} (h : Between .command s d) (c : Command) :
    Between .command (s.perform c) (d.perform c) := by
  obtain ⟨hphase, -, -, hplane⟩ := perform_frame s c
  exact ⟨hphase.trans h.phase, hplane.trans h.nPlane, h.shows.perform c⟩

/-- **All commands of a block are performed.** -/
theorem decodes_commands (commands : List Command) : ∀ {s : State} {d : Display},
    Between .command s d → Stands mem s.i (commands.flatMap Command.bytes) →
      s.i + (commands.flatMap Command.bytes).length ≤ k.packetsize →
        ∃ t, Between .command t (commands.foldl Display.perform d) ∧
          t.i = s.i + (commands.flatMap Command.bytes).length ∧
          t.nextctrlblk = s.nextctrlblk ∧ ∀ r, Decodes k p mem t r → Decodes k p mem s r := by
  induction commands with
  | nil =>
    intro s d h _ _
    exact ⟨s, h, rfl, rfl, fun _ => id⟩
  | cons c commands ih =>
    intro s d h hstands hroom
    rw [List.flatMap_cons, stands_append] at hstands
    rw [List.flatMap_cons, List.length_append] at hroom
    obtain ⟨-, hi, hnext, -⟩ := perform_frame s c
    rw [← hi] at hstands
    obtain ⟨t, ht, hti, htnext, hdecodes⟩ := ih (h.perform c) hstands.2 (by omega)
    refine ⟨t, ht, ?_, htnext.trans hnext, ?_⟩
    · rw [hti, hi, List.flatMap_cons, List.length_append, Nat.add_assoc]
    · intro r hr
      exact (hdecodes r hr).quiet (step_command c h.phase hstands.1 (by omega))

theorem Block.length_bytes (b : Block) (next : Nat) : (b.bytes next).length = b.size := by
  rw [Block.bytes, Block.size]
  simp [wordBytes]
  omega

/-- The first command of a block. -/
def State.atCommands (s : State) (next : Nat) : State :=
  { s with phase := .command, i := s.nextctrlblk + 4, nextctrlblk := next }

def State.atPixels (s : State) : State :=
  { s with phase := .pixels, fAligned := true, x := s.rect.left, y := s.rect.top }

theorem Between.withI {phase : Phase} {d : Display} (h : Between phase s d) (i : Nat) :
    Between phase { s with i := i } d :=
  ⟨h.phase, h.nPlane, h.shows.pal, h.shows.tr, h.shows.rect, h.shows.offsets⟩

theorem Between.atCommands {d : Display} (h : Between .block s d) (next : Nat) :
    Between .command (s.atCommands next) d :=
  ⟨rfl, h.nPlane, h.shows.pal, h.shows.tr, h.shows.rect, h.shows.offsets⟩

theorem Between.atBlock {d : Display} (h : Between .command s d) :
    Between .block { s with phase := .block } d :=
  ⟨rfl, h.nPlane, h.shows.pal, h.shows.tr, h.shows.rect, h.shows.offsets⟩

theorem Between.atPixels {d : Display} (h : Between .command s d) :
    Between .pixels s.atPixels d :=
  ⟨rfl, h.nPlane, h.shows.pal, h.shows.tr, h.shows.rect, h.shows.offsets⟩

theorem length_blockBytes_pos (place : Nat) (b : Block) (blocks : List Block) :
    0 < (blockBytes place (b :: blocks)).length := by
  have hsize : 0 < b.size := by
    rw [Block.size]
    omega
  cases blocks with
  | nil =>
    rw [blockBytes, Block.length_bytes]
    exact hsize
  | cons b' blocks =>
    rw [blockBytes, List.length_append, Block.length_bytes]
    omega

theorem step_block {next : Nat} (hphase : s.phase = .block)
    (hstands : Stands mem (s.nextctrlblk + 2) (wordBytes next)) (hdatasize : k.datasize ≤ next)
    (hsize : next ≤ k.packetsize) :
    (step k p s).value mem = ([], .go (s.atCommands next)) := by
  have hlt : next < 65536 := hsize.trans_lt k.size_lt
  have hfits : ¬(k.packetsize < next ∨ next < k.datasize) := by omega
  rw [step, hphase]
  dsimp only
  rw [value_bind, blockStep, value_bind, value_bind, value_word_of_stands hstands hlt, value_ite,
    if_neg hfits]
  rfl

theorem step_end (hphase : s.phase = .command) (hbyte : mem s.i = 0xff)
    (hroom : s.i < k.packetsize) :
    (step k p s).value mem = ([], endBlock k { s with i := s.i + 1 }) := by
  rw [step, hphase]
  dsimp only
  rw [value_bind, commandStep, value_bind, value_peek, hbyte, command,
    if_neg (by exact not_le.mpr hroom), if_neg (by decide), if_neg (by decide),
    if_neg (by decide), if_neg (by decide), if_neg (by decide)]
  rfl

theorem decodes_block {d : Display} {b : Block} {next : Nat} (h : Between .block s d)
    (hstands : Stands mem s.nextctrlblk (b.bytes next))
    (hroom : s.nextctrlblk + b.size ≤ k.packetsize) (hdatasize : k.datasize ≤ next)
    (hsize : next ≤ k.packetsize) :
    ∃ t, Between .command t (b.commands.foldl Display.perform d) ∧ t.nextctrlblk = next ∧
      s.nextctrlblk < t.i ∧ t.i ≤ s.nextctrlblk + b.size ∧
      ∀ t' r, endBlock k t = .go t' → Decodes k p mem t' r → Decodes k p mem s r := by
  rw [Block.bytes, stands_append, stands_append, stands_append] at hstands
  obtain ⟨⟨⟨-, hnext⟩, hcommands⟩, hbyte, -⟩ := hstands
  rw [Block.size] at hroom ⊢
  have hi : (s.atCommands next).i = s.nextctrlblk + 4 := rfl
  obtain ⟨t, ht, hti, htnext, hdecodes⟩ := decodes_commands (k := k) (p := p)
    b.commands (h.atCommands next) hcommands (by omega)
  refine ⟨{ t with i := t.i + 1 }, ht.withI _, htnext, ?_, ?_, ?_⟩
  · dsimp only
    omega
  · dsimp only
    omega
  · intro t' r hend hr
    have hlast : mem t.i = 0xff := by
      rw [hti, hi, ← hbyte, List.length_append, Nat.add_assoc]
      rfl
    have hstep : (step k p t).value mem = ([], .go t') := by
      rw [step_end ht.phase hlast (by omega), hend]
    exact (hdecodes r (hr.quiet hstep)).quiet (step_block h.phase hnext hdatasize hsize)

/-- **The blocks leave what they set** for the loop over the codes. -/
theorem decodes_blocks (blocks : List Block) : ∀ {s : State} {d : Display}, blocks ≠ [] →
    Between .block s d → k.datasize ≤ s.nextctrlblk →
      Stands mem s.nextctrlblk (blockBytes s.nextctrlblk blocks) →
      s.nextctrlblk + (blockBytes s.nextctrlblk blocks).length ≤ k.packetsize →
        ∃ t, Between .command t ((blocks.flatMap Block.commands).foldl Display.perform d) ∧
          ∀ r, Decodes k p mem t.atPixels r → Decodes k p mem s r := by
  induction blocks with
  | nil =>
    intro _ _ h
    exact absurd rfl h
  | cons b blocks ih =>
    intro s d _ h hdatasize hstands hroom
    cases blocks with
    | nil =>
      rw [blockBytes] at hstands hroom
      rw [Block.length_bytes] at hroom
      obtain ⟨t, ht, htnext, hlow, -, hdecodes⟩ :=
        decodes_block (p := p) h hstands hroom hdatasize (by omega)
      refine ⟨t, ?_, fun r hr => hdecodes _ r ?_ hr⟩
      · rw [List.flatMap_cons, List.flatMap_nil, List.append_nil]
        exact ht
      · apply if_neg
        omega
    | cons b' blocks =>
      have hblocks : blockBytes s.nextctrlblk (b :: b' :: blocks) =
        b.bytes (s.nextctrlblk + b.size) ++
          blockBytes (s.nextctrlblk + b.size) (b' :: blocks) := rfl
      rw [hblocks, stands_append, Block.length_bytes] at hstands
      rw [hblocks, List.length_append, Block.length_bytes] at hroom
      obtain ⟨t, ht, htnext, hlow, hhigh, hdecodes⟩ :=
        decodes_block (k := k) (p := p) h hstands.1 (by omega) (by omega) (by omega)
      have hrest := length_blockBytes_pos (s.nextctrlblk + b.size) b' blocks
      have hend : endBlock k t = .go { t with phase := .block } := by
        apply if_pos
        omega
      rw [← htnext] at hstands
      obtain ⟨u, hu, hudecodes⟩ := ih (List.cons_ne_nil _ _) ht.atBlock (by dsimp only; omega)
        hstands.2 (by dsimp only; rw [htnext]; omega)
      refine ⟨u, ?_, fun r hr => hdecodes _ r hend (hudecodes r hr)⟩
      rw [List.flatMap_cons, List.foldl_append]
      exact hu

/-! ## Packets -/

/-- The color of an index. -/
def colorOf (p : VobSubParser) (pal tr : UInt16) (colorid : Fin 4) : Nat :=
  if p.mUseCustomColor = true then p.mCuspal.getD colorid 0
  else p.mOrgpal.getD (pal.toNat / 16 ^ colorid.val % 16) 0 % 2 ^ 24 +
    tr.toNat / 16 ^ colorid.val % 16 * 17 * 2 ^ 24

theorem State.Shows.color {d : Display} (h : s.Shows d) (p : VobSubParser) (colorid : Fin 4) :
    s.color p colorid = colorOf p d.pal d.tr colorid := by
  rw [State.color, colorOf, h.pal, h.tr, Nat.mod_eq_of_lt colorid.isLt]

theorem Area.read_rect (a : Area) : a.rect.Read := by
  have hleft := a.left.isLt
  have htop := a.top.isLt
  have hright := a.right.isLt
  have hbottom := a.bottom.isLt
  rw [Area.rect]
  constructor
  · dsimp only
    omega
  · dsimp only
    omega
  · dsimp only
    omega
  · dsimp only
    omega

theorem between_start (k : Packet) (stack : Stack) : Between .block (start k stack) .init := by
  refine ⟨rfl, rfl, rfl, rfl, ?_, ?_⟩
  · intro a ha
    cases ha
  · intro o ho
    cases ho

namespace Subpicture

variable {d : Subpicture} {width height : Nat} {array : Fin height → Fin width → Fin 4}

theorem length_rows (array : Fin height → Fin width → Fin 4) : (rows array).length = height :=
  List.length_ofFn

theorem getElem?_flatten_rows (array : Fin height → Fin width → Fin 4) (y : Fin height)
    (x : Fin width) : (rows array).flatten[y.val * width + x.val]? = some (array y x) := by
  have hindex : ∀ (i : Fin height) (j : Fin width), i.val * width + j.val < height * width := by
    intro i j
    calc i.val * width + j.val < (i.val + 1) * width := by
          rw [Nat.add_mul, Nat.one_mul]
          exact Nat.add_lt_add_left j.isLt _
      _ ≤ height * width := Nat.mul_le_mul_right _ i.isLt
  have hat : ∀ (i : Fin height) (j : Fin width),
      array i j = array (Fin.divNat ⟨i.val * width + j.val, hindex i j⟩)
        (Fin.modNat ⟨i.val * width + j.val, hindex i j⟩) := by
    intro i j
    have hpos : 0 < width := (Nat.zero_le _).trans_lt j.isLt
    congr 1
    · ext
      show i.val = (i.val * width + j.val) / width
      rw [Nat.mul_comm, Nat.mul_add_div hpos, Nat.div_eq_of_lt j.isLt,
        Nat.add_zero]
    · ext
      show j.val = (i.val * width + j.val) % width
      rw [Nat.mul_comm, Nat.mul_add_mod, Nat.mod_eq_of_lt j.isLt]
  have hflatten : (rows array).flatten =
      List.ofFn fun n : Fin (height * width) => array n.divNat n.modNat := by
    rw [List.ofFn_mul, rows]
    congr 2
    funext i
    congr 1
    funext j
    exact hat i j
  rw [hflatten, List.getElem?_ofFn, dif_pos (hindex y x), ← hat]

theorem Encodes.right_sub_left (hd : d.Encodes k array) :
    d.area.rect.right - d.area.rect.left = width := by
  have hwidth := hd.width
  show (d.area.right.val : Int) + 1 - d.area.left.val = width
  omega

theorem Encodes.bottom_sub_top (hd : d.Encodes k array) :
    d.area.rect.bottom - d.area.rect.top = height := by
  have hheight := hd.height
  show (d.area.bottom.val : Int) + 1 - d.area.top.val = height
  omega

/-- The loop over the codes is entered in front of the first line. -/
theorem Encodes.ready (hd : d.Encodes k array) {s : State} (behind : List UInt8)
    (h : Between .command s ⟨d.pal, d.tr, some d.area, some (d.first, d.second)⟩) :
    Ready (k.memory behind) s.atPixels d.lines := by
  have hrect : s.rect = d.area.rect := h.shows.rect _ rfl
  obtain ⟨hfirst, hsecond⟩ := h.shows.offsets _ rfl
  have hlines : s.atPixels.fieldLines d.lines = fields d.lines :=
    if_neg (by
      show ¬s.nPlane = true
      rw [h.nPlane]
      exact Bool.false_ne_true)
  refine ⟨rfl, rfl, ?_, rfl, le_rfl, ?_, ?_, ?_, ?_⟩
  · show s.rect.Read
    rw [hrect]
    exact d.area.read_rect
  · rw [hlines]
    show Stands _ s.nOffset0 _
    rw [hfirst]
    exact hd.firstField.stands behind
  · rw [hlines]
    show Stands _ s.nOffset1 _
    rw [hsecond]
    exact hd.secondField.stands behind
  · rw [hlines]
    show s.nOffset0 + _ < 65536
    rw [hfirst]
    exact hd.firstField.lt d.first.toNat_lt
  · rw [hlines]
    show s.nOffset1 + _ < 65536
    rw [hsecond]
    exact hd.secondField.lt d.second.toNat_lt

/-- **Up to the first code** a valid packet is decoded as it should be. -/
theorem Encodes.entered (hd : d.Encodes k array) (p : VobSubParser) (stack : Stack)
    (behind : List UInt8) :
    ∃ s, Between .command s ⟨d.pal, d.tr, some d.area, some (d.first, d.second)⟩ ∧
      ∀ r, Decodes k p (k.memory behind) s.atPixels r →
        Decodes k p (k.memory behind) (start k stack) r := by
  have hcontrol : 0 < (blockBytes k.datasize d.blocks).length := by
    obtain ⟨b, blocks, hblocks⟩ := List.exists_cons_of_ne_nil hd.blocks
    rw [hblocks]
    exact length_blockBytes_pos _ _ _
  obtain ⟨s, hs, hdecodes⟩ := decodes_blocks (p := p) d.blocks hd.blocks (between_start k stack)
    le_rfl (hd.control.stands behind) (hd.control.le hcontrol)
  rw [hd.display] at hs
  exact ⟨s, hs, hdecodes⟩

/-- **The bitmap of an array**: it has its width and height, and every pixel has the color of
its index. -/
def Shown (d : Subpicture) (k : Packet) (array : Fin height → Fin width → Fin 4)
    (p : VobSubParser) (stack : Stack) (behind : List UInt8) : Prop :=
  ∃ turns writes, decode k p (k.memory behind) turns (start k stack) =
      some (writes, .ok d.area.left d.area.top width height) ∧
    ∀ y x, pixelAfter writes (y.val * width + x.val) =
      some (colorOf p d.pal d.tr (array y x))

/-- What is left in front of the first code: the lines, as high and as wide as the area. -/
theorem Encodes.size (hd : d.Encodes k array) {s : State} (hrect : s.rect = d.area.rect) :
    s.rect.top + d.lines.length = s.rect.bottom ∧ d.lines ≠ [] ∧
      ∀ row ∈ rows array, s.rect.left + row.length = s.rect.right := by
  have hlines : d.lines.length = height := by
    rw [hd.lines.length_eq, length_rows]
  have hwidth := hd.right_sub_left
  have hheight := hd.bottom_sub_top
  refine ⟨?_, ?_, ?_⟩
  · rw [hrect, hlines]
    omega
  · intro hnil
    have hpos := hd.height_pos
    rw [hnil] at hlines
    exact absurd hlines hpos.ne
  · intro row hrow
    obtain ⟨y, rfl⟩ := (List.mem_ofFn' _ _).mp hrow
    rw [hrect, List.length_ofFn]
    omega

theorem reached_atPixels {lines : List Line}
    (hs : Between .command s ⟨d.pal, d.tr, some d.area, some (d.first, d.second)⟩) :
    s.atPixels.Reached k lines ↔
      Reached k.datasize false d.first.toNat d.second.toNat lines := by
  obtain ⟨hfirst, hsecond⟩ := hs.shows.offsets _ rfl
  show Reached k.datasize s.nPlane s.nOffset0 s.nOffset1 lines ↔ _
  rw [hs.nPlane, hfirst, hsecond]

/-- A code that is not reached is missing in the bitmap. -/
theorem Shown.reached (hd : d.Encodes k array) {stack : Stack} {behind : List UInt8}
    (h : d.Shown k array p stack behind) :
    Reached k.datasize false d.first.toNat d.second.toNat d.lines := by
  obtain ⟨s, hs, hdecodes⟩ := hd.entered p stack behind
  have hrect : s.atPixels.rect = d.area.rect := hs.shows.rect _ rfl
  obtain ⟨hbottom, -, hwide⟩ := hd.size hrect
  obtain ⟨turns, writes, hturns, -⟩ := h
  by_contra hnot
  rw [← reached_atPixels hs] at hnot
  obtain ⟨writes', height', hless, hstops⟩ :=
    (hd.ready behind hs).stops (p := p) hd.lines hnot hbottom hwide
  have heq := (hdecodes _ hstops).unique ⟨turns, hturns⟩
  rw [Prod.mk.injEq, Result.ok.injEq] at heq
  rw [hrect, hd.bottom_sub_top] at hless
  omega

/-- **Codes that are all reached** make the bitmap. -/
theorem Encodes.shown (hd : d.Encodes k array)
    (hreached : Reached k.datasize false d.first.toNat d.second.toNat d.lines)
    (p : VobSubParser) (stack : Stack) (behind : List UInt8) :
    d.Shown k array p stack behind := by
  obtain ⟨s, hs, hdecodes⟩ := hd.entered p stack behind
  have hready := hd.ready behind hs
  have hrect : s.atPixels.rect = d.area.rect := hs.shows.rect _ rfl
  obtain ⟨hbottom, hne, hwide⟩ := hd.size hrect
  have hpicture := hready.decodes (p := p) hd.lines ((reached_atPixels hs).mpr hreached) hne hbottom
    hwide
  have hplace : s.atPixels.pixelAt s.atPixels.rect.left = 0 := by
    rw [pixelAt_eq hready.rect]
    · show (s.rect.right - s.rect.left) * (s.rect.top - s.rect.top) +
        (s.rect.left - s.rect.left) = 0
      rw [sub_self, sub_self, mul_zero, add_zero]
    · refine ⟨le_rfl, ?_⟩
      show s.rect.top ≤ s.rect.bottom
      have hbottom' : s.rect.top + d.lines.length = s.rect.bottom := hbottom
      omega
    · refine ⟨le_rfl, ?_⟩
      have hleft := hready.rect.left
      omega
  obtain ⟨turns, hturns⟩ := hdecodes _ hpicture
  rw [hplace, hrect, hd.right_sub_left, hd.bottom_sub_top] at hturns
  refine ⟨turns, _, hturns, ?_⟩
  intro y x
  have hpixel := pixelAfter_paint ((rows array).flatten.map fun colorid : Fin 4 =>
    s.atPixels.color p colorid) 0 (y.val * width + x.val)
  rw [List.getElem?_map, getElem?_flatten_rows, Option.map_some, zero_add] at hpixel
  push_cast at hpixel
  rw [hpixel]
  exact congrArg some (hs.shows.color p (array y x))

theorem nibblesBeforeLast_lt {l : Line} {row : List (Fin 4)} (h : Draws l.codes row) :
    nibblesBeforeLast l.codes / 2 < l.bytes.length := by
  have hlt : ∀ {codes : List Code} {pixels : List (Fin 4)}, Draws codes pixels →
      nibblesBeforeLast codes < (codes.flatMap Code.nibbles).length := by
    intro codes pixels h
    induction h with
    | last length colorid pos lt =>
      rw [List.flatMap_cons, List.flatMap_nil, List.append_nil]
      exact List.length_pos_iff.mpr (Code.nibbles_ne_nil _)
    | endOfLine colorid rest pos =>
      rw [List.flatMap_cons, List.flatMap_nil, List.append_nil]
      exact List.length_pos_iff.mpr (Code.nibbles_ne_nil _)
    | run length colorid pos lt h ih =>
      rw [h.nibblesBeforeLast_cons, List.flatMap_cons, List.length_append]
      omega
  have hlength : l.bytes.length = (l.nibbles.length + 1) / 2 := length_pack _ _
  have hnibbles : nibblesBeforeLast l.codes < l.nibbles.length := hlt h
  omega

/-- **Fields in their order are reached**: each in front of the place that it is read up to. -/
theorem reached_of_le {datasize : Nat} {lines : List Line} {rows : List (List (Fin 4))}
    (hrows : List.Forall₂ (fun (l : Line) row => Draws l.codes row) lines rows) :
    ∀ {first second : Nat},
      (first + ((fields lines).1.flatMap Line.bytes).length ≤ second →
        second + ((fields lines).2.flatMap Line.bytes).length ≤ datasize →
          Reached datasize false first second lines) ∧
      (first + ((fields lines).2.flatMap Line.bytes).length ≤ second →
        second + ((fields lines).1.flatMap Line.bytes).length ≤ datasize →
          Reached datasize true first second lines) := by
  induction hrows with
  | nil => exact fun {_ _} => ⟨fun _ _ => trivial, fun _ _ => trivial⟩
  | cons hdraws hrows ih =>
    intro first second
    have hlast := nibblesBeforeLast_lt hdraws
    rw [fields]
    dsimp only
    rw [List.flatMap_cons, List.length_append]
    refine ⟨fun hfirst hsecond => ⟨by omega, ?_⟩, fun hfirst hsecond => ⟨by omega, ?_⟩⟩
    · exact ih.2 (by omega) hsecond
    · exact ih.1 (by omega) (by omega)

/-- A packet with its first field in front of the second one and that in front of the control
blocks is decoded to its array. -/
theorem decodes_encoded (hd : d.Encodes k array)
    (hfirst : d.first.toNat + d.firstField.length ≤ d.second.toNat)
    (hsecond : d.second.toNat + d.secondField.length ≤ k.datasize) (p : VobSubParser)
    (stack : Stack) (behind : List UInt8) : d.Shown k array p stack behind :=
  hd.shown ((reached_of_le hd.lines).1 hfirst hsecond) p stack behind

/-- **A valid packet is decoded to its array** exactly when all its codes are reached. -/
theorem decodes_encoded_iff (hd : d.Encodes k array) (p : VobSubParser) (stack : Stack)
    (behind : List UInt8) : d.Shown k array p stack behind ↔
      Reached k.datasize false d.first.toNat d.second.toNat d.lines :=
  ⟨fun h => h.reached hd, fun hreached => hd.shown hreached p stack behind⟩

/-! ## Two lines of three pixels -/

/-- A run over the whole line, and a pixel in front of the end of a line. -/
def twoLines : Subpicture where
  area := ⟨0, 2, 0, 1⟩
  pal := 0x3210
  tr := 0xfff0
  first := 4
  second := 5
  lines := [⟨[.run 3 1 (by decide) (by decide)], 0⟩,
    ⟨[.run 1 2 (by decide) (by decide), .endOfLine 3], 0⟩]
  blocks := [⟨0, [.palette 0x3210, .transparency 0xfff0, .area ⟨0, 2, 0, 1⟩, .offsets 4 5, .start],
    []⟩]

def twoLinesPacket : Packet where
  bytes := [0x00, 0x20, 0x00, 0x08, 0xd0, 0x60, 0x00, 0x30, 0x00, 0x00, 0x00, 0x08, 0x03, 0x32,
    0x10, 0x04, 0xff, 0xf0, 0x05, 0x00, 0x00, 0x02, 0x00, 0x00, 0x01, 0x06, 0x00, 0x04, 0x00,
    0x05, 0x01, 0xff]
  datasize := 8
  size_lt := by decide
  datasize_lt := by decide

def twoLinesArray (y : Fin 2) (x : Fin 3) : Fin 4 := if y = 0 then 1 else if x = 0 then 2 else 3

theorem encodes_twoLines : twoLines.Encodes twoLinesPacket twoLinesArray where
  width_pos := by decide
  height_pos := by decide
  width := by decide
  height := by decide
  lines := by
    have hrows : rows twoLinesArray = [[1, 1, 1], [2, 3, 3]] := by decide
    rw [hrows]
    exact .cons (.last 3 1 _ _) (.cons (.run 1 2 _ _ (.endOfLine 3 2 (by decide))) .nil)
  firstField := ⟨_, rfl⟩
  secondField := ⟨_, rfl⟩
  blocks := List.cons_ne_nil _ _
  control := ⟨[], rfl⟩
  display := rfl

theorem decodes_twoLines : twoLines.Shown twoLinesPacket twoLinesArray emptyParser
    ⟨0, 0, 0, 0, 0, 0⟩ [] :=
  (decodes_encoded_iff encodes_twoLines emptyParser ⟨0, 0, 0, 0, 0, 0⟩ []).mpr
    ⟨by decide, by decide, trivial⟩

/-! ## The same with the second field in front -/

def swapped : Subpicture :=
  { twoLines with
    first := 7
    second := 4
    blocks := [⟨0, [.palette 0x3210, .transparency 0xfff0, .area ⟨0, 2, 0, 1⟩, .offsets 7 4,
      .start], []⟩] }

def swappedPacket : Packet where
  bytes := [0x00, 0x20, 0x00, 0x08, 0x60, 0x00, 0x30, 0xd0, 0x00, 0x00, 0x00, 0x08, 0x03, 0x32,
    0x10, 0x04, 0xff, 0xf0, 0x05, 0x00, 0x00, 0x02, 0x00, 0x00, 0x01, 0x06, 0x00, 0x07, 0x00,
    0x04, 0x01, 0xff]
  datasize := 8
  size_lt := by decide
  datasize_lt := by decide

theorem encodes_swapped : swapped.Encodes swappedPacket twoLinesArray where
  width_pos := by decide
  height_pos := by decide
  width := by decide
  height := by decide
  lines := encodes_twoLines.lines
  firstField := ⟨_, rfl⟩
  secondField := ⟨_, rfl⟩
  blocks := List.cons_ne_nil _ _
  control := ⟨[], rfl⟩
  display := rfl

/-- **A packet whose second field comes first** is not decoded to its array. -/
theorem swapped_not_decoded : ¬ ∀ (d : Subpicture) (k : Packet) (width height : Nat)
    (array : Fin height → Fin width → Fin 4), d.Encodes k array →
      ∀ p stack behind, d.Shown k array p stack behind := by
  intro h
  have hshown := h swapped swappedPacket 3 2 twoLinesArray encodes_swapped emptyParser
    ⟨0, 0, 0, 0, 0, 0⟩ []
  exact absurd (hshown.reached encodes_swapped).1 (by decide)

end Subpicture

end DWindow.VobSub.Decode
