import DWindow.VobSub.DecodeSafe

/-!
# A packet whose parts are inside

Which packets are decoded safely can be read off their bytes.  The blocks stand one behind
another (`blocks`), and so do the commands of a block (`commands`); the last rectangle and the
last offsets among them count (`Inside`, `decodeSafe_iff`).  Of the codes only the first line matters (`lineCodes`): the second
field ends in front of the blocks, so behind a line of it the first field ends near them, and
where it does not no second line is drawn.
-/

namespace DWindow.VobSub.Decode

open CInt Looking Orbit

variable {k : Packet} {p : VobSubParser} {mem : Nat → UInt8} {s t : State} {stack : Stack}

/-! ## What a packet says -/

namespace Packet

/-- A command that `decode` knows, with its last byte in the packet. -/
def Takes (k : Packet) (i : Nat) : Prop :=
  i + commandLength (k.memory [] i) < k.packetsize ∧ k.memory [] i ≤ 0x06

instance (k : Packet) (i : Nat) : Decidable (k.Takes i) := inferInstanceAs (Decidable (_ ∧ _))

/-- The places of the commands from `i` on, the last of them being the end of the block. -/
def commands (k : Packet) (i : Nat) : List Nat :=
  if k.Takes i then i :: k.commands (i + commandLength (k.memory [] i) + 1) else [i]
termination_by k.packetsize - i
decreasing_by
  rename_i h
  have := h.1
  omega

theorem commands_of_takes {k : Packet} {i : Nat} (h : k.Takes i) :
    k.commands i = i :: k.commands (i + commandLength (k.memory [] i) + 1) := by
  rw [commands, if_pos h]

theorem commands_of_not_takes {k : Packet} {i : Nat} (h : ¬k.Takes i) : k.commands i = [i] := by
  rw [commands, if_neg h]

/-- The place behind the commands from `i` on. -/
def behind (k : Packet) (i : Nat) : Nat :=
  if k.Takes i then k.behind (i + commandLength (k.memory [] i) + 1)
  -- an unknown command is passed, one that is cut off is not
  else if k.packetsize ≤ i + commandLength (k.memory [] i) then i else i + 1
termination_by k.packetsize - i
decreasing_by
  rename_i h
  have := h.1
  omega

theorem le_behind (k : Packet) (i : Nat) : i ≤ k.behind i := by
  induction i using behind.induct k with
  | case1 i htakes ih =>
    rw [behind, if_pos htakes]
    omega
  | case2 i htakes hlast =>
    rw [behind, if_neg htakes, if_pos hlast]
  | case3 i htakes hlast =>
    rw [behind, if_neg htakes, if_neg hlast]
    exact Nat.le_succ i

/-- Where the block behind that at `c` is said to be. -/
def nextBlock (k : Packet) (c : Nat) : Nat := (word (c + 2)).value (k.memory [])

/-- `decode` does not fail at the block. -/
def Leads (k : Packet) (c : Nat) : Prop :=
  k.datasize ≤ k.nextBlock c ∧ k.nextBlock c ≤ k.packetsize

instance (k : Packet) (c : Nat) : Decidable (k.Leads c) := inferInstanceAs (Decidable (_ ∧ _))

/-- It goes on to the next one. -/
def GoesOn (k : Packet) (c : Nat) : Prop :=
  k.Leads c ∧ k.behind (c + 4) ≤ k.nextBlock c ∧ k.behind (c + 4) < k.packetsize

instance (k : Packet) (c : Nat) : Decidable (k.GoesOn c) := inferInstanceAs (Decidable (_ ∧ _))

/-- The places of the blocks from `c` on. -/
def blocks (k : Packet) (c : Nat) : List Nat :=
  if k.GoesOn c then c :: k.blocks (k.nextBlock c) else [c]
termination_by k.packetsize - c
decreasing_by
  rename_i h
  obtain ⟨-, hnext, hroom⟩ := h
  have := k.le_behind (c + 4)
  omega

theorem blocks_of_goesOn {k : Packet} {c : Nat} (h : k.GoesOn c) :
    k.blocks c = c :: k.blocks (k.nextBlock c) := by
  rw [blocks, if_pos h]

theorem blocks_of_not_goesOn {k : Packet} {c : Nat} (h : ¬k.GoesOn c) : k.blocks c = [c] := by
  rw [blocks, if_neg h]

/-- The places of the commands of the blocks from `c` on; a block at which `decode` fails has
none. -/
def allCommands (k : Packet) (c : Nat) : List Nat :=
  (k.blocks c).flatMap fun c => if k.Leads c then k.commands (c + 4) else []

/-- The last of some commands that begins with `b`. -/
def last (k : Packet) (b : UInt8) (places : List Nat) : Option Nat :=
  (places.filter fun i => decide (k.Takes i ∧ k.memory [] i = b)).getLast?

def lastRect (k : Packet) (places : List Nat) : Option Rect :=
  (k.last 0x05 places).map fun i => (readRect (i + 1)).value (k.memory [])

def lastOffsets (k : Packet) (places : List Nat) : Option (Nat × Nat) :=
  (k.last 0x06 places).map fun i =>
    ((word (i + 1)).value (k.memory []), (word (i + 3)).value (k.memory []))

theorem last_append (k : Packet) (b : UInt8) (l l' : List Nat) :
    k.last b (l ++ l') = (k.last b l').or (k.last b l) := by
  rw [last, List.filter_append, List.getLast?_append]
  rfl

theorem last_singleton (k : Packet) (b : UInt8) (i : Nat) :
    k.last b [i] = if k.Takes i ∧ k.memory [] i = b then some i else none := by
  unfold last
  by_cases h : k.Takes i ∧ k.memory [] i = b
  · rw [List.filter_cons_of_pos (by simpa using h), if_pos h]
    rfl
  · rw [List.filter_cons_of_neg (by simpa using h), if_neg h]
    rfl

theorem lastRect_append (k : Packet) (l l' : List Nat) :
    k.lastRect (l ++ l') = (k.lastRect l').or (k.lastRect l) := by
  rw [lastRect, last_append, Option.map_or]
  rfl

theorem lastOffsets_append (k : Packet) (l l' : List Nat) :
    k.lastOffsets (l ++ l') = (k.lastOffsets l').or (k.lastOffsets l) := by
  rw [lastOffsets, last_append, Option.map_or]
  rfl

theorem allCommands_eq (k : Packet) (c : Nat) :
    k.allCommands c = (if k.Leads c then k.commands (c + 4) else []) ++
      if k.GoesOn c then k.allCommands (k.nextBlock c) else [] := by
  unfold allCommands
  by_cases hgoes : k.GoesOn c
  · rw [blocks_of_goesOn hgoes, if_pos hgoes, List.flatMap_cons]
  · rw [blocks_of_not_goesOn hgoes, if_neg hgoes, List.flatMap_singleton, List.append_nil]

end Packet

/-! ## The blocks of a packet -/

/-- What the commands at some places set, from `s` to `t`. -/
structure Told (k : Packet) (places : List Nat) (s t : State) : Prop where
  rect : t.rect = (k.lastRect places).getD s.rect
  rectSet : t.rectSet = (s.rectSet || (k.lastRect places).isSome)
  offsets : (t.nOffset0, t.nOffset1) = (k.lastOffsets places).getD (s.nOffset0, s.nOffset1)
  nPlane : t.nPlane = s.nPlane

theorem Told.trans {l l' : List Nat} {u : State} (h : Told k l s t) (h' : Told k l' t u) :
    Told k (l ++ l') s u := by
  refine ⟨?_, ?_, ?_, h'.nPlane.trans h.nPlane⟩
  · rw [h'.rect, h.rect, k.lastRect_append]
    cases k.lastRect l' <;> rfl
  · rw [h'.rectSet, h.rectSet, k.lastRect_append, Bool.or_assoc]
    cases k.lastRect l' <;> cases k.lastRect l <;> rfl
  · rw [h'.offsets, h.offsets, k.lastOffsets_append]
    cases k.lastOffsets l' <;> rfl

theorem Told.rect_eq {l : List Nat} {r : Rect} (h : Told k l s t) (hr : k.lastRect l = some r) :
    t.rect = r := by
  rw [h.rect, hr]
  rfl

theorem told_of_takes {i : Nat} {b : UInt8} (h : k.Takes i) (hb : k.memory [] i = b)
    (hrect : (t.rect, t.rectSet) =
      if b = 0x05 then ((readRect (i + 1)).value (k.memory []), true) else (s.rect, s.rectSet))
    (hoffsets : (t.nOffset0, t.nOffset1) =
      if b = 0x06 then ((word (i + 1)).value (k.memory []), (word (i + 3)).value (k.memory []))
      else (s.nOffset0, s.nOffset1)) (hplane : t.nPlane = s.nPlane) : Told k [i] s t := by
  have hset : ∀ c : UInt8, k.last c [i] = if b = c then some i else none := by
    intro c
    rw [k.last_singleton, hb]
    exact if_congr (and_iff_right h) rfl rfl
  refine ⟨?_, ?_, ?_, hplane⟩
  · rw [Packet.lastRect, hset]
    split at hrect
    · next hrectangle =>
      rw [if_pos hrectangle]
      exact congrArg Prod.fst hrect
    · next hother =>
      rw [if_neg hother]
      exact congrArg Prod.fst hrect
  · rw [Packet.lastRect, hset]
    split at hrect
    · next hrectangle =>
      rw [if_pos hrectangle]
      exact (congrArg Prod.snd hrect).trans (Bool.or_true _).symm
    · next hother =>
      rw [if_neg hother]
      exact (congrArg Prod.snd hrect).trans (Bool.or_false _).symm
  · rw [Packet.lastOffsets, hset, hoffsets]
    split
    · rfl
    · rfl

/-- A command that is taken sets what it says, and the next one stands behind it. -/
theorem command_takes (h : k.Takes s.i) :
    ∃ t, (command k s (k.memory [] s.i)).value (k.memory []) = .go t ∧ t.phase = s.phase ∧
      t.i = s.i + commandLength (k.memory [] s.i) + 1 ∧ t.nextctrlblk = s.nextctrlblk ∧
      Told k [s.i] s t := by
  have hknown := h.2
  unfold command
  rw [if_neg (Nat.not_le.mpr h.1)]
  generalize hb : k.memory [] s.i = b at hknown ⊢
  have hcases : (b = 0x00 ∨ b = 0x01 ∨ b = 0x02) ∨ b = 0x03 ∨ b = 0x04 ∨ b = 0x05 ∨ b = 0x06 := by
    grind
  rcases hcases with (rfl | rfl | rfl) | rfl | rfl | rfl | rfl <;>
    exact ⟨_, rfl, rfl, rfl, rfl, told_of_takes h hb rfl rfl rfl⟩

theorem told_of_not_takes {i : Nat} (h : ¬k.Takes i) (hrect : t.rect = s.rect)
    (hset : t.rectSet = s.rectSet) (h₀ : t.nOffset0 = s.nOffset0) (h₁ : t.nOffset1 = s.nOffset1)
    (hplane : t.nPlane = s.nPlane) : Told k [i] s t := by
  have hnone : ∀ c : UInt8, k.last c [i] = none := by
    intro c
    rw [k.last_singleton, if_neg fun hc => h hc.1]
  refine ⟨?_, ?_, ?_, hplane⟩
  · rw [Packet.lastRect, hnone, hrect]
    rfl
  · rw [Packet.lastRect, hnone, hset]
    exact (Bool.or_false _).symm
  · rw [Packet.lastOffsets, hnone, h₀, h₁]
    rfl

/-- One that is not ends its block. -/
theorem command_ends (h : ¬k.Takes s.i) :
    ∃ t, (command k s (k.memory [] s.i)).value (k.memory []) = endBlock k t ∧
      t.i = k.behind s.i ∧ t.nextctrlblk = s.nextctrlblk ∧ Told k [s.i] s t := by
  unfold command
  rw [Packet.behind, if_neg h]
  by_cases hroom : k.packetsize ≤ s.i + commandLength (k.memory [] s.i)
  · rw [if_pos hroom, if_pos hroom]
    exact ⟨s, rfl, rfl, rfl, told_of_not_takes h rfl rfl rfl rfl rfl⟩
  · have hunknown : ¬k.memory [] s.i ≤ 0x06 := fun hknown => h ⟨Nat.not_le.mp hroom, hknown⟩
    rw [if_neg hroom, if_neg hroom, if_neg (by grind), if_neg (by grind), if_neg (by grind),
      if_neg (by grind), if_neg (by grind)]
    exact ⟨{ s with i := s.i + 1 }, rfl, rfl, rfl, told_of_not_takes h rfl rfl rfl rfl rfl⟩

/-- Every turn from a state on fits. -/
def FitsOn (k : Packet) (p : VobSubParser) (s : State) : Prop :=
  Always (next k p (k.memory [])) (Fits k) s

theorem next_of_command (hphase : s.phase = .command) : next k p mem s =
    ((command k s (mem s.i)).value mem).state := by
  simp only [next, step, hphase, commandStep, value_bind, value_peek, value_pure]

theorem fits_command (hphase : s.phase = .command) : Fits k s ↔ s.i < k.packetsize := by
  rw [Fits, hphase]

theorem fits_block (hphase : s.phase = .block) :
    Fits k s ↔ s.nextctrlblk + 3 < k.packetsize := by
  rw [Fits, hphase]

/-- **The commands of a block fit** exactly when each of them begins in the packet and what
follows fits. -/
theorem fitsOn_commands (k : Packet) (p : VobSubParser) (i : Nat) : ∀ s : State,
    s.phase = .command → s.i = i → ∃ t, t.i = k.behind i ∧ t.nextctrlblk = s.nextctrlblk ∧
      Told k (k.commands i) s t ∧ (FitsOn k p s ↔ (∀ j ∈ k.commands i, j < k.packetsize) ∧
        ∀ u, (endBlock k t).state = some u → FitsOn k p u) := by
  induction i using Packet.commands.induct k with
  | case1 i htakes ih =>
    rintro s hphase rfl
    obtain ⟨s', hvalue, hphase', hi, hnext, htold⟩ := command_takes htakes
    obtain ⟨t, ht, hlast, htold', hiff⟩ := ih s' (hphase'.trans hphase) hi
    have hstep : next k p (k.memory []) s = some s' := by
      rw [next_of_command hphase, hvalue]
      rfl
    refine ⟨t, ?_, hlast.trans hnext, ?_, ?_⟩
    · rw [Packet.behind, if_pos htakes, ht]
    · rw [Packet.commands_of_takes htakes]
      exact htold.trans htold'
    · rw [FitsOn, always_step hstep, ← FitsOn, hiff, fits_command hphase,
        Packet.commands_of_takes htakes, List.forall_mem_cons, and_assoc]
  | case2 i htakes =>
    rintro s hphase rfl
    obtain ⟨t, hvalue, ht, hnext, htold⟩ := command_ends htakes
    refine ⟨t, ht, hnext, ?_, ?_⟩
    · rw [Packet.commands_of_not_takes htakes]
      exact htold
    · rw [FitsOn, always_iff, next_of_command hphase, hvalue, fits_command hphase,
        Packet.commands_of_not_takes htakes, List.forall_mem_singleton]
      rfl

/-- What holds in front of the first code. -/
structure AtCodes (s : State) : Prop where
  phase : s.phase = .pixels
  aligned : s.fAligned = true
  x : s.x = s.rect.left
  y : s.y = s.rect.top

theorem endBlock_state (k : Packet) (s : State) : (endBlock k s).state =
    some (if s.i ≤ s.nextctrlblk ∧ s.i < k.packetsize then { s with phase := .block }
      else { s with phase := .pixels, fAligned := true, x := s.rect.left, y := s.rect.top }) := by
  unfold endBlock
  split <;> rfl

theorem next_of_leads (hphase : s.phase = .block) (h : k.Leads s.nextctrlblk) :
    next k p (k.memory []) s = some { s with
      phase := .command
      i := s.nextctrlblk + 4
      nextctrlblk := k.nextBlock s.nextctrlblk } := by
  have hgoes : ¬(k.packetsize < k.nextBlock s.nextctrlblk ∨
      k.nextBlock s.nextctrlblk < k.datasize) :=
    not_or.mpr ⟨Nat.not_lt.mpr h.2, Nat.not_lt.mpr h.1⟩
  simp only [next, step, hphase, blockStep, value_bind, value_ite, value_pure]
  rw [← Packet.nextBlock, if_neg hgoes]
  rfl

theorem next_of_not_leads (hphase : s.phase = .block) (h : ¬k.Leads s.nextctrlblk) :
    next k p (k.memory []) s = none := by
  have hfails : k.packetsize < k.nextBlock s.nextctrlblk ∨
      k.nextBlock s.nextctrlblk < k.datasize := by
    unfold Packet.Leads at h
    omega
  simp only [next, step, hphase, blockStep, value_bind, value_ite, value_pure]
  rw [← Packet.nextBlock, if_pos hfails]
  rfl

/-- A block at which `decode` does not fail fits exactly when it and its commands begin in the
packet and what follows fits. -/
theorem fitsOn_block (p : VobSubParser) (hphase : s.phase = .block) (h : k.Leads s.nextctrlblk) :
    ∃ t, t.i = k.behind (s.nextctrlblk + 4) ∧ t.nextctrlblk = k.nextBlock s.nextctrlblk ∧
      Told k (k.commands (s.nextctrlblk + 4)) s t ∧ (FitsOn k p s ↔
        s.nextctrlblk + 3 < k.packetsize ∧
        (∀ i ∈ k.commands (s.nextctrlblk + 4), i < k.packetsize) ∧
        ∀ u, (endBlock k t).state = some u → FitsOn k p u) := by
  obtain ⟨t, ht, hnext, htold, hiff⟩ := fitsOn_commands k p (s.nextctrlblk + 4)
    { s with
      phase := .command
      i := s.nextctrlblk + 4
      nextctrlblk := k.nextBlock s.nextctrlblk } rfl rfl
  refine ⟨t, ht, hnext, ⟨htold.rect, htold.rectSet, htold.offsets, htold.nPlane⟩, ?_⟩
  rw [FitsOn, always_step (next_of_leads hphase h), fits_block hphase, ← FitsOn, hiff]

/-- **The blocks fit** exactly when each of them and each of their commands begins in the packet,
and the codes fit that they lead to. -/
theorem fitsOn_blocks (k : Packet) (p : VobSubParser) (c : Nat) : ∀ s : State,
    s.phase = .block → s.nextctrlblk = c → ∃ u, AtCodes u ∧ Told k (k.allCommands c) s u ∧
      (FitsOn k p s ↔ (∀ d ∈ k.blocks c, d + 3 < k.packetsize) ∧
        (∀ i ∈ k.allCommands c, i < k.packetsize) ∧
        ((∀ d ∈ k.blocks c, k.Leads d) → FitsOn k p u)) := by
  induction c using Packet.blocks.induct k with
  | case1 c hgoes ih =>
    rintro s hphase rfl
    obtain ⟨t, ht, hnext, htold, hiff⟩ := fitsOn_block p hphase hgoes.1
    obtain ⟨u, hu, htold', hiff'⟩ := ih { t with phase := .block } rfl hnext
    have htold₂ : Told k (k.commands (s.nextctrlblk + 4)) s { t with phase := .block } :=
      ⟨htold.rect, htold.rectSet, htold.offsets, htold.nPlane⟩
    rw [k.allCommands_eq, if_pos hgoes.1, if_pos hgoes, Packet.blocks_of_goesOn hgoes]
    refine ⟨u, hu, htold₂.trans htold', ?_⟩
    have hback : t.i ≤ t.nextctrlblk ∧ t.i < k.packetsize := by
      rw [ht, hnext]
      exact hgoes.2
    rw [hiff, endBlock_state, if_pos hback]
    simp only [Option.some.injEq, forall_eq', hiff', List.forall_mem_cons, List.forall_mem_append]
    constructor
    · rintro ⟨hin, hcommands, hblocks, hall, hcodes⟩
      exact ⟨⟨hin, hblocks⟩, ⟨hcommands, hall⟩, fun h => hcodes h.2⟩
    · rintro ⟨⟨hin, hblocks⟩, ⟨hcommands, hall⟩, hcodes⟩
      exact ⟨hin, hcommands, hblocks, hall, fun h => hcodes ⟨hgoes.1, h⟩⟩
  | case2 c hstops =>
    rintro s hphase rfl
    rw [k.allCommands_eq, if_neg hstops, List.append_nil, Packet.blocks_of_not_goesOn hstops]
    by_cases hleads : k.Leads s.nextctrlblk
    · obtain ⟨t, ht, hnext, htold, hiff⟩ := fitsOn_block p hphase hleads
      have hout : ¬(t.i ≤ t.nextctrlblk ∧ t.i < k.packetsize) := by
        rw [ht, hnext]
        exact fun hback => hstops ⟨hleads, hback⟩
      rw [endBlock_state, if_neg hout] at hiff
      refine ⟨{ t with phase := .pixels, fAligned := true, x := t.rect.left, y := t.rect.top },
        ⟨rfl, rfl, rfl, rfl⟩, ?_, ?_⟩
      · rw [if_pos hleads]
        exact ⟨htold.rect, htold.rectSet, htold.offsets, htold.nPlane⟩
      · simp only [Option.some.injEq, forall_eq'] at hiff
        rw [hiff, if_pos hleads, List.forall_mem_singleton, List.forall_mem_singleton,
          forall_prop_of_true hleads]
    · refine ⟨{ s with phase := .pixels, fAligned := true, x := s.rect.left, y := s.rect.top },
        ⟨rfl, rfl, rfl, rfl⟩, ?_, ?_⟩
      · rw [if_neg hleads]
        exact ⟨rfl, (Bool.or_false _).symm, rfl, rfl⟩
      · rw [FitsOn, always_of_stops (next_of_not_leads hphase hleads), fits_block hphase,
          if_neg hleads, List.forall_mem_singleton, List.forall_mem_singleton]
        exact (and_iff_left ⟨fun i hi => absurd hi List.not_mem_nil,
          fun h => absurd h hleads⟩).symm

/-! ## The codes of a packet -/

/-- The places of the codes of a line that stand in front of `fieldEnd`. -/
def lineCodes (mem : Nat → UInt8) (right : Int) (fieldEnd : Nat) (q : Pos) (x : Int) :
    List Pos :=
  if q.off < fieldEnd then
    if isRun mem q = true ∧ x + (codeAt mem q / 4 : Nat) < right then
      q :: lineCodes mem right fieldEnd (q.behind mem) (x + (codeAt mem q / 4 : Nat))
    else [q]
  else []
termination_by (right - x).toNat
decreasing_by
  rename_i h
  have hone := (run_bounds h.1).1
  omega

theorem off_aligned_le {q : Pos} {n : Nat} (h : q.off < n) : q.aligned.off ≤ n := by
  unfold Pos.aligned Pos.next
  split
  · exact h.le
  · exact (Nat.mod_le _ _).trans h

/-- What holds behind the first line: the first field ends near the blocks. -/
structure Later (k : Packet) (s : State) : Prop where
  drawing : Drawing k s
  near : s.nPlane = true ∨ s.nOffset1 ≤ k.datasize + 2

theorem Later.fits (hs : Later k s) : Fits k s := by
  obtain ⟨hdrawing, hnear⟩ := hs
  rw [Fits, hdrawing.phase]
  refine ⟨hdrawing.rectSet, hdrawing.x.1.trans hdrawing.x.2, hdrawing.y.1.trans hdrawing.y.2, ?_⟩
  intro hplane hgoes
  have hoffset : s.nOffset1 ≤ k.datasize + 2 := hnear.resolve_left (by rw [hplane]; decide)
  obtain ⟨-, hfour⟩ := codeNibbles_pos (k.memory []) s.pos
  have hoff := off_lt_iff.mp ((first_goes_iff (k := k) hplane).mpr hgoes)
  rw [State.fieldEnd, if_neg (by rw [hplane]; decide)] at hoff
  have hroom := hdrawing.datasize
  omega

theorem Later.next (hs : Later k s) (h : next k p mem s = some t) : Later k t := by
  refine ⟨drawing_next hs.drawing h, ?_⟩
  have hsize : k.packetsize < 65536 := k.size_lt
  have hroom := hs.drawing.datasize
  rw [next_pixels hs.drawing.phase] at h
  split at h
  · next hgoes =>
    cases hplane : s.nPlane with
    | true =>
      -- a code of the second field leads at most two bytes behind its end
      rw [State.fieldEnd, if_pos hplane] at hgoes
      have hbehind := (nibble_behind mem hgoes (by omega)).2.2
      split at h
      · cases h
        exact .inl (by simpa using hplane)
      · split at h
        · cases h
        · cases h
          refine .inr ?_
          show (s.setPos _).nOffset1 ≤ _
          rw [setPos_nOffset1, if_pos hplane]
          exact off_aligned_le (by omega)
    | false =>
      have hoffset : s.nOffset1 ≤ k.datasize + 2 := hs.near.resolve_left (by rw [hplane]; decide)
      split at h
      · cases h
        refine .inr ?_
        show (s.setPos _).nOffset1 ≤ _
        rwa [setPos_nOffset1, if_neg (by rw [hplane]; decide)]
      · split at h
        · cases h
        · cases h
          refine .inl ?_
          show (!s.nPlane) = true
          rw [hplane]
          rfl
  · cases h

theorem Later.fitsOn (hs : Later k s) : FitsOn k p s :=
  Always.of_invariant (Later k) hs (fun _ h => h.fits) fun _ _ h => h.next

theorem fits_drawing (hs : Drawing k s) (hplane : s.nPlane = false) :
    Fits k s ↔ (s.pos.off < s.nOffset1 →
      s.pos.nibble + codeNibbles (k.memory []) s.pos ≤ 2 * k.packetsize) := by
  have hoff : s.pos.off = s.nOffset0 := by
    rw [State.pos, if_neg (by rw [hplane]; decide)]
  rw [Fits, hs.phase, hoff]
  exact ⟨fun h => h.2.2.2 hplane,
    fun h => ⟨hs.rectSet, hs.x.1.trans hs.x.2, hs.y.1.trans hs.y.2, fun _ => h⟩⟩

theorem xBehind_eq (hs : Drawing k s) (hrun : isRun mem s.pos = true) :
    s.xBehind mem = s.x + (codeAt mem s.pos / 4 : Nat) := by
  have hleft := hs.rect.left
  have hright := hs.rect.right
  have hx := hs.x
  have hless := (run_bounds hrun).2
  rw [State.xBehind, if_pos hrun]
  exact toInt32_of_lt (by omega) (by omega)

theorem plane_behind_line (hphase : s.phase = .pixels) (hleaves : ¬s.Stays mem)
    (h : next k p mem s = some t) : t.nPlane = !s.nPlane := by
  rw [next_pixels hphase] at h
  split at h
  · split at h
    · cases h
    · cases h
      rfl
  · cases h

/-- **A line of the first field fits** exactly when its codes end in the packet. -/
theorem fitsOn_line {right : Int} {fieldEnd : Nat} (hs : Drawing k s) (hplane : s.nPlane = false)
    (hright : s.rect.right = right) (hend : s.nOffset1 = fieldEnd) :
    FitsOn k p s ↔ ∀ c ∈ lineCodes (k.memory []) right fieldEnd s.pos s.x,
      c.nibble + codeNibbles (k.memory []) c ≤ 2 * k.packetsize := by
  have hline : ∀ (q : Pos) (x : Int) (s : State), Drawing k s → s.nPlane = false → s.pos = q →
      s.x = x → s.rect.right = right → s.nOffset1 = fieldEnd → (FitsOn k p s ↔
        ∀ c ∈ lineCodes (k.memory []) right fieldEnd q x,
          c.nibble + codeNibbles (k.memory []) c ≤ 2 * k.packetsize) := by
    intro q x
    induction q, x using lineCodes.induct (k.memory []) right fieldEnd with
    | case1 q x hoff hruns ih =>
      rintro s hs hplane rfl rfl rfl rfl
      have hgoes : s.pos.off < s.fieldEnd k := by
        rwa [State.fieldEnd, if_neg (by rw [hplane]; decide)]
      have hx := xBehind_eq hs hruns.1
      have hstays : s.Stays (k.memory []) := ⟨hruns.1, by rw [hx]; exact hruns.2⟩
      have hnext : next k p (k.memory []) s =
          some { s.setPos (s.pos.behind (k.memory [])) with x := s.xBehind (k.memory []) } := by
        rw [next_pixels hs.phase, if_pos hgoes, if_pos hstays]
      rw [FitsOn, always_step hnext, ← FitsOn, fits_drawing hs hplane, lineCodes, if_pos hoff,
        if_pos hruns, List.forall_mem_cons, ← ih _ (drawing_next hs hnext) _ (pos_setPos s _ _)
          hx _ _]
      · exact and_congr_left fun _ => forall_prop_of_true hoff
      · simpa using hplane
      · simp
      · show (s.setPos _).nOffset1 = _
        rw [setPos_nOffset1, if_neg (by rw [hplane]; decide)]
    | case2 q x hoff hends =>
      rintro s hs hplane rfl rfl rfl rfl
      have hleaves : ¬s.Stays (k.memory []) := by
        rintro ⟨hrun, hless⟩
        rw [xBehind_eq hs hrun] at hless
        exact hends ⟨hrun, hless⟩
      have hlater : ∀ t, next k p (k.memory []) s = some t → FitsOn k p t := by
        intro t ht
        have hsecond := plane_behind_line hs.phase hleaves ht
        rw [hplane] at hsecond
        exact Later.fitsOn ⟨drawing_next hs ht, .inl hsecond⟩
      rw [FitsOn, always_iff, fits_drawing hs hplane, lineCodes, if_pos hoff, if_neg hends,
        List.forall_mem_singleton]
      exact ⟨fun h => h.1 hoff, fun h => ⟨fun _ => h, hlater⟩⟩
    | case3 q x hoff =>
      rintro s hs hplane rfl rfl rfl rfl
      have hstops : next k p (k.memory []) s = none := by
        rw [next_pixels hs.phase, if_neg]
        rwa [State.fieldEnd, if_neg (by rw [hplane]; decide)]
      rw [FitsOn, always_of_stops hstops, fits_drawing hs hplane, lineCodes, if_neg hoff]
      exact iff_of_true (fun h => absurd h hoff) fun c hc => absurd hc List.not_mem_nil
  exact hline s.pos s.x s hs hplane rfl rfl hright hend

/-! ## The condition -/

/-- **A packet whose parts are inside.**  Each control block and each command begins in it.
Unless `decode` fails at a block, the last rectangle is not negative in size, and the codes of the
first line that stand in front of the second field end in the packet, wherever the fields are if
no command says so. -/
structure Inside (k : Packet) : Prop where
  blocks : ∀ c ∈ k.blocks k.datasize, c + 3 < k.packetsize
  commands : ∀ i ∈ k.allCommands k.datasize, i < k.packetsize
  picture : (∀ c ∈ k.blocks k.datasize, k.Leads c) →
    ∃ r, k.lastRect (k.allCommands k.datasize) = some r ∧ r.left ≤ r.right ∧ r.top ≤ r.bottom ∧
      ∀ (first second : UInt16) (o : Nat × Nat),
        o = (k.lastOffsets (k.allCommands k.datasize)).getD (first.toNat, second.toNat) →
        ∀ q ∈ lineCodes (k.memory []) r.right o.2 ⟨o.1, true⟩ r.left,
          q.nibble + codeNibbles (k.memory []) q ≤ 2 * k.packetsize

theorem lastRect_read {l : List Nat} {r : Rect} (h : k.lastRect l = some r) : r.Read := by
  obtain ⟨i, -, rfl⟩ := Option.map_eq_some_iff.mp h
  exact read_readRect _ _

theorem mem_blocks (k : Packet) (c : Nat) : c ∈ k.blocks c := by
  rw [Packet.blocks]
  split
  · exact List.mem_cons_self
  · exact List.mem_cons_self

/-- **The codes fit** exactly when those of the first line do. -/
theorem fitsOn_codes {l : List Nat} {r : Rect} {u : State} (hu : AtCodes u)
    (htold : Told k l (start k stack) u) (hroom : k.datasize + 3 < k.packetsize)
    (hr : k.lastRect l = some r) (hwidth : r.left ≤ r.right) (hheight : r.top ≤ r.bottom)
    {o : Nat × Nat} (ho : o = (k.lastOffsets l).getD (stack.nOffset0.toNat, stack.nOffset1.toNat)) :
    FitsOn k p u ↔ ∀ q ∈ lineCodes (k.memory []) r.right o.2 ⟨o.1, true⟩ r.left,
      q.nibble + codeNibbles (k.memory []) q ≤ 2 * k.packetsize := by
  have hrect : u.rect = r := htold.rect_eq hr
  have hset : u.rectSet = true := by
    rw [htold.rectSet, hr]
    rfl
  have hplane : u.nPlane = false := htold.nPlane
  have hoffsets : (u.nOffset0, u.nOffset1) = o := htold.offsets.trans ho.symm
  have hdrawing : Drawing k u := by
    refine ⟨hu.phase, hroom, hset, ?_, ?_, ?_⟩
    · rw [hrect]
      exact lastRect_read hr
    · rw [hu.x, hrect]
      exact ⟨le_refl _, hwidth⟩
    · rw [hu.y, hrect]
      exact ⟨le_refl _, hheight⟩
  have hpos : u.pos = ⟨o.1, true⟩ := by
    rw [State.pos, if_neg (by rw [hplane]; decide), hu.aligned, ← hoffsets]
  have hx : u.x = r.left := by rw [hu.x, hrect]
  rw [← hpos, ← hx]
  exact fitsOn_line hdrawing hplane (by rw [hrect]) (congrArg Prod.snd hoffsets)

/-- A picture that fits is one of a rectangle of the packet. -/
theorem exists_rect {l : List Nat} {u : State} (hu : AtCodes u)
    (htold : Told k l (start k stack) u) (h : Fits k u) :
    ∃ r, k.lastRect l = some r ∧ r.left ≤ r.right ∧ r.top ≤ r.bottom := by
  rw [Fits, hu.phase] at h
  obtain ⟨hset, hwidth, hheight, -⟩ := h
  rw [htold.rectSet] at hset
  obtain ⟨r, hr⟩ := Option.isSome_iff_exists.mp ((Bool.false_or _).symm.trans hset)
  have hrect : u.rect = r := htold.rect_eq hr
  rw [hrect] at hwidth hheight
  exact ⟨r, hr, hwidth, hheight⟩

/-- **Decoding is safe** exactly for a packet whose parts are inside. -/
theorem decodeSafe_iff (k : Packet) (p : VobSubParser) : DecodeSafe k p ↔ Inside k := by
  rw [decodeSafe_iff_fits]
  constructor
  · intro hfits
    have hstack : ∀ stack, ∃ u, AtCodes u ∧
        Told k (k.allCommands k.datasize) (start k stack) u ∧
        (∀ d ∈ k.blocks k.datasize, d + 3 < k.packetsize) ∧
        (∀ i ∈ k.allCommands k.datasize, i < k.packetsize) ∧
        ((∀ d ∈ k.blocks k.datasize, k.Leads d) → FitsOn k p u) := by
      intro stack
      obtain ⟨u, hu, htold, hiff⟩ := fitsOn_blocks k p k.datasize (start k stack) rfl rfl
      exact ⟨u, hu, htold, hiff.mp (hfits stack)⟩
    obtain ⟨u, hu, htold, hblocks, hcommands, hcodes⟩ := hstack ⟨0, 0, 0, 0, 0, 0⟩
    refine ⟨hblocks, hcommands, fun hleads => ?_⟩
    obtain ⟨r, hr, hwidth, hheight⟩ := exists_rect hu htold (hcodes hleads u (.refl u))
    refine ⟨r, hr, hwidth, hheight, fun first second o ho => ?_⟩
    obtain ⟨v, hv, htold', -, -, hcodes'⟩ := hstack ⟨0, 0, 0, 0, first, second⟩
    exact (fitsOn_codes hv htold' (hblocks _ (mem_blocks k _)) hr hwidth hheight ho).mp
      (hcodes' hleads)
  · intro hinside stack
    obtain ⟨u, hu, htold, hiff⟩ := fitsOn_blocks k p k.datasize (start k stack) rfl rfl
    refine hiff.mpr ⟨hinside.blocks, hinside.commands, fun hleads => ?_⟩
    obtain ⟨r, hr, hwidth, hheight, hcodes⟩ := hinside.picture hleads
    exact (fitsOn_codes hu htold (hinside.blocks _ (mem_blocks k _)) hr hwidth hheight rfl).mpr
      (hcodes _ _ _ rfl)

end DWindow.VobSub.Decode
