import DWindow.Subtitle.Tables
import DWindow.VobSub.Decode

/-!
# The packets of a parser

`read_packet_from_subfile` takes a packet out of blocks of `0x800` bytes and looks through its
control blocks for the time when it is hidden; `add_subtitle` is given one.  What either of them
accepts is a `Packet` for `decode`.

The file is what it holds from the place on that `fseek` finds.
-/

namespace DWindow.VobSub

open CInt Looking Decode

/-! ## Blocks of the file -/

structure Buff where
  bytes : List UInt8
  length_eq : bytes.length = 0x800

namespace Buff

/-- `buff[n]`. -/
def byte (buff : Buff) (n : Nat) : UInt8 := buff.bytes.getD n 0

/-- `fread` of a block, with the rest of the file: a short one leaves the bytes behind it. -/
def fread (buff : Buff) (file : List UInt8) : Buff × List UInt8 where
  fst.bytes := file.take 0x800 ++ buff.bytes.drop (file.take 0x800).length
  fst.length_eq := by
    have hlength := buff.length_eq
    rw [List.length_append, List.length_drop, List.length_take]
    omega
  snd := file.drop 0x800

/-- The byte in front of the data, with the language. -/
def lang (buff : Buff) : UInt8 := buff.byte ((buff.byte 0x16).toNat + 0x17)

def hsize (buff : Buff) : Nat := 0x18 + (buff.byte 0x16).toNat

def begins (buff : Buff) (mLangId : Int) : Bool :=
  (List.range' 0 4).map buff.byte = [0x00, 0x00, 0x01, 0xba] ∧
  (List.range' 0x0e 4).map buff.byte = [0x00, 0x00, 0x01, 0xbd] ∧
  0x80 ≤ buff.byte 0x15 ∧ (buff.byte 0x17).toNat / 16 = 2 ∧ buff.lang.toNat / 32 = 1 ∧
  (buff.lang.toNat % 32 : Nat) = mLangId

theorem hsize_lt (buff : Buff) : buff.hsize < 0x800 := by
  have hbyte := (buff.byte 0x16).toNat_lt
  unfold hsize
  omega

/-- The loop that reads up to a block of the language, or the end of the file. -/
def skipTo (mLangId : Int) (buff : Buff) (file : List UInt8) : Buff × List UInt8 :=
  if file = [] then (buff, file)
  else
    let r := buff.fread file
    if (r.1.lang.toNat : Int) = mLangId + 0x20 then r else skipTo mLangId r.1 r.2
termination_by file.length
decreasing_by
  have hsome := List.length_pos_of_ne_nil (by assumption : ¬ file = [])
  show (file.drop 0x800).length < file.length
  rw [List.length_drop]
  omega

def copyPacket (mLangId : Int) (buff : Buff) (file : List UInt8) (sizeleft : Nat) : List UInt8 :=
  if sizeleft = 0 then []
  else
    let size := min sizeleft (0x800 - buff.hsize)
    let copied := (buff.bytes.drop buff.hsize).take size
    if size = sizeleft then copied
    else
      let r := skipTo mLangId buff file
      copied ++ copyPacket mLangId r.1 r.2 (sizeleft - size)
termination_by sizeleft
decreasing_by
  have hdata := buff.hsize_lt
  omega

/-- **As many bytes are copied as the packet has.** -/
theorem length_copyPacket (mLangId : Int) (buff : Buff) (file : List UInt8) (sizeleft : Nat) :
    (copyPacket mLangId buff file sizeleft).length = sizeleft := by
  induction buff, file, sizeleft using copyPacket.induct mLangId with
  | case1 buff file =>
    rw [copyPacket, if_pos rfl]
    rfl
  | case2 buff file sizeleft hsome size hall =>
    have hdata := buff.length_eq
    have hsize : (buff.bytes.drop buff.hsize).length = 0x800 - buff.hsize := by
      rw [List.length_drop, hdata]
    rw [copyPacket, if_neg hsome]
    dsimp only
    rw [if_pos hall, List.length_take, hsize]
    omega
  | case3 buff file sizeleft hsome size hrest r ih =>
    have hdata := buff.length_eq
    have hsize : (buff.bytes.drop buff.hsize).length = 0x800 - buff.hsize := by
      rw [List.length_drop, hdata]
    rw [copyPacket, if_neg hsome]
    dsimp only
    rw [if_neg hrest, List.length_append, ih, List.length_take, hsize]
    omega

end Buff

/-! ## The time of a packet -/

section Time

variable (mem : Nat → UInt8) (packetsize datasize : Nat) (start : Int)

/-- The commands of a block from `i` on, with `t` from its beginning: behind them, and the time
when the packet is hidden.  Every command but this one ends them. -/
def stopCommands (t i : Nat) (stop : Int) : Nat × Int :=
  if packetsize ≤ i + commandLength (mem i) then (i, stop)
  else if mem i = 0x02 then stopCommands t (i + 1) (toInt32 (1024 * t / 90 + start))
  else (i + 1, stop)
termination_by packetsize - i

theorem le_stopCommands (t i : Nat) (stop : Int) :
    i ≤ (stopCommands mem packetsize start t i stop).1 := by
  induction i, stop using stopCommands.induct mem packetsize start t with
  | case1 i stop hend =>
    rw [stopCommands, if_pos hend]
  | case2 i stop hroom hhide ih =>
    rw [stopCommands, if_neg hroom, if_pos hhide]
    exact (Nat.le_succ i).trans ih
  | case3 i stop hroom hother =>
    rw [stopCommands, if_neg hroom, if_neg hother]
    exact Nat.le_succ i

/-- The loop over the control blocks of `read_packet_from_subfile`: whether it goes well, and the
time when the packet is hidden. -/
def timeLength (nextctrlblk : Nat) (stop : Int) : Bool × Int :=
  let t := (word nextctrlblk).value mem
  let next := (word (nextctrlblk + 2)).value mem
  if packetsize < next ∨ next < datasize then (false, stop)
  else
    let r := stopCommands mem packetsize start t (nextctrlblk + 4) stop
    if r.1 ≤ next ∧ r.1 < packetsize then timeLength next r.2 else (true, r.2)
termination_by packetsize - nextctrlblk
decreasing_by
  have hle : nextctrlblk + 4 ≤ r.1 := le_stopCommands mem packetsize start t (nextctrlblk + 4) stop
  omega

end Time

/-! ## Both ways to a packet -/

/-- A packet that begins in a block, into `m_current_subtitle`. -/
def Buff.readPacket (buff : Buff) (behind file : List UInt8) (mLangId : Int) (current : Subtitle) :
    Bool × Subtitle :=
  let packetsize := (word buff.hsize).value buff.byte
  let datasize := (word (buff.hsize + 2)).value buff.byte
  let packet := buff.copyPacket mLangId file packetsize
  let r := timeLength (fun n => (packet ++ behind).getD n 0) packetsize datasize current.start
    datasize current.start
  (r.1, { current with
    stop := r.2
    datasize := datasize
    packetsize := packetsize
    packet := packet })

/-- `read_packet_from_subfile`, with the memory behind the packet. -/
def readPacketFromSubfile (behind file : List UInt8) (mLangId : Int) (current : Subtitle) :
    Bool × Subtitle :=
  if h : 0x800 ≤ file.length then
    let buff : Buff := ⟨file.take 0x800, List.length_take_of_le h⟩
    if buff.begins mLangId = true then
      buff.readPacket behind (file.drop 0x800) mLangId current
    else (false, current)
  else (false, current)

structure Subtitle.Holds (sub : Subtitle) (k : Packet) : Prop where
  packet : sub.packet = k.bytes
  packetsize : sub.packetsize = k.packetsize
  datasize : sub.datasize = k.datasize

variable {behind file data : List UInt8} {mLangId start stop : Int} {current sub : Subtitle}
  {p p' : VobSubParser}

theorem Buff.holds_readPacket (buff : Buff) (behind file : List UInt8) (mLangId : Int)
    (current : Subtitle) : ∃ k, (buff.readPacket behind file mLangId current).2.Holds k := by
  have hcopied := buff.length_copyPacket mLangId file ((word buff.hsize).value buff.byte)
  exact ⟨⟨_, _, hcopied.trans_lt (word_lt _ _), word_lt _ _⟩, rfl,
    congrArg Int.ofNat hcopied.symm, rfl⟩

/-- **A packet that is read** is one. -/
theorem holds_readPacketFromSubfile
    (h : (readPacketFromSubfile behind file mLangId current).1 = true) :
    ∃ k, (readPacketFromSubfile behind file mLangId current).2.Holds k := by
  unfold readPacketFromSubfile at h ⊢
  by_cases hlength : 0x800 ≤ file.length
  · rw [dif_pos hlength] at h ⊢
    dsimp only at h ⊢
    split at h
    · next hbegins =>
      rw [if_pos hbegins]
      exact Buff.holds_readPacket _ _ _ _ _
    · cases h
  · rw [dif_neg hlength] at h
    cases h

theorem holds_addSubtitle (hsub : sub ∈ (p.addSubtitle start stop data).mSubtitles) :
    sub ∈ p.mSubtitles ∨ ∃ k, sub.Holds k ∧ k.bytes = data := by
  unfold VobSubParser.addSubtitle at hsub
  extract_lets number at hsub
  have hnumber : ∀ n, number n < 65536 := fun n => word_lt (fun n => data.getD n 0) n
  split at hsub
  · exact .inl hsub
  · split at hsub
    · exact .inl hsub
    · next hsize =>
      rw [not_or, not_not] at hsize
      rcases List.mem_append.mp hsub with hold | hnew
      · exact .inl hold
      · cases List.mem_singleton.mp hnew
        have hlt : data.length < 65536 := by
          rw [← hsize.2]
          exact hnumber 0
        refine .inr ⟨⟨data, number 2, hlt, hnumber 2⟩, ⟨rfl, ?_, rfl⟩, rfl⟩
        exact congrArg Nat.cast hsize.2

def World.withSubfile (w : World) (behind : List UInt8) (file : Nat → List UInt8) : World :=
  { w with
    readPacket := fun mLangId pos current =>
      some (readPacketFromSubfile behind (file pos) mLangId current) }

/-- **The index adds packets** that are read. -/
theorem holds_handleTimestamp {w : World} {file : Nat → List UInt8} {room : Nat}
    {str : List UInt16} (h : p.handleTimestamp (w.withSubfile behind file) room str = some p')
    (hsub : sub ∈ p'.mSubtitles) : sub ∈ p.mSubtitles ∨ ∃ k, sub.Holds k := by
  unfold VobSubParser.handleTimestamp at h
  obtain ⟨i, -, h⟩ := Option.bind_eq_some_iff.mp h
  dsimp only at h
  split at h
  · cases h
  · split at h
    · obtain ⟨r, hread, h⟩ := Option.bind_eq_some_iff.mp h
      cases hread
      split at h
      · next hgood =>
        split at h
        · cases h
          rcases List.mem_append.mp hsub with hold | hnew
          · exact .inl hold
          · cases List.mem_singleton.mp hnew
            exact .inr (holds_readPacketFromSubfile hgood)
        · cases h
      · cases h
        exact .inl hsub
    · cases h
      exact .inl hsub

end DWindow.VobSub
