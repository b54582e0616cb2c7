import DWindow.Lib.Runs
import DWindow.Torrent.Reader
import Mathlib.Tactic.Ring

/-!
# Whose bytes the buffer holds

`on_read` changes the bytes and `m_datasize`, and the call that waits sets `m_data_index`
afterwards, but only if it finds as many bytes as its piece has.  Fewer bytes stay in the
buffer under the index of an older piece, and the next `read_piece` of that piece finds
its index and a size above 0 and returns at once (`short_answer_keeps_index`).  As many
bytes need not be the right ones either: all pieces but the last have one size, and a wait
may end before its answer is there.  And the file is read at a position that is an `int`.

Where none of this happens the buffer holds the piece of its index whenever no call waits,
and every byte that a `read` copies is one of the piece it asked for (`run_coherent`).
-/

namespace DWindow.Torrent

open CInt Slice Runs

namespace TorrentInfo

variable (t : TorrentInfo)

theorem pred_numPieces_mul_lt : ((t.numPieces : Int) - 1) * t.pieceLength < t.totalSize := by
  have hL := t.pieceLength_pos
  have hS := t.totalSize_pos
  have hmul : t.numPieces * t.pieceLength ≤ t.totalSize + t.pieceLength - 1 :=
    Nat.div_mul_le_self ..
  have hle : (t.numPieces : Int) * t.pieceLength ≤ t.totalSize + t.pieceLength - 1 := by
    have := Int.ofNat_le.mpr hmul
    push_cast at this
    omega
  have hring : ((t.numPieces : Int) - 1) * t.pieceLength =
      t.numPieces * t.pieceLength - t.pieceLength := by ring
  omega

theorem pieceSize_pos (index : Int) : 0 < t.pieceSize index := by
  have h := t.pred_numPieces_mul_lt
  have hL := t.pieceLength_pos
  unfold pieceSize
  split <;> omega

end TorrentInfo

namespace Copied

/-- The bytes are those of the piece. -/
def OfPiece (t : TorrentInfo) (c : Copied) : Prop :=
  ∀ k < c.bytes.length, 0 ≤ c.start + k ∧ c.start + k < t.pieceSize c.index ∧
    c.bytes[k]? = some (t.pieceByte c.index (c.start + k))

instance (t : TorrentInfo) (c : Copied) : Decidable (c.OfPiece t) :=
  inferInstanceAs (Decidable (∀ k < c.bytes.length, _ ∧ _ ∧ _))

end Copied

namespace TorrentStatus

def file : TorrentStatus → Option Disk
  | .pieces _ _ => none
  | .complete f => f

end TorrentStatus

namespace Caller

def index : Caller → Int
  | .returned _ => -1
  | .asks index _ => index
  | .waits index _ => index
  | .copies index _ => index

/-- The call is at the beginning of `read_piece`. -/
def asking : Caller → Bool
  | .asks _ _ => true
  | _ => false

/-- The `read` that is about to copy. -/
def copying : Caller → Option Request
  | .copies _ r => some r
  | _ => none

/-- The call is neither waiting nor about to copy. -/
def apart : Caller → Bool
  | .returned _ => true
  | .asks _ _ => true
  | _ => false

end Caller

namespace Reader

variable (t : TorrentInfo)

/-- The first `m_datasize` bytes of the buffer are the first bytes of a piece. -/
def Holds (s : Reader) (index : Int) : Prop :=
  s.mDatasize ≤ t.pieceSize index ∧
    ∀ k < s.mDatasize.toNat, s.mPieceBuffer k = t.pieceByte index k

instance (s : Reader) (index : Int) : Decidable (s.Holds t index) :=
  inferInstanceAs (Decidable (_ ∧ _))

/-- When no call waits for an answer, the bytes in the buffer are those of the piece
`m_data_index`, and what was copied out of it were the bytes of the pieces asked for. -/
def Coherent (s : Reader) : Prop :=
  (s.caller.waiting = false → 0 < s.mDatasize →
    0 ≤ s.mDataIndex ∧ s.mDataIndex < t.numPieces ∧ s.Holds t s.mDataIndex) ∧
  ∀ c ∈ s.copied, c.OfPiece t

instance (s : Reader) : Decidable (s.Coherent t) :=
  inferInstanceAs (Decidable (_ ∧ _))

/-- The file delivers the bytes of a piece: nothing, or what the torrent has there, from a
position that is an `int`. -/
def FileAgrees (f : Disk) (index : Int) : Prop :=
  fileCount t f index ≤ 0 ∨ index * t.pieceLength < 2 ^ 31 ∧
    ∀ k < (fileCount t f index).toNat, f.byte (index * t.pieceLength + k) = t.pieceByte index k

instance (f : Disk) (index : Int) : Decidable (FileAgrees t f index) :=
  inferInstanceAs (Decidable (_ ∨ _ ∧ _))

/-- A `read_piece` that begins asks the torrent. -/
def asksTorrent (s : Reader) : Bool :=
  s.caller.asking && 0 ≤ s.caller.index && s.caller.index < t.numPieces &&
    !(s.caller.index = s.mDataIndex && 0 < s.mDatasize)

/-- An `on_read` that brings bytes finds a call waiting or brings the piece that is held; a
call that finds as many bytes as it wants has got its own piece, and one that finds fewer
finds none, or still the piece that is held; the file agrees with the torrent; and the first
piece of a `read` is there as far as it is wanted. -/
def Orderly (s : Reader) : Event → Prop
  | .query status _ => ∀ f ∈ status.file, s.asksTorrent t = true → FileAgrees t f s.caller.index
  | .onRead piece size => s.caller.waiting = true ∨ size = 0 ∨ (piece : Int) = s.mDataIndex
  | .wake _ => s.caller.waiting = true →
    if s.mDatasize = t.pieceSize s.caller.index then s.bytesOf = some s.caller.index
    else s.mDatasize ≤ 0 ∨ s.bytesOf = some s.mDataIndex
  | .copy => ∀ r ∈ s.caller.copying, r.stage = .head →
    0 ≤ copyStart t r ∧ copyStart t r + s.copySize t r ≤ s.mDatasize
  | .read _ _ => True
  | .readPiece _ => True

instance (s : Reader) : ∀ e : Event, Decidable (s.Orderly t e)
  | .query status _ => inferInstanceAs (Decidable (∀ f ∈ status.file,
      s.asksTorrent t = true → FileAgrees t f s.caller.index))
  | .onRead piece size => inferInstanceAs (Decidable (s.caller.waiting = true ∨ size = 0 ∨
      (piece : Int) = s.mDataIndex))
  | .wake _ => inferInstanceAs (Decidable (s.caller.waiting = true →
      if s.mDatasize = t.pieceSize s.caller.index then s.bytesOf = some s.caller.index
      else s.mDatasize ≤ 0 ∨ s.bytesOf = some s.mDataIndex))
  | .copy => inferInstanceAs (Decidable (∀ r ∈ s.caller.copying, r.stage = .head →
      0 ≤ copyStart t r ∧ copyStart t r + s.copySize t r ≤ s.mDatasize))
  | .read _ _ => isTrue trivial
  | .readPiece _ => isTrue trivial

/-! ## The invariant -/

/-- What a step keeps.  While a call waits the bytes are those of the last transfer only. -/
structure Sound (s : Reader) : Prop where
  transfer : ∀ j, s.bytesOf = some j → 0 ≤ j ∧ s.Holds t j
  held : s.caller.waiting = false → 0 < s.mDatasize → s.bytesOf = some s.mDataIndex
  index_lt : s.mDataIndex < t.numPieces
  waits : ∀ index r, s.caller = .waits index r → 0 ≤ index ∧ index < t.numPieces
  copies : ∀ index r, s.caller = .copies index r → s.mDataIndex = index
  copied : ∀ c ∈ s.copied, c.OfPiece t

theorem Sound.coherent {s : Reader} (h : s.Sound t) : s.Coherent t := by
  refine ⟨fun hwait hsize => ?_, h.copied⟩
  have htransfer := h.transfer _ (h.held hwait hsize)
  exact ⟨htransfer.1, h.index_lt, htransfer.2⟩

theorem sound_create (memory : Int → UInt8) {datasize : Int} (h : datasize ≤ 0) :
    (create memory datasize).Sound t where
  transfer := fun j hj => nomatch hj
  held := fun _ hsize => absurd hsize (Int.not_lt.mpr h)
  index_lt := show (-1 : Int) < (t.numPieces : Int) by omega
  waits := fun _ _ hc => nomatch hc
  copies := fun _ _ hc => nomatch hc
  copied := fun _ hc => nomatch hc

/-! ## The places of a call -/

theorem goOn_apart (r : Request) : (goOn t r).apart = true := by
  unfold goOn
  split
  · rfl
  · split <;> rfl

theorem startRead_apart (offset size : Int) : (startRead t offset size).apart = true := by
  unfold startRead
  dsimp only
  split
  · rfl
  · split
    · rfl
    · exact goOn_apart t _

theorem afterCopy_apart (r : Request) (n : Int) : (afterCopy t r n).apart = true := by
  unfold afterCopy
  split
  · rfl
  · exact goOn_apart t _

/-! ## The steps -/

variable {t} {s : Reader}

/-- The call goes to a place where it neither waits nor copies. -/
theorem Sound.moves (h : s.Sound t) (hheld : 0 < s.mDatasize → s.bytesOf = some s.mDataIndex)
    {c : Caller} (hc : c.apart = true) : Sound t { s with caller := c } where
  transfer := h.transfer
  held := fun _ hsize => hheld hsize
  index_lt := h.index_lt
  waits := by
    intro index r heq
    obtain rfl : c = .waits index r := heq
    cases hc
  copies := by
    intro index r heq
    obtain rfl : c = .copies index r := heq
    cases hc
  copied := h.copied

theorem Sound.succeeds (h : s.Sound t)
    (hheld : 0 < s.mDatasize → s.bytesOf = some s.mDataIndex) (r : Option Request) :
    (s.succeed s.mDataIndex r).Sound t := by
  cases r with
  | none => exact h.moves hheld rfl
  | some r =>
    exact
      { transfer := h.transfer
        held := fun _ hsize => hheld hsize
        index_lt := h.index_lt
        waits := fun _ _ hc => nomatch hc
        copies := fun index r' hc => by cases hc; rfl
        copied := h.copied }

theorem Sound.fails (h : s.Sound t) (index : Int)
    (hheld : 0 < s.mDatasize → s.bytesOf = some s.mDataIndex) (r : Option Request)
    (cancel : Bool) : (s.fail index r cancel).Sound t := by
  cases r with
  | none => exact h.moves hheld rfl
  | some r => cases cancel <;> exact h.moves hheld rfl

theorem holds_fill (s : Reader) {bytes : Int → UInt8} {n index : Int} (hn : n ≤ t.pieceSize index)
    (hbytes : ∀ k < n.toNat, bytes k = t.pieceByte index k) : (s.fill bytes n).Holds t index := by
  refine ⟨hn, fun k hk => ?_⟩
  have hlt : (0 : Int) ≤ k ∧ (k : Int) < n := by
    have hk' : k < n.toNat := hk
    omega
  exact (if_pos hlt).trans (hbytes k hk)

theorem Sound.onRead (h : s.Sound t) {piece size : Nat}
    (hok : s.caller.waiting = true ∨ size = 0 ∨ (piece : Int) = s.mDataIndex) :
    (s.onRead t piece size).Sound t where
  transfer := by
    intro j hj
    obtain rfl : (piece : Int) = j := Option.some.inj hj
    exact ⟨Int.natCast_nonneg piece, holds_fill s (min_le_right ..) fun _ _ => rfl⟩
  held := by
    intro hwait hsize
    rcases hok with hw | rfl | hpiece
    · exact absurd (hw.symm.trans hwait) Bool.noConfusion
    · exact absurd hsize (Int.not_lt.mpr (min_le_left ..))
    · exact congrArg some hpiece
  index_lt := h.index_lt
  waits := h.waits
  copies := h.copies
  copied := h.copied

theorem fileCount_le (f : Disk) (index : Int) : fileCount t f index ≤ t.pieceSize index := by
  have hpos := t.pieceSize_pos index
  unfold fileCount
  dsimp only
  split
  · omega
  · exact max_le (by omega) (min_le_left ..)

theorem Sound.readFile (h : s.Sound t) {f : Disk} {index : Int} (h₀ : 0 ≤ index)
    (hlt : index < t.numPieces) (hok : FileAgrees t f index) (r : Option Request) :
    (s.readFile t f index r).Sound t := by
  have hbytes : ∀ k < (fileCount t f index).toNat,
      f.byte (toInt32 (index * t.pieceLength) + k) = t.pieceByte index k := by
    rcases hok with hnone | ⟨hsmall, hok⟩
    · intro k hk
      rw [Int.toNat_of_nonpos hnone] at hk
      exact absurd hk (Nat.not_lt_zero k)
    · have hnonneg : 0 ≤ index * t.pieceLength := Int.mul_nonneg h₀ (Int.natCast_nonneg _)
      rw [toInt32_of_lt (by omega) hsmall]
      exact hok
  have hread : Sound t
      { s.fill (fun k => f.byte (toInt32 (index * t.pieceLength) + k)) (fileCount t f index) with
        mDataIndex := index, bytesOf := some index, caller := .returned 0 } :=
    { transfer := by
        intro j hj
        obtain rfl : index = j := Option.some.inj hj
        have hfill : Holds t (s.fill (fun k => f.byte (toInt32 (index * t.pieceLength) + k))
            (fileCount t f index)) index := holds_fill s (fileCount_le f index) hbytes
        exact ⟨h₀, hfill⟩
      held := fun _ _ => rfl
      index_lt := hlt
      waits := fun _ _ hc => nomatch hc
      copies := fun _ _ hc => nomatch hc
      copied := h.copied }
  have hdone := hread.succeeds (fun _ => rfl) r
  unfold Reader.readFile
  cases r with
  | none => exact hdone
  | some r => exact hdone

theorem Sound.readPiece (h : s.Sound t) {index : Int} {r : Option Request}
    (hcaller : s.caller = .asks index r) {status : TorrentStatus} {cancel : Bool}
    (hok : s.Orderly t (.query status cancel)) :
    (s.readPiece t index r status cancel).Sound t := by
  have hheld : 0 < s.mDatasize → s.bytesOf = some s.mDataIndex := h.held (by rw [hcaller]; rfl)
  unfold Reader.readPiece
  split
  · exact h.moves hheld rfl
  next hrange =>
    rw [not_or, Int.not_le, Int.not_lt] at hrange
    split
    · next hcached =>
      rw [hcached.1]
      exact h.succeeds hheld r
    next hcached =>
      cases status with
      | pieces active bits =>
        dsimp only
        split
        · exact
            { transfer := h.transfer
              held := fun hc => nomatch hc
              index_lt := h.index_lt
              waits := fun _ _ hc => by cases hc; exact ⟨hrange.2, hrange.1⟩
              copies := fun _ _ hc => nomatch hc
              copied := h.copied }
        · exact h.fails index hheld r cancel
      | complete file =>
        cases file with
        | none => exact h.fails index hheld r cancel
        | some f =>
          have hasks : s.asksTorrent t = true := by
            simp only [asksTorrent, hcaller, Caller.asking, Caller.index, Bool.true_and,
              Bool.and_eq_true, Bool.not_eq_true', decide_eq_true_eq, Bool.and_eq_false_iff,
              decide_eq_false_iff_not]
            exact ⟨⟨hrange.2, hrange.1⟩, not_and_or.mp hcached⟩
          have hagrees := hok f rfl hasks
          rw [hcaller] at hagrees
          exact h.readFile hrange.2 hrange.1 hagrees r

theorem Sound.afterWait (h : s.Sound t) {index : Int} {r : Option Request}
    (hcaller : s.caller = .waits index r) {cancel : Bool} (hok : s.Orderly t (.wake cancel)) :
    (s.afterWait t index r cancel).Sound t := by
  have hgot := hok (by rw [hcaller]; rfl)
  simp only [hcaller, Caller.index] at hgot
  unfold Reader.afterWait
  split
  · next hfull =>
    rw [if_pos hfull] at hgot
    have htaken : Sound t { s with mDataIndex := index, caller := .returned 0 } :=
      { transfer := h.transfer
        held := fun _ _ => hgot
        index_lt := (h.waits index r hcaller).2
        waits := fun _ _ hc => nomatch hc
        copies := fun _ _ hc => nomatch hc
        copied := h.copied }
    have hdone := htaken.succeeds (fun _ => hgot) r
    cases r with
    | none => exact hdone
    | some r => exact hdone
  · next hfew =>
    rw [if_neg hfew] at hgot
    refine h.fails index (fun hsize => ?_) r cancel
    rcases hgot with hnone | hheld
    · exact absurd hsize (Int.not_lt.mpr hnone)
    · exact hheld

/-! ## The copies of `read` -/

/-- Bytes copied from inside the part of the buffer that is held. -/
theorem ofPiece_slice {index : Int} (hhold : s.Holds t index) {start n : Int} (h₀ : 0 ≤ start)
    (hsize : start + n ≤ s.mDatasize) :
    (Copied.mk index start (slice s.mPieceBuffer start (start + n))).OfPiece t := by
  intro k hk
  rw [length_slice] at hk
  have hbyte := hhold.2 (start + k).toNat (by omega)
  rw [Int.toNat_of_nonneg (by omega)] at hbyte
  have hle := hhold.1
  refine ⟨?_, ?_, ?_⟩ <;> dsimp only
  · omega
  · omega
  · rw [getElem?_slice _ (by omega), hbyte]

theorem Sound.holds (h : s.Sound t) (hheld : 0 < s.mDatasize → s.bytesOf = some s.mDataIndex) :
    s.Holds t s.mDataIndex := by
  by_cases hsize : 0 < s.mDatasize
  · exact (h.transfer _ (hheld hsize)).2
  · have hpos := t.pieceSize_pos s.mDataIndex
    refine ⟨by omega, fun k hk => ?_⟩
    rw [Int.toNat_of_nonpos (by omega)] at hk
    exact absurd hk (Nat.not_lt_zero k)

/-- A `memcpy` of `read` stays inside what is held; at the first piece that is a condition. -/
theorem copy_within {index : Int} {r : Request} (hcaller : s.caller = .copies index r)
    (hok : s.Orderly t .copy) :
    0 ≤ copyStart t r ∧ copyStart t r + s.copySize t r ≤ s.mDatasize := by
  cases hstage : r.stage with
  | head => exact hok r (by rw [hcaller]; rfl) hstage
  | body => simp [copyStart, copySize, hstage]
  | tail => simp [copyStart, copySize, hstage]

/-- **A `memcpy` of `read` copies bytes of the piece.** -/
theorem Sound.copy (h : s.Sound t) {index : Int} {r : Request}
    (hcaller : s.caller = .copies index r) (hok : s.Orderly t .copy) :
    (s.copy t index r).Sound t := by
  have hheld : 0 < s.mDatasize → s.bytesOf = some s.mDataIndex := h.held (by rw [hcaller]; rfl)
  have hwithin := copy_within hcaller hok
  have hindex := h.copies index r hcaller
  subst hindex
  have hmoved : Sound t { s with caller := afterCopy t r (s.copySize t r) } :=
    h.moves hheld (afterCopy_apart t r _)
  exact
    { transfer := hmoved.transfer
      held := hmoved.held
      index_lt := hmoved.index_lt
      waits := hmoved.waits
      copies := hmoved.copies
      copied := by
        intro c hc
        rcases List.mem_cons.mp hc with rfl | hc
        · exact ofPiece_slice (h.holds hheld) hwithin.1 hwithin.2
        · exact h.copied c hc }

/-! ## Runs -/

/-- **A step keeps the invariant.** -/
theorem Sound.step (h : s.Sound t) {e : Event} (hok : s.Orderly t e) : (s.step t e).Sound t := by
  have hheld : ∀ c, s.caller = c → c.apart = true →
      0 < s.mDatasize → s.bytesOf = some s.mDataIndex := by
    intro c hc hapart
    refine h.held ?_
    rw [hc]
    cases c with
    | waits index r => cases hapart
    | _ => rfl
  cases e with
  | read offset size =>
    cases hcaller : s.caller with
    | returned value =>
      simp only [Reader.step, hcaller]
      exact h.moves (hheld _ hcaller rfl) (startRead_apart t offset size)
    | _ => simpa only [Reader.step, hcaller] using h
  | readPiece index =>
    cases hcaller : s.caller with
    | returned value =>
      simp only [Reader.step, hcaller]
      exact h.moves (hheld _ hcaller rfl) rfl
    | _ => simpa only [Reader.step, hcaller] using h
  | query status cancel =>
    cases hcaller : s.caller with
    | asks index r =>
      simp only [Reader.step, hcaller]
      exact h.readPiece hcaller hok
    | _ => simpa only [Reader.step, hcaller] using h
  | onRead piece size =>
    cases hcaller : s.caller <;> simp only [Reader.step] <;> exact h.onRead hok
  | wake cancel =>
    cases hcaller : s.caller with
    | waits index r =>
      simp only [Reader.step, hcaller]
      exact h.afterWait hcaller hok
    | _ => simpa only [Reader.step, hcaller] using h
  | copy =>
    cases hcaller : s.caller with
    | copies index r =>
      simp only [Reader.step, hcaller]
      exact h.copy hcaller hok
    | _ => simpa only [Reader.step, hcaller] using h

/-- **The buffer holds the piece of its index** whenever no call waits, and a `read` is given
bytes of the pieces it asks for, in every state that a run of orderly steps reaches. -/
theorem run_coherent : ∀ (t : TorrentInfo) (memory : Int → UInt8) (datasize : Int)
    (events : List Event), datasize ≤ 0 →
    Along (step t) (Orderly t) (create memory datasize) events →
    ∀ k, (run (step t) (create memory datasize) (events.take k)).Coherent t := by
  intro t memory datasize events hdatasize hevents k
  have hsound : Sound t (run (step t) (create memory datasize) (events.take k)) :=
    along_run (Sound t) (fun _ _ h hok => h.step hok) _ _ (sound_create t memory hdatasize)
      (along_take hevents k)
  exact hsound.coherent

/-- Twelve bytes in pieces of four. -/
def threePieces : TorrentInfo := ⟨4, 12, fun k => UInt8.ofNat k.toNat, by decide, by decide⟩

/-- 4 GiB and one byte. -/
def beyondInt : TorrentInfo :=
  ⟨4194304, 4294967297, fun k => if k = 4294967296 then 1 else 0, by decide, by decide⟩

/-- A run with an answer, a failure, a cancelled `read` and the piece asked for again. -/
theorem run_coherent_threePieces :
    (run (step threePieces) (create (fun _ => 0) 0) (List.take 14 [.read 4 2,
      .query (.pieces true fun _ => true) false, .onRead 1 4, .wake false, .copy, .read 8 2,
      .query (.pieces true fun _ => true) false, .onRead 2 0, .wake true, .read 5 5,
      .query (.pieces true fun _ => true) false, .onRead 1 4, .wake false, .copy])).Coherent
        threePieces :=
  run_coherent threePieces (fun _ => 0) 0 _ (by decide) (by decide) 14

/-- The call for piece 2 finds one byte of it and is cancelled. -/
def shortAnswer : Reader :=
  run (step threePieces) (create (fun _ => 0) 0) [.read 4 2,
    .query (.pieces true fun _ => true) false,
    .onRead 1 4, .wake false, .copy, .read 8 2, .query (.pieces true fun _ => true) false,
    .onRead 2 1, .wake true]

/-- The wait for piece 2 ends before its answer is there. -/
def earlyWake : Reader :=
  run (step threePieces) (create (fun _ => 0) 0) [.read 4 2,
    .query (.pieces true fun _ => true) false,
    .onRead 1 4, .wake false, .copy, .read 8 2, .query (.pieces true fun _ => true) false,
    .wake false]

/-- The piece at 4 GiB is read from the file. -/
def wrappedPosition : Reader :=
  run (step beyondInt) (create (fun _ => 0) 0) [.read 4294967296 1,
    .query (.complete (some ⟨4294967297, beyondInt.byte⟩)) false]

/-- **A short answer leaves the index of an older piece**, and the next `read` of piece 1 gets
the byte of piece 2.  After an early wake the bytes of piece 1 pass for piece 2, and beyond
4 GiB the file delivers the bytes of piece 0 for piece 1024. -/
theorem short_answer_keeps_index :
    (¬ shortAnswer.Coherent threePieces ∧ shortAnswer.caller = .returned (-1) ∧
      shortAnswer.mDatasize = 1 ∧ shortAnswer.mDataIndex = 1 ∧
      (run (step threePieces) shortAnswer [.read 4 1, .query (.pieces true fun _ => true) false,
        .copy]).copied.head? = some ⟨1, 0, [threePieces.pieceByte 2 0]⟩ ∧
      threePieces.pieceByte 2 0 ≠ threePieces.pieceByte 1 0) ∧
    (¬ earlyWake.Coherent threePieces ∧ earlyWake.mDatasize = 4 ∧ earlyWake.mDataIndex = 2 ∧
      earlyWake.mPieceBuffer 0 = threePieces.pieceByte 1 0) ∧
    ¬ wrappedPosition.Coherent beyondInt ∧ wrappedPosition.mDatasize = 1 ∧
      wrappedPosition.mDataIndex = 1024 ∧
      wrappedPosition.mPieceBuffer 0 = beyondInt.pieceByte 0 0 := by
  decide

end Reader
end DWindow.Torrent
