import DWindow.Torrent.Delivery

/-!
# How far a `read` reaches

A sum of offset and size that an `__int64` cannot hold is a negative end, and nothing is
read.  A number of bytes that an `int` cannot hold is not what `read` returns.  And the
position of a piece in the file, a product of two `int`s, comes out negative or too small
from 2 GiB on: the file then delivers nothing, or the bytes of an earlier place
(`readsRight_iff`).
-/

namespace DWindow.Torrent

open CInt Slice Runs

namespace Reader

variable {t : TorrentInfo} {offset stop index : Int} {r : Request} {s : Reader}

theorem ready_create (t : TorrentInfo) (memory : Int → UInt8) (datasize : Int) :
    (create memory datasize).Ready t := by
  refine ⟨⟨0, rfl⟩, fun index h0 hindex _ => ?_, fun index hcame => ?_⟩
  · have hnone : (-1 : Int) = index := hindex
    omega
  · cases hcame.1

/-! ## What is returned is an `int` -/

/-- A call that has returned has returned an `int`. -/
def Counts (s : Reader) : Prop := ∀ v, s.caller = .returned v → v < 2 ^ 31

theorem counts_of_caller {c : Caller} (hc : s.caller = c) (h : ∀ v, c = .returned v → v < 2 ^ 31) :
    s.Counts := fun v hv => h v (hc.symm.trans hv)

theorem goOn_lt {v : Int} (h : goOn t r = .returned v) : v < 2 ^ 31 := by
  have hint := (toInt32_range r.got).2
  unfold goOn askFor at h
  split at h
  · cases h
  · split at h
    · cases h
    · cases h
      omega

theorem startRead_lt {size v : Int} (h : startRead t offset size = .returned v) : v < 2 ^ 31 := by
  unfold startRead at h
  dsimp only at h
  split at h
  · cases h
    norm_num
  · split at h
    · cases h
    · exact goOn_lt h

theorem afterCopy_lt {n v : Int} (h : afterCopy t r n = .returned v) : v < 2 ^ 31 := by
  have hint := (toInt32_range (r.got + n)).2
  unfold afterCopy at h
  split at h
  · cases h
    omega
  · exact goOn_lt h

theorem succeed_counts (s : Reader) (index : Int) (o : Option Request) :
    (s.succeed index o).Counts := by
  intro v hv
  cases o with
  | none =>
    cases hv
    norm_num
  | some r => cases hv

theorem fail_counts (s : Reader) (index : Int) (o : Option Request) (cancel : Bool) :
    (s.fail index o cancel).Counts := by
  intro v hv
  cases o with
  | none =>
    cases hv
    norm_num
  | some r =>
    cases cancel with
    | true =>
      cases hv
      norm_num
    | false => cases hv

theorem readPiece_counts (s : Reader) (index : Int) (o : Option Request) (status : TorrentStatus)
    (cancel : Bool) : (s.readPiece t index o status cancel).Counts := by
  unfold readPiece
  split
  · intro v hv
    cases hv
    norm_num
  · split
    · exact succeed_counts s index o
    · cases status with
      | pieces active bits =>
        dsimp only
        split
        · intro v hv
          cases hv
        · exact fail_counts s index o cancel
      | complete file =>
        cases file with
        | none => exact fail_counts s index o cancel
        | some f => exact succeed_counts _ index o

/-- **Every step leaves an `int`.** -/
theorem counts_step (t : TorrentInfo) (h : s.Counts) (e : Event) : (s.step t e).Counts := by
  unfold step
  split
  · exact counts_of_caller rfl fun v hv => startRead_lt hv
  · intro v hv
    cases hv
  · exact readPiece_counts s _ _ _ _
  · exact h
  · unfold afterWait
    split
    · exact succeed_counts _ _ _
    · exact fail_counts s _ _ _
  · rename_i index r _
    exact counts_of_caller rfl fun v hv => afterCopy_lt hv
  · exact h

/-- A `read` that returns right can have gone on until it returned what was wanted. -/
theorem ReadsRight.returns {fromFile : Bool} {size : Int} {P : Reader → Prop}
    (hright : ReadsRight t fromFile offset size) (hready : s.Ready t)
    (hP : P (s.step t (.read offset size)))
    (hstep : ∀ s : Reader, P s → (∃ e, s.Delivers t fromFile e) →
      ∃ e, s.Delivers t fromFile e ∧ P (s.step t e)) :
    ∃ s' : Reader, P s' ∧ s'.caller = .returned (t.wanted offset size) ∧
      s'.Given t s.copied offset (offset + t.wanted offset size) := by
  have hbound : ∀ l, Along (step t) (Delivers t fromFile) (s.step t (.read offset size)) l →
      l.length ≤ (4 * t.wanted offset size + 4).toNat := by
    intro l hl
    have := (hright s hready l hl).1
    omega
  obtain ⟨l, hl, hend, hstop⟩ := exists_along_end P (fun s' => ¬ ∃ e, s'.Delivers t fromFile e)
    (fun s' hs' => (Classical.em _).symm.imp_right (hstep s' hs')) hP hbound
  have hreturned := (hright s hready l hl).2.resolve_left hstop
  exact ⟨_, hend, hreturned⟩

/-! ## A piece beyond the reach of an `int` -/

/-- A file of zeros but for the last byte before `stop`. -/
def lastMarked (stop : Int) (k : Int) : UInt8 := if k = stop - 1 then 1 else 0

/-- A call that reads up to `stop` and never waits. -/
def Within (t : TorrentInfo) (stop : Int) : Caller → Prop
  | .returned _ => True
  | .asks index (some r) =>
    0 ≤ r.offset ∧ 0 < r.size ∧ r.offset + r.size = stop ∧ index ≤ (stop - 1) / t.pieceLength
  | .copies _ r => 0 ≤ r.offset ∧ 0 < r.size ∧ r.offset + r.size = stop
  | _ => False

/-- The mark has not been seen. -/
structure Blank (t : TorrentInfo) (stop : Int) (s : Reader) : Prop where
  buffer : ∀ k, s.mPieceBuffer k = 0
  datasize : 0 ≤ s.mDatasize
  copied : ∀ b ∈ bytesGiven s.copied, b = 0
  within : Within t stop s.caller

theorem askFor_within (h0 : 0 ≤ r.offset) (hpos : 0 < r.size) (hstop : r.offset + r.size = stop) :
    Within t stop (askFor t r) := by
  have hL : (0 : Int) < t.pieceLength := by exact_mod_cast t.pieceLength_pos
  refine ⟨h0, hpos, hstop, ?_⟩
  rw [Int.tdiv_eq_ediv_of_nonneg h0]
  calc toInt32 (r.offset / t.pieceLength)
      ≤ r.offset / t.pieceLength := toInt32_le (Int.ediv_nonneg h0 hL.le)
    _ ≤ (stop - 1) / t.pieceLength := Int.ediv_le_ediv hL (by omega)

theorem goOn_within (h0 : 0 ≤ r.offset) (hstop : r.offset + r.size = stop) :
    Within t stop (goOn t r) := by
  have hL : (0 : Int) < t.pieceLength := by exact_mod_cast t.pieceLength_pos
  unfold goOn
  split
  · exact askFor_within h0 (by dsimp only; omega) hstop
  · split
    · exact askFor_within h0 ‹_› hstop
    · exact trivial

theorem startRead_within {size : Int} (h0 : 0 ≤ offset) :
    Within t (min (toInt64 (offset + size)) t.totalSize) (startRead t offset size) := by
  simp only [startRead, t.all_pieces]
  split
  · exact trivial
  · split
    · exact askFor_within h0 (by dsimp only; omega) (by dsimp only; omega)
    · exact goOn_within h0 (by dsimp only; omega)

/-- **Where the last piece begins beyond an `int`** the file is never read at the mark. -/
theorem mark_not_read (hL : (t.pieceLength : Int) < 2 ^ 31)
    (hbeyond : 2 ^ 31 ≤ (stop - 1) / t.pieceLength * t.pieceLength) (h0 : 0 ≤ index)
    (hindex : index ≤ (stop - 1) / t.pieceLength) {k : Int} (hk : k < t.pieceLength) :
    lastMarked stop (toInt32 (index * t.pieceLength) + k) = 0 := by
  have hL0 : (0 : Int) < t.pieceLength := by exact_mod_cast t.pieceLength_pos
  have hlast := Int.ediv_mul_le (stop - 1) hL0.ne'
  have hne : toInt32 (index * t.pieceLength) + k ≠ stop - 1 := by
    rcases Int.lt_or_eq_of_le hindex with hlt | heq
    · have hmul := Int.mul_le_mul_of_nonneg_right (show index + 1 ≤ _ from hlt) hL0.le
      have hring : (index + 1) * t.pieceLength = index * t.pieceLength + t.pieceLength := by ring
      have hle := toInt32_le (Int.mul_nonneg h0 hL0.le)
      omega
    · rw [heq]
      have hle := toInt32_le_sub hbeyond
      omega
  rw [lastMarked, if_neg hne]

theorem pieceSize_le (t : TorrentInfo) (index : Int) : t.pieceSize index ≤ t.pieceLength := by
  have hS := t.totalSize_le_mul
  unfold TorrentInfo.pieceSize
  split
  · have hring : ((t.numPieces : Int) - 1) * t.pieceLength =
      t.numPieces * t.pieceLength - t.pieceLength := by ring
    omega
  · exact le_refl _

/-- The file brings a blank reader on and leaves it blank. -/
theorem Blank.step (h : s.Blank t stop) (hbyte : t.byte = lastMarked stop)
    (hL : (t.pieceLength : Int) < 2 ^ 31)
    (hbeyond : 2 ^ 31 ≤ (stop - 1) / t.pieceLength * t.pieceLength)
    (hdelivers : ∃ e, s.Delivers t true e) :
    ∃ e, s.Delivers t true e ∧ (s.step t e).Blank t stop := by
  have hwithin := h.within
  cases hc : s.caller with
  | returned v => exact (not_delivers_of_returned hc _ hdelivers.choose_spec).elim
  | waits index r =>
    rw [hc] at hwithin
    exact hwithin.elim
  | asks index o =>
    rw [hc] at hwithin
    cases o with
    | none => exact hwithin.elim
    | some r =>
      refine ⟨.query (.complete (some t.wholeFile)) false, ?_, ?_⟩
      · unfold Delivers
        rw [hc]
        exact ⟨rfl, rfl⟩
      · rw [step_query hc]
        unfold readPiece
        have hcopies := And.intro hwithin.1 (And.intro hwithin.2.1 hwithin.2.2.1)
        split
        · exact ⟨h.buffer, h.datasize, h.copied, trivial⟩
        · rename_i hin
          split
          · exact ⟨h.buffer, h.datasize, h.copied, hcopies⟩
          · refine ⟨fun k => ?_, ?_, h.copied, hcopies⟩
            · show (if 0 ≤ k ∧ k < fileCount t t.wholeFile index then
                t.byte (toInt32 (index * t.pieceLength) + k) else s.mPieceBuffer k) = 0
              split
              · rename_i hk
                have hle := pieceSize_le t index
                have hcount : fileCount t t.wholeFile index ≤ max 0 (t.pieceSize index) := by
                  unfold fileCount
                  dsimp only
                  split <;> omega
                rw [hbyte]
                exact mark_not_read hL hbeyond (by omega) hwithin.2.2.2 (by omega)
              · exact h.buffer k
            · show 0 ≤ fileCount t t.wholeFile index
              unfold fileCount
              dsimp only
              split <;> omega
  | copies index r =>
    rw [hc] at hwithin
    refine ⟨.copy, ?_, ?_⟩
    · unfold Delivers
      rw [hc]
      exact trivial
    · rw [step_copy hc]
      have hL0 : (0 : Int) < t.pieceLength := by exact_mod_cast t.pieceLength_pos
      have hmod := Int.tmod_lt_of_pos r.offset hL0
      have hdata := h.datasize
      obtain ⟨h0, hpos, hstop⟩ := hwithin
      refine ⟨h.buffer, h.datasize, ?_, ?_⟩
      · show ∀ b ∈ bytesGiven (_ :: s.copied), b = 0
        rw [bytesGiven_cons]
        intro b hb
        rcases List.mem_append.mp hb with hold | hnew
        · exact h.copied b hold
        · obtain ⟨k, -, hk⟩ := List.mem_map.mp hnew
          rw [← hk]
          exact h.buffer _
      · show Within t stop (afterCopy t r (s.copySize t r))
        unfold afterCopy copySize
        cases r.stage with
        | head => exact goOn_within (by dsimp only; omega) (by dsimp only; omega)
        | body => exact goOn_within (by dsimp only; omega) (by dsimp only; omega)
        | tail => exact trivial

/-! ## The reach of a `read` -/

theorem inReach_of_readsRight (hcounted : t.Counted) {fromFile : Bool} {size : Int}
    (h0 : 0 ≤ offset) (hoffset : offset < 2 ^ 63) (hsize : -2 ^ 63 ≤ size)
    (hlt : size < 2 ^ 63) (hright : ∀ byte, ReadsRight (t.withByte byte) fromFile offset size) :
    InReach t fromFile offset size := by
  by_cases hnone : t.wanted offset size = 0
  · exact Or.inl hnone
  have hpos : 0 < t.wanted offset size := by
    unfold TorrentInfo.wanted at hnone ⊢
    omega
  have hready := ready_create (t.withByte t.byte) (fun _ => 0) 0
  have hcaller : ((create (fun _ => 0) 0).step t (.read offset size)).caller =
      startRead t offset size := rfl
  have hint : t.wanted offset size < 2 ^ 31 := by
    obtain ⟨s', hcounts, hreturned, -⟩ := (hright t.byte).returns (P := Counts) hready
      (counts_of_caller hcaller fun v hv => startRead_lt hv)
      (fun s h ⟨e, he⟩ => ⟨e, he, counts_step t h e⟩)
    exact hcounts _ hreturned
  have hsum : offset + size < 2 ^ 63 := by
    by_contra hbig
    have hwrap := toInt64_of_ge (Int.not_lt.mp hbig) (by omega)
    have hstart : startRead t offset size = .returned 0 := startRead_of_nonpos (by omega)
    have hreturned := (hright t.byte (create (fun _ => 0) 0) hready [] trivial).2
    rcases hreturned with ⟨e, he⟩ | ⟨hreturned, -⟩
    · exact not_delivers_of_returned (hcaller.trans hstart) e he
    · have hzero := (hcaller.trans hstart).symm.trans hreturned
      injection hzero with hzero
      exact hnone hzero.symm
  refine Or.inr ⟨hsum, hint, fun hfile => ?_⟩
  subst hfile
  by_contra hbeyond
  have hstop : min (toInt64 (offset + size)) t.totalSize = offset + t.wanted offset size := by
    rw [toInt64_of_lt (by omega) hsum]
    unfold TorrentInfo.wanted at hpos ⊢
    omega
  have hwithin : Within t (min (toInt64 (offset + size)) t.totalSize) (startRead t offset size) :=
    startRead_within h0
  rw [hstop] at hwithin
  obtain ⟨s', hblank, -, new, hnew, hbytes⟩ :=
    (hright (lastMarked (offset + t.wanted offset size))).returns
      (P := Blank (t.withByte (lastMarked (offset + t.wanted offset size)))
        (offset + t.wanted offset size)) (ready_create _ (fun _ => 0) 0)
      ⟨fun _ => rfl, le_refl _, fun b hb => (by cases hb), hwithin⟩
      (fun s h hdelivers => h.step rfl hcounted.pieceLength_lt (Int.not_lt.mp hbeyond) hdelivers)
  change bytesGiven new = slice (lastMarked (offset + t.wanted offset size)) offset
    (offset + t.wanted offset size) at hbytes
  have hcopied : s'.copied = new := hnew.trans (List.append_nil new)
  have hmark : (1 : UInt8) ∈ bytesGiven s'.copied := by
    rw [hcopied, hbytes]
    apply List.mem_of_getElem? (i := (t.wanted offset size - 1).toNat)
    rw [getElem?_slice _ (by omega)]
    show some (lastMarked _ _) = _
    rw [lastMarked, if_pos (by omega)]
  exact absurd (hblank.copied 1 hmark) (by decide)

/-- **A `read` whose pieces all come returns right exactly in reach**, whatever the bytes. -/
theorem readsRight_iff (t : TorrentInfo) (hcounted : t.Counted) (fromFile : Bool)
    {offset size : Int} (h0 : 0 ≤ offset) (hoffset : offset < 2 ^ 63) (hsize : -2 ^ 63 ≤ size)
    (hlt : size < 2 ^ 63) :
    (∀ byte, ReadsRight (t.withByte byte) fromFile offset size) ↔
      InReach t fromFile offset size := by
  constructor
  · exact inReach_of_readsRight hcounted h0 hoffset hsize hlt
  · intro hreach byte
    exact readsRight_of_inReach ⟨hcounted.pieceLength_lt, hcounted.numPieces_lt⟩ h0 hoffset hsize
      hreach

/-- From the middle of a piece to the end of the file. -/
theorem readsRight_iff_threePieces :
    (∀ byte, ReadsRight (threePieces.withByte byte) true 3 100) ↔ InReach threePieces true 3 100 :=
  readsRight_iff threePieces ⟨by decide, by decide⟩ true (by decide) (by decide)
    (by decide) (by decide)

/-- The file of a torrent of more than 2 GiB is asked for a byte at 2 GiB and gives none. -/
theorem no_byte_at_two_gib : ¬ ReadsRight beyondInt true 2147483648 1 := by
  intro hright
  have hready := ready_create beyondInt (fun _ => 0) 0
  have hrun := (hright _ hready [.query (.complete (some beyondInt.wholeFile)) false, .copy]
    ⟨⟨rfl, rfl⟩, trivial, trivial⟩).2
  have hzero : (run (step beyondInt)
      ((create (fun _ => 0) 0).step beyondInt (.read 2147483648 1))
      [.query (.complete (some beyondInt.wholeFile)) false, .copy]).caller = .returned 0 := by
    decide
  rcases hrun with ⟨e, he⟩ | ⟨hreturned, -⟩
  · exact not_delivers_of_returned hzero e he
  · rw [hzero] at hreturned
    exact absurd hreturned (by decide)

end Reader

end DWindow.Torrent
