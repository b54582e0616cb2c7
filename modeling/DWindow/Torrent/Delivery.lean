import DWindow.Torrent.Coherent

/-!
# A `read` whose pieces are all delivered

Each piece that a `read` asks for comes, whole: from `on_read` while the call waits, or, when
the torrent is complete, from its file.  The order of these steps is not fixed, and a piece
may come either way.  Then `read` returns what was asked for
(`readsRight_iff`), as far as its integers go: the sum of offset and size is an `__int64`,
what it returns is an `int`, and so is the position at which the file is read.
-/

namespace DWindow.Torrent

open CInt Slice Runs

namespace TorrentInfo

variable (t : TorrentInfo)

/-- `piece_length()` and `num_pieces()` are `int`s. -/
structure Counted : Prop where
  pieceLength_lt : (t.pieceLength : Int) < 2 ^ 31
  numPieces_lt : (t.numPieces : Int) < 2 ^ 31

def wholeFile : Disk := ⟨t.totalSize, t.byte⟩

/-- How many bytes of the file a `read` asks for. -/
def wanted (offset size : Int) : Int := max 0 (min (offset + size) t.totalSize - offset)

/-- The torrent with other bytes. -/
def withByte (byte : Int → UInt8) : TorrentInfo := { t with byte := byte }

end TorrentInfo

def bytesGiven (copied : List Copied) : List UInt8 := copied.reverse.flatMap Copied.bytes

namespace Reader

variable (t : TorrentInfo)

/-- The answer of a torrent that has the piece, or of a complete one whose file is there. -/
def Has (fromFile : Bool) (index : Int) : TorrentStatus → Prop
  | .pieces active bits => active = true ∧ bits index = true
  | .complete file => fromFile = true ∧ file = some t.wholeFile

/-- The piece of this index has come in whole. -/
def Came (s : Reader) (index : Int) : Prop :=
  s.bytesOf = some index ∧ s.mDatasize = t.pieceSize index

/-- The step that brings a `read` on: the torrent has the piece, `on_read` brings all of it,
the wait ends when it is there, the bytes are copied. -/
def Delivers (fromFile : Bool) (s : Reader) (e : Event) : Prop :=
  match s.caller, e with
  | .asks index _, .query status false => Has t fromFile index status
  | .waits index _, .onRead piece size =>
    ¬ s.Came t index ∧ (piece : Int) = index ∧ (size : Int) = t.pieceSize index
  | .waits index _, .wake false => s.Came t index
  | .copies _ _, .copy => True
  | _, _ => False

/-- The buffer holds a piece, whole. -/
def Full (s : Reader) (index : Int) : Prop :=
  s.mDatasize = t.pieceSize index ∧
    ∀ k : Nat, (k : Int) < t.pieceSize index → s.mPieceBuffer k = t.pieceByte index k

/-- Whatever the buffer is said to hold it holds whole: no call is in the way, a piece that
`m_data_index` names is there, and so is one that came in. -/
structure Ready (s : Reader) : Prop where
  idle : ∃ v, s.caller = .returned v
  held : ∀ index, 0 ≤ index → s.mDataIndex = index → 0 < s.mDatasize → s.Full t index
  came : ∀ index, s.Came t index → s.Full t index

/-- **A `read` returns right**: no run in which every step brings it on goes on forever, and
one that cannot go on has returned the number of bytes wanted and given these bytes. -/
def ReadsRight (fromFile : Bool) (offset size : Int) : Prop :=
  ∀ s : Reader, s.Ready t → ∀ l : List Event,
    Along (step t) (Delivers t fromFile) (s.step t (.read offset size)) l →
      l.length ≤ 4 * t.wanted offset size + 4 ∧
      ((∃ e, Delivers t fromFile (run (step t) (s.step t (.read offset size)) l) e) ∨
        ((run (step t) (s.step t (.read offset size)) l).caller =
            .returned (t.wanted offset size) ∧
          ∃ new, (run (step t) (s.step t (.read offset size)) l).copied = new ++ s.copied ∧
            bytesGiven new = slice t.byte offset (offset + t.wanted offset size)))

/-- Nothing is wanted, or the sum of offset and size can be counted, and the bytes wanted by
an `int`, and the last piece wanted begins where an `int` can count, if it may come from the
file. -/
def InReach (fromFile : Bool) (offset size : Int) : Prop :=
  t.wanted offset size = 0 ∨ offset + size < 2 ^ 63 ∧ t.wanted offset size < 2 ^ 31 ∧
    (fromFile = true →
      (offset + t.wanted offset size - 1) / t.pieceLength * t.pieceLength < 2 ^ 31)

end Reader

/-! ## Pieces and positions -/

namespace TorrentInfo

variable (t : TorrentInfo)

theorem totalSize_le_mul : (t.totalSize : Int) ≤ t.numPieces * t.pieceLength := by
  have hL := t.pieceLength_pos
  have hmod := Nat.div_add_mod' (t.totalSize + t.pieceLength - 1) t.pieceLength
  have hlt := Nat.mod_lt (t.totalSize + t.pieceLength - 1) hL
  have hle : t.totalSize ≤ t.numPieces * t.pieceLength := by
    unfold numPieces
    omega
  exact_mod_cast hle

theorem all_pieces :
    (t.pieceLength : Int) * (t.numPieces - 1) + t.lastPieceSize = t.totalSize := by
  rw [lastPieceSize, pieceSize, if_pos rfl]
  ring

/-- A piece that begins inside the file ends inside it, and a piece before the last one has
the full length. -/
theorem pieceSize_spec {index : Int} (hlt : index * t.pieceLength < t.totalSize) :
    index < t.numPieces ∧
      t.pieceSize index = min (t.pieceLength : Int) (t.totalSize - index * t.pieceLength) := by
  have hS := t.totalSize_le_mul
  have hL : (0 : Int) < t.pieceLength := by exact_mod_cast t.pieceLength_pos
  have hindex : index < t.numPieces := by
    by_contra hge
    have := Int.mul_le_mul_of_nonneg_right (Int.not_lt.mp hge) hL.le
    omega
  refine ⟨hindex, ?_⟩
  have hpred := t.pred_numPieces_mul_lt
  unfold pieceSize
  split
  · rename_i hlast
    subst hlast
    have hring : ((t.numPieces : Int) - 1) * t.pieceLength =
      t.numPieces * t.pieceLength - t.pieceLength := by ring
    omega
  · rename_i hlast
    have hmul := Int.mul_le_mul_of_nonneg_right (show index + 1 ≤ t.numPieces - 1 by omega) hL.le
    have hring : (index + 1) * t.pieceLength = index * t.pieceLength + t.pieceLength := by ring
    omega

end TorrentInfo

namespace Reader

variable (t : TorrentInfo)

/-! ## What a request has still to read -/

/-- A request on its way from `offset` to `stop`, and the piece it is at. -/
structure Due (offset stop : Int) (index : Int) (r : Request) : Prop where
  from_le : offset ≤ r.offset
  got_eq : r.got = r.offset - offset
  size_eq : r.size = stop - r.offset
  size_pos : 0 < r.size
  index_eq : index = r.offset / t.pieceLength
  stage : match r.stage with
    | .head => r.offset % t.pieceLength ≠ 0
    | .body => t.pieceLength < r.size ∧ r.offset % t.pieceLength = 0
    | .tail => r.size ≤ t.pieceLength ∧ r.offset % t.pieceLength = 0

/-- The bytes that a request has been given. -/
def Given (before : List Copied) (offset upto : Int) (s : Reader) : Prop :=
  ∃ new, s.copied = new ++ before ∧ bytesGiven new = slice t.byte offset upto

variable {t} {before : List Copied} {offset stop index : Int} {r : Request} {s : Reader}

/-- The bytes that the next `memcpy` takes lie in its piece. -/
theorem Due.copy_spec (h : Due t offset stop index r) (h0 : 0 ≤ offset)
    (hstop : stop ≤ t.totalSize) (hfull : s.mDatasize = t.pieceSize index) :
    0 ≤ copyStart t r ∧ index * t.pieceLength + copyStart t r = r.offset ∧
      0 < s.copySize t r ∧ s.copySize t r ≤ r.size ∧
      copyStart t r + s.copySize t r ≤ t.pieceSize index ∧
      ((r.offset + s.copySize t r) % t.pieceLength = 0 ∨ s.copySize t r = r.size) ∧
      (r.stage = .tail → s.copySize t r = r.size) := by
  have hL : (0 : Int) < t.pieceLength := by exact_mod_cast t.pieceLength_pos
  have hoff : 0 ≤ r.offset := by have := h.from_le; omega
  have hsum := Int.mul_ediv_add_emod r.offset t.pieceLength
  have hmod0 := Int.emod_nonneg r.offset hL.ne'
  have hmodlt := Int.emod_lt_of_pos r.offset hL
  have hcomm : index * t.pieceLength = t.pieceLength * (r.offset / t.pieceLength) := by
    rw [h.index_eq]; ring
  have hsize := h.size_eq
  have hpos := h.size_pos
  have hpiece : t.pieceSize index =
      min (t.pieceLength : Int) (t.totalSize - index * t.pieceLength) :=
    (t.pieceSize_spec (by omega)).2
  have htmod : r.offset.tmod t.pieceLength = r.offset % t.pieceLength :=
    Int.tmod_eq_emod_of_nonneg hoff
  have hstage := h.stage
  unfold copyStart copySize
  cases hs : r.stage with
  | head =>
    rw [hs] at hstage
    simp only [htmod]
    refine ⟨hmod0, by omega, by omega, by omega, by omega, ?_, fun htail => by cases htail⟩
    by_cases hle : t.pieceLength - r.offset % t.pieceLength ≤ r.size
    · left
      rw [min_eq_left hle]
      have hnext : r.offset + (t.pieceLength - r.offset % t.pieceLength) =
          t.pieceLength * (r.offset / t.pieceLength + 1) := by
        rw [mul_add, mul_one]; omega
      rw [hnext, Int.mul_emod_right]
    · right
      omega
  | body =>
    rw [hs] at hstage
    simp only [hfull]
    refine ⟨le_refl 0, by omega, by omega, by omega, by omega, ?_, fun htail => by cases htail⟩
    left
    rw [hpiece, min_eq_left (by omega), Int.add_emod_right]
    exact hstage.2
  | tail =>
    rw [hs] at hstage
    simp only [hfull]
    exact ⟨le_refl 0, by omega, by omega, by omega, by omega, Or.inr (by omega), fun _ => by omega⟩

/-! ## The reader on its way -/

/-- Where a `read` from `offset` to `stop` stands. -/
def Placed (t : TorrentInfo) (before : List Copied) (offset stop : Int) (s : Reader) : Prop :=
  match s.caller with
  | .returned v => v = stop - offset ∧ s.Given t before offset stop
  | .asks index (some r) => Due t offset stop index r ∧ s.Given t before offset r.offset
  | .waits index (some r) => Due t offset stop index r ∧ s.Given t before offset r.offset
  | .copies index r => Due t offset stop index r ∧ s.Given t before offset r.offset ∧ s.Full t index
  | _ => False

/-- What a step that brings a `read` on keeps. -/
structure Reading (t : TorrentInfo) (before : List Copied) (offset stop : Int) (s : Reader) :
    Prop where
  placed : s.Placed t before offset stop
  held : s.caller.waiting = false → ∀ index, 0 ≤ index → s.mDataIndex = index →
    0 < s.mDatasize → s.Full t index
  came : ∀ index, s.Came t index → s.Full t index

instance (t : TorrentInfo) (s : Reader) (index : Int) : Decidable (s.Came t index) :=
  inferInstanceAs (Decidable (_ ∧ _))

/-- How many steps a `read` can still take. -/
def budget (t : TorrentInfo) (s : Reader) : Int :=
  match s.caller with
  | .asks _ (some r) => 4 * r.size
  | .waits index (some r) => if s.Came t index then 4 * r.size - 2 else 4 * r.size - 1
  | .copies _ r => 4 * r.size - 3
  | _ => 0

theorem Due.index_range (h : Due t offset stop index r) (hcounted : t.Counted)
    (h0 : 0 ≤ offset) (hstop : stop ≤ t.totalSize) :
    0 ≤ index ∧ index < t.numPieces ∧ index * t.pieceLength ≤ r.offset ∧
      index * t.pieceLength ≤ (stop - 1) / t.pieceLength * t.pieceLength ∧
      toInt32 (r.offset.tdiv t.pieceLength) = index := by
  have hL : (0 : Int) < t.pieceLength := by exact_mod_cast t.pieceLength_pos
  have hoff : 0 ≤ r.offset := by have := h.from_le; omega
  have hsize := h.size_eq
  have hpos := h.size_pos
  have hindex : 0 ≤ index := by
    rw [h.index_eq]
    exact Int.ediv_nonneg hoff hL.le
  have hle : index * t.pieceLength ≤ r.offset := by
    rw [h.index_eq]
    exact Int.ediv_mul_le _ hL.ne'
  have hlt : index < t.numPieces := (t.pieceSize_spec (by omega)).1
  have hcount := hcounted.numPieces_lt
  refine ⟨hindex, hlt, hle, ?_, ?_⟩
  · apply Int.mul_le_mul_of_nonneg_right _ hL.le
    rw [h.index_eq]
    exact Int.ediv_le_ediv hL (by omega)
  · rw [Int.tdiv_eq_ediv_of_nonneg hoff, ← h.index_eq]
    exact toInt32_of_lt (by omega) (by omega)

/-- After a `memcpy`, or at the beginning, `read` asks for the next piece or is done. -/
theorem goOn_placed (hcounted : t.Counted) (h0 : 0 ≤ offset) (hstop : stop ≤ t.totalSize)
    (hlt : stop - offset < 2 ^ 31) (hfrom : offset ≤ r.offset) (hgot : r.got = r.offset - offset)
    (hsize : r.size = stop - r.offset) (hsize0 : 0 ≤ r.size)
    (haligned : r.offset % t.pieceLength = 0 ∨ r.size = 0) (hc : s.caller = goOn t r)
    (hgiven : s.Given t before offset r.offset) :
    s.Placed t before offset stop ∧ s.budget t ≤ 4 * r.size ∧ s.caller.waiting = false := by
  by_cases hdone : r.size = 0
  · have hL := t.pieceLength_pos
    have hret : s.caller = .returned (stop - offset) := by
      rw [hc, goOn, if_neg (by omega), if_neg (by omega), toInt32_of_lt (by omega) (by omega)]
      congr 1
      omega
    rw [show r.offset = stop by omega] at hgiven
    simp only [Placed, budget, hret]
    exact ⟨⟨trivial, hgiven⟩, by omega, rfl⟩
  · have hmod := haligned.resolve_right hdone
    have hpos : 0 < r.size := by omega
    obtain ⟨stage, hdue, hask⟩ : ∃ stage,
        Due t offset stop (r.offset / t.pieceLength) { r with stage := stage } ∧
        s.caller = askFor t { r with stage := stage } := by
      by_cases hbody : t.pieceLength < r.size
      · refine ⟨.body, ⟨hfrom, hgot, hsize, hpos, rfl, hbody, hmod⟩, ?_⟩
        rw [hc, goOn, if_pos hbody]
      · refine ⟨.tail, ⟨hfrom, hgot, hsize, hpos, rfl, Int.not_lt.mp hbody, hmod⟩, ?_⟩
        rw [hc, goOn, if_neg hbody, if_pos hpos]
    rw [askFor, (hdue.index_range hcounted h0 hstop).2.2.2.2] at hask
    simp only [Placed, budget, hask]
    exact ⟨⟨hdue, hgiven⟩, le_refl _, rfl⟩

/-- A transfer of a whole piece fills the buffer with it. -/
theorem full_fill {bytes : Int → UInt8} {n : Int} (hn : n = t.pieceSize index)
    (hbytes : ∀ k : Nat, (k : Int) < n → bytes k = t.pieceByte index k) :
    (s.fill bytes n).Full t index := by
  refine ⟨hn, fun k hk => ?_⟩
  rw [← hn] at hk
  simp only [fill]
  rw [if_pos ⟨by omega, hk⟩]
  exact hbytes k hk

theorem came_fill_unique {s' : Reader} {j : Int} (hof : s'.bytesOf = some index)
    (hfull : s'.Full t index) (hcame : s'.Came t j) : s'.Full t j := by
  have hj : index = j := Option.some.inj (hof.symm.trans hcame.1)
  exact hj ▸ hfull

/-- The file of a complete torrent delivers a whole piece that begins where an `int` can
count. -/
theorem fileCount_wholeFile (h0 : 0 ≤ index) (hlt : index * t.pieceLength < t.totalSize)
    (hpos : index * t.pieceLength < 2 ^ 31) :
    toInt32 (index * t.pieceLength) = index * t.pieceLength ∧
      fileCount t t.wholeFile index = t.pieceSize index := by
  have hL : (0 : Int) < t.pieceLength := by exact_mod_cast t.pieceLength_pos
  have hmul : 0 ≤ index * t.pieceLength := Int.mul_nonneg h0 hL.le
  have hint : toInt32 (index * t.pieceLength) = index * t.pieceLength :=
    toInt32_of_lt (by omega) hpos
  have hsize := (t.pieceSize_spec hlt).2
  refine ⟨hint, ?_⟩
  simp only [fileCount, hint]
  rw [if_neg (by omega)]
  show max 0 (min (t.pieceSize index) ((t.totalSize : Int) - index * t.pieceLength)) = _
  omega

section Step

variable {fromFile : Bool}

theorem reading_query {status : TorrentStatus} (hcounted : t.Counted) (h0 : 0 ≤ offset)
    (hstop : stop ≤ t.totalSize)
    (hreach : fromFile = true → (stop - 1) / t.pieceLength * t.pieceLength < 2 ^ 31)
    (h : s.Reading t before offset stop) (hc : s.caller = .asks index (some r))
    (hhas : Has t fromFile index status) :
    (s.readPiece t index (some r) status false).Reading t before offset stop ∧
      (s.readPiece t index (some r) status false).budget t < s.budget t := by
  have hplaced := h.placed
  simp only [Placed, hc] at hplaced
  obtain ⟨hdue, hgiven⟩ := hplaced
  obtain ⟨hindex, hlt, hle, hlast, -⟩ := hdue.index_range hcounted h0 hstop
  have hpos := hdue.size_pos
  have hbudget : s.budget t = 4 * r.size := by simp only [budget, hc]
  have hwait : s.caller.waiting = false := by rw [hc]; rfl
  rw [hbudget]
  unfold readPiece
  rw [if_neg (by omega)]
  by_cases hcached : index = s.mDataIndex ∧ 0 < s.mDatasize
  · have hfull := h.held hwait index hindex hcached.1.symm hcached.2
    rw [if_pos hcached, succeed]
    refine ⟨⟨⟨hdue, hgiven, hfull⟩, fun _ => h.held hwait, h.came⟩, ?_⟩
    show 4 * r.size - 3 < 4 * r.size
    omega
  · rw [if_neg hcached]
    cases status with
    | pieces active bits =>
      rw [Has] at hhas
      simp only [hhas.1, hhas.2, Bool.and_self, if_true]
      refine ⟨⟨⟨hdue, hgiven⟩, fun hw => (by cases hw), h.came⟩, ?_⟩
      simp only [budget]
      split <;> omega
    | complete file =>
      obtain ⟨hfrom, rfl⟩ := hhas
      have hsize := hdue.size_eq
      obtain ⟨hint, hcount⟩ := fileCount_wholeFile (t := t) hindex (by omega)
        (by have := hreach hfrom; omega)
      have hfull : (s.readFile t t.wholeFile index (some r)).Full t index := by
        show (s.fill (fun k => t.byte (toInt32 (index * t.pieceLength) + k))
          (fileCount t t.wholeFile index)).Full t index
        refine full_fill hcount fun k _ => ?_
        rw [hint]
        rfl
      refine ⟨⟨⟨hdue, hgiven, hfull⟩, fun _ j _ hj _ => ?_, fun j hj => ?_⟩, ?_⟩
      · exact (show index = j from hj) ▸ hfull
      · exact came_fill_unique rfl hfull hj
      · show 4 * r.size - 3 < 4 * r.size
        omega

theorem reading_onRead {piece size : Nat} (h : s.Reading t before offset stop)
    (hc : s.caller = .waits index (some r)) (hnot : ¬ s.Came t index)
    (hpiece : (piece : Int) = index) (hsize : (size : Int) = t.pieceSize index) :
    (s.onRead t piece size).Reading t before offset stop ∧
      (s.onRead t piece size).budget t < s.budget t := by
  have hplaced := h.placed
  simp only [Placed, hc] at hplaced
  subst hpiece
  have hmin : min (size : Int) (t.pieceSize piece) = t.pieceSize piece := by omega
  have hfull : (s.onRead t piece size).Full t piece := by
    show (s.fill (t.pieceByte piece) (min size (t.pieceSize piece))).Full t piece
    exact full_fill hmin fun _ _ => rfl
  have hcame : (s.onRead t piece size).Came t piece := ⟨rfl, hfull.1⟩
  have hcaller : (s.onRead t piece size).caller = .waits piece (some r) := hc
  refine ⟨⟨?_, fun hw => ?_, fun j hj => came_fill_unique rfl hfull hj⟩, ?_⟩
  · simp only [Placed, hcaller]
    exact hplaced
  · rw [hcaller] at hw
    cases hw
  · simp only [budget, hcaller, hc]
    rw [if_pos hcame, if_neg hnot]
    omega

theorem reading_wake (h : s.Reading t before offset stop)
    (hc : s.caller = .waits index (some r)) (hcame : s.Came t index) :
    (s.afterWait t index (some r) false).Reading t before offset stop ∧
      (s.afterWait t index (some r) false).budget t < s.budget t := by
  have hplaced := h.placed
  simp only [Placed, hc] at hplaced
  have hfull := h.came index hcame
  have hbudget : s.budget t = 4 * r.size - 2 := by
    simp only [budget, hc]
    rw [if_pos hcame]
  rw [hbudget, afterWait, if_pos hcame.2, succeed]
  refine ⟨⟨⟨hplaced.1, hplaced.2, hfull⟩, fun _ j _ hj _ => ?_, h.came⟩, ?_⟩
  · exact (show index = j from hj) ▸ hfull
  · show 4 * r.size - 3 < 4 * r.size - 2
    omega

/-- What is copied out of a whole piece are the bytes of the file. -/
theorem Due.slice_eq (h : Due t offset stop index r) (h0 : 0 ≤ offset)
    (hstop : stop ≤ t.totalSize) (hfull : s.Full t index) :
    slice s.mPieceBuffer (copyStart t r) (copyStart t r + s.copySize t r) =
      slice t.byte r.offset (r.offset + s.copySize t r) := by
  obtain ⟨hstart, hat, hn, -, hin, -⟩ := h.copy_spec h0 hstop hfull.1
  apply slice_ext
  · rw [length_slice]
    congr 1
    omega
  · intro k hk
    rw [getElem?_slice _ (by omega)]
    obtain ⟨j, hj⟩ := Int.eq_ofNat_of_zero_le (show 0 ≤ copyStart t r + (k : Int) by omega)
    rw [hj, hfull.2 j (by omega), TorrentInfo.pieceByte, ← hj]
    congr 2
    omega

theorem bytesGiven_cons (c : Copied) (new : List Copied) :
    bytesGiven (c :: new) = bytesGiven new ++ c.bytes := by
  simp [bytesGiven]

theorem reading_copy (hcounted : t.Counted) (h0 : 0 ≤ offset) (hstop : stop ≤ t.totalSize)
    (hlt : stop - offset < 2 ^ 31) (h : s.Reading t before offset stop)
    (hc : s.caller = .copies index r) :
    (s.copy t index r).Reading t before offset stop ∧
      (s.copy t index r).budget t < s.budget t := by
  have hplaced := h.placed
  simp only [Placed, hc] at hplaced
  obtain ⟨hdue, ⟨new, hnew, hbytes⟩, hfull⟩ := hplaced
  obtain ⟨-, -, hn, hle, -, haligned, htail⟩ := hdue.copy_spec h0 hstop hfull.1
  have hfrom := hdue.from_le
  have hgot := hdue.got_eq
  have hsize := hdue.size_eq
  have hwait : s.caller.waiting = false := by rw [hc]; rfl
  have hgiven : (s.copy t index r).Given t before offset (r.offset + s.copySize t r) := by
    refine ⟨⟨index, copyStart t r, slice s.mPieceBuffer (copyStart t r)
      (copyStart t r + s.copySize t r)⟩ :: new, ?_, ?_⟩
    · show _ :: s.copied = _
      rw [hnew, List.cons_append]
    · rw [bytesGiven_cons, hbytes, hdue.slice_eq h0 hstop hfull]
      exact slice_append t.byte hfrom (by omega)
  have hcaller : (s.copy t index r).caller = afterCopy t r (s.copySize t r) := rfl
  have hbudget : s.budget t = 4 * r.size - 3 := by simp only [budget, hc]
  suffices hend : (s.copy t index r).Placed t before offset stop ∧
      (s.copy t index r).budget t ≤ 4 * (r.size - s.copySize t r) ∧
      (s.copy t index r).caller.waiting = false by
    exact ⟨⟨hend.1, fun _ => h.held hwait, h.came⟩, by omega⟩
  have hgoOn : ∀ stage, (s.copy t index r).caller = goOn t ⟨stage, r.offset + s.copySize t r,
      r.size - s.copySize t r, r.got + s.copySize t r⟩ →
      (s.copy t index r).Placed t before offset stop ∧
        (s.copy t index r).budget t ≤ 4 * (r.size - s.copySize t r) ∧
        (s.copy t index r).caller.waiting = false := fun stage hgo =>
    goOn_placed hcounted h0 hstop hlt (by dsimp only; omega) (by dsimp only; omega)
      (by dsimp only; omega) (by dsimp only; omega)
      (haligned.imp_right fun heq => by dsimp only; omega) hgo hgiven
  cases hstage : r.stage with
  | head => exact hgoOn .head (by rw [hcaller, afterCopy, hstage])
  | body => exact hgoOn .body (by rw [hcaller, afterCopy, hstage])
  | tail =>
    have heq := htail hstage
    have hret : (s.copy t index r).caller = .returned (stop - offset) := by
      rw [hcaller]
      simp only [afterCopy, hstage]
      rw [toInt32_of_lt (by omega) (by omega)]
      congr 1
      omega
    rw [show r.offset + s.copySize t r = stop by omega] at hgiven
    simp only [Placed, budget, hret]
    exact ⟨⟨trivial, hgiven⟩, by omega, rfl⟩

theorem step_query {o : Option Request} (hc : s.caller = .asks index o) (status : TorrentStatus)
    (cancel : Bool) : s.step t (.query status cancel) = s.readPiece t index o status cancel := by
  unfold step
  rw [hc]

theorem step_wake {o : Option Request} (hc : s.caller = .waits index o) (cancel : Bool) :
    s.step t (.wake cancel) = s.afterWait t index o cancel := by
  unfold step
  rw [hc]

theorem step_copy (hc : s.caller = .copies index r) : s.step t .copy = s.copy t index r := by
  unfold step
  rw [hc]

/-- **A step that brings a `read` on** keeps it on its way and uses up some of its budget. -/
theorem reading_step (hcounted : t.Counted) (h0 : 0 ≤ offset) (hstop : stop ≤ t.totalSize)
    (hlt : stop - offset < 2 ^ 31)
    (hreach : fromFile = true → (stop - 1) / t.pieceLength * t.pieceLength < 2 ^ 31)
    (h : s.Reading t before offset stop) {e : Event} (he : s.Delivers t fromFile e) :
    (s.step t e).Reading t before offset stop ∧ (s.step t e).budget t < s.budget t := by
  have hplaced := h.placed
  unfold Placed at hplaced
  unfold Delivers at he
  cases hc : s.caller with
  | returned v =>
    rw [hc] at he
    exact he.elim
  | asks index r =>
    rw [hc] at he hplaced
    cases r with
    | none => exact hplaced.elim
    | some r =>
      cases e with
      | query status cancel =>
        cases cancel with
        | true => exact he.elim
        | false =>
          rw [step_query hc]
          exact reading_query hcounted h0 hstop hreach h hc he
      | _ => exact he.elim
  | waits index r =>
    rw [hc] at he hplaced
    cases r with
    | none => exact hplaced.elim
    | some r =>
      cases e with
      | onRead piece size => exact reading_onRead h hc he.1 he.2.1 he.2.2
      | wake cancel =>
        cases cancel with
        | true => exact he.elim
        | false =>
          rw [step_wake hc]
          exact reading_wake h hc he
      | _ => exact he.elim
  | copies index r =>
    rw [hc] at he
    cases e with
    | copy =>
      rw [step_copy hc]
      exact reading_copy hcounted h0 hstop hlt h hc
    | _ => exact he.elim

end Step

theorem Reading.budget_nonneg (h : s.Reading t before offset stop) : 0 ≤ s.budget t := by
  have hplaced := h.placed
  unfold Placed at hplaced
  unfold budget
  split
  · rename_i hc
    rw [hc] at hplaced
    have := hplaced.1.size_pos
    omega
  · rename_i hc
    rw [hc] at hplaced
    have := hplaced.1.size_pos
    split <;> omega
  · rename_i hc
    rw [hc] at hplaced
    have := hplaced.1.size_pos
    omega
  · exact le_refl 0

/-- A `read` that has not returned can be brought on. -/
theorem Reading.goes_on (h : s.Reading t before offset stop) (hcounted : t.Counted)
    (h0 : 0 ≤ offset) (hstop : stop ≤ t.totalSize) (fromFile : Bool) :
    (∃ e, s.Delivers t fromFile e) ∨
      (s.caller = .returned (stop - offset) ∧ s.Given t before offset stop) := by
  have hplaced := h.placed
  unfold Placed at hplaced
  cases hc : s.caller with
  | returned v =>
    rw [hc] at hplaced
    exact Or.inr ⟨by rw [hplaced.1], hplaced.2⟩
  | asks index r =>
    refine Or.inl ⟨.query (.pieces true fun _ => true) false, ?_⟩
    unfold Delivers
    rw [hc]
    exact ⟨rfl, rfl⟩
  | waits index r =>
    left
    by_cases hcame : s.Came t index
    · refine ⟨.wake false, ?_⟩
      unfold Delivers
      rw [hc]
      exact hcame
    · cases r with
      | none => exact (by rw [hc] at hplaced; exact hplaced.elim)
      | some r =>
        rw [hc] at hplaced
        have hrange := hplaced.1.index_range hcounted h0 hstop
        have hsize := t.pieceSize_pos index
        refine ⟨.onRead index.toNat (t.pieceSize index).toNat, ?_⟩
        unfold Delivers
        rw [hc]
        exact ⟨hcame, Int.toNat_of_nonneg hrange.1, Int.toNat_of_nonneg hsize.le⟩
  | copies index r =>
    refine Or.inl ⟨.copy, ?_⟩
    unfold Delivers
    rw [hc]
    exact trivial

/-! ## A whole `read` -/

theorem step_read {v : Int} (hc : s.caller = .returned v) (offset size : Int) :
    s.step t (.read offset size) = { s with caller := startRead t offset size } := by
  unfold step
  rw [hc]

theorem not_delivers_of_returned {fromFile : Bool} {v : Int} (hc : s.caller = .returned v)
    (e : Event) : ¬ s.Delivers t fromFile e := by
  unfold Delivers
  rw [hc]
  exact fun h => h

theorem startRead_of_nonpos {size : Int}
    (hsize : min (toInt64 (offset + size)) t.totalSize ≤ offset) :
    startRead t offset size = .returned 0 := by
  simp only [startRead, t.all_pieces]
  rw [if_pos (by omega)]

theorem Ready.reading {size : Int} (h : s.Ready t) (hcounted : t.Counted) (h0 : 0 ≤ offset)
    (hsize : -2 ^ 63 ≤ size) (hsum : offset + size < 2 ^ 63) (hpos : 0 < t.wanted offset size)
    (hlt : t.wanted offset size < 2 ^ 31) :
    (s.step t (.read offset size)).Reading t s.copied offset (offset + t.wanted offset size) ∧
      (s.step t (.read offset size)).budget t ≤ 4 * t.wanted offset size := by
  obtain ⟨v, hv⟩ := h.idle
  rw [step_read hv]
  have hL : (0 : Int) < t.pieceLength := by exact_mod_cast t.pieceLength_pos
  have hint : toInt64 (offset + size) = offset + size := toInt64_of_lt (by omega) hsum
  have hstop : offset + t.wanted offset size = min (offset + size) t.totalSize := by
    unfold TorrentInfo.wanted at hpos ⊢
    omega
  have hgiven : ({ s with caller := startRead t offset size } : Reader).Given t s.copied
      offset offset := ⟨[], rfl, (slice_of_le t.byte (le_refl _)).symm⟩
  have hend : offset + t.wanted offset size ≤ t.totalSize := by omega
  suffices hplaced : ({ s with caller := startRead t offset size } : Reader).Placed t s.copied
      offset (offset + t.wanted offset size) ∧
      ({ s with caller := startRead t offset size } : Reader).budget t ≤
        4 * t.wanted offset size ∧
      (startRead t offset size).waiting = false by
    exact ⟨⟨hplaced.1, fun _ => h.held, h.came⟩, hplaced.2.1⟩
  have htmod : offset.tmod t.pieceLength = offset % t.pieceLength := Int.tmod_eq_emod_of_nonneg h0
  have hstart : startRead t offset size =
      if offset % t.pieceLength ≠ 0 then askFor t ⟨.head, offset, t.wanted offset size, 0⟩
      else goOn t ⟨.head, offset, t.wanted offset size, 0⟩ := by
    simp only [startRead, t.all_pieces, hint, ← hstop, htmod]
    rw [if_neg (by omega), show offset + t.wanted offset size - offset = t.wanted offset size by
      omega]
  by_cases hmod : offset % t.pieceLength = 0
  · rw [if_neg (not_not.mpr hmod)] at hstart
    exact goOn_placed (r := ⟨.head, offset, t.wanted offset size, 0⟩) hcounted h0 hend (by omega)
      (le_refl _) (by dsimp only; omega) (by dsimp only; omega) (by dsimp only; omega)
      (Or.inl hmod) hstart hgiven
  · rw [if_pos hmod] at hstart
    have hdue : Due t offset (offset + t.wanted offset size) (offset / t.pieceLength)
        ⟨.head, offset, t.wanted offset size, 0⟩ :=
      ⟨le_refl _, by dsimp only; omega, by dsimp only; omega, hpos, rfl, hmod⟩
    rw [askFor, (hdue.index_range hcounted h0 hend).2.2.2.2] at hstart
    simp only [Placed, budget, hstart]
    exact ⟨⟨hdue, hgiven⟩, le_refl _, rfl⟩

/-- A `read` in reach returns right. -/
theorem readsRight_of_inReach {size : Int} {fromFile : Bool} (hcounted : t.Counted)
    (h0 : 0 ≤ offset) (hlt : offset < 2 ^ 63) (hsize : -2 ^ 63 ≤ size)
    (hreach : InReach t fromFile offset size) : ReadsRight t fromFile offset size := by
  intro s hready l hl
  by_cases hnone : t.wanted offset size = 0
  · obtain ⟨v, hv⟩ := hready.idle
    have hstart : startRead t offset size = .returned 0 := by
      apply startRead_of_nonpos
      unfold TorrentInfo.wanted at hnone
      by_cases hsum : offset + size < 2 ^ 63
      · rw [toInt64_of_lt (by omega) hsum]
        omega
      · omega
    have hcaller : (s.step t (.read offset size)).caller = .returned 0 := by
      rw [step_read hv]
      exact hstart
    cases l with
    | nil =>
      refine ⟨by simp [hnone], Or.inr ⟨by rw [run_nil, hcaller, hnone], [], ?_, ?_⟩⟩
      · rw [run_nil, step_read hv]
        rfl
      · rw [hnone]
        exact (slice_of_le t.byte (by omega)).symm
    | cons e l => exact (not_delivers_of_returned hcaller e hl.1).elim
  · obtain ⟨hsum, hint, hfile⟩ := hreach.resolve_left hnone
    have hpos : 0 < t.wanted offset size := by
      unfold TorrentInfo.wanted at hnone ⊢
      omega
    have hstop : offset + t.wanted offset size ≤ t.totalSize := by
      unfold TorrentInfo.wanted at hpos ⊢
      omega
    obtain ⟨hreading, hbudget⟩ := hready.reading hcounted h0 hsize hsum hpos hint
    have hstep : ∀ (s' : Reader) (e : Event),
        s'.Reading t s.copied offset (offset + t.wanted offset size) →
        s'.Delivers t fromFile e →
        (s'.step t e).Reading t s.copied offset (offset + t.wanted offset size) ∧
          (s'.step t e).budget t < s'.budget t := fun s' e h he =>
      reading_step hcounted h0 hstop (by omega) hfile h he
    have hrun := along_run _ (fun s' e h he => (hstep s' e h he).1) l _ hreading hl
    have hlength := along_length_le _ (budget t) (fun s' e h he => (hstep s' e h he).1)
      (fun s' e h he => (hstep s' e h he).2) l _ hreading hl
    have hleft := hrun.budget_nonneg
    refine ⟨by omega, ?_⟩
    have hgoes := hrun.goes_on hcounted h0 hstop fromFile
    rw [show offset + t.wanted offset size - offset = t.wanted offset size by omega] at hgoes
    exact hgoes

end Reader

end DWindow.Torrent
