import DWindow.Torrent.Delivery

/-!
# How a `read` gets on

The loop over whole pieces goes on by `m_datasize`, and `read_piece` says that it succeeded
with whatever the file delivered, nothing included.  A file that ends before the piece, or
one whose position does not fit in an `int`, keeps `read` in its loop (`read_spins`).  Where
the file reaches every piece that the loop asks it for, and no `on_read` empties the buffer
before the `memcpy`, each round of the loop copies a byte or more and the rounds of a `read`
are no more than its bytes (`read_progresses`).
-/

namespace DWindow.Torrent

open CInt Slice Runs

namespace Event

/-- The call of a `read`. -/
def isRead : Event → Bool
  | .read _ _ => true
  | _ => false

end Event

namespace Caller

/-- The `read` that is under way. -/
def request : Caller → Option Request
  | .returned _ => none
  | .asks _ r => r
  | .waits _ r => r
  | .copies _ r => some r

/-- How many bytes the `read` under way has still to get. -/
def left (c : Caller) : Int :=
  match c.request with
  | some r => r.size
  | none => 0

end Caller

namespace Reader

variable (t : TorrentInfo)

/-- The file has a byte at the position where it is read. -/
def Reaches (f : Disk) (index : Int) : Prop :=
  0 ≤ toInt32 (index * t.pieceLength) ∧ toInt32 (index * t.pieceLength) < f.size

instance (f : Disk) (index : Int) : Decidable (Reaches t f index) :=
  inferInstanceAs (Decidable (_ ∧ _))

/-- In the loop over whole pieces: the file that is asked has a byte of the piece, and an
`on_read` between `read_piece` and the `memcpy` brings a byte. -/
def Fed (s : Reader) (e : Event) : Prop :=
  match s.caller, e with
  | .asks index (some r), .query (.complete (some f)) _ =>
    r.stage = .body → s.asksTorrent t = true → Reaches t f index
  | .copies _ r, .onRead _ size => r.stage = .body → 0 < size
  | _, _ => True

/-- A `memcpy` of the loop over whole pieces gives a byte or more. -/
def CopiesSome (s : Reader) (e : Event) : Prop :=
  ∀ index r, s.caller = .copies index r → r.stage = .body → e = .copy →
    ∃ c, (s.step t e).copied = c :: s.copied ∧ c.bytes ≠ []

/-- What a fed step keeps: the loop finds bytes to copy, and a `read` under way wants some. -/
structure Feeding (s : Reader) : Prop where
  fed : ∀ index r, s.caller = .copies index r → r.stage = .body → 0 < s.mDatasize
  left_pos : ∀ r ∈ s.caller.request, 0 < r.size

variable {t} {s : Reader} {index : Int} {o : Option Request} {r : Request}

/-! ## Where a call goes -/

/-- The loop goes on with a request that wants bytes, or it is done. -/
theorem goOn_request (t : TorrentInfo) (r : Request) :
    (∀ index q, goOn t r ≠ .copies index q) ∧ (∀ q ∈ (goOn t r).request, 0 < q.size) ∧
      (goOn t r).left ≤ max 0 r.size := by
  have hL : (0 : Int) < t.pieceLength := by exact_mod_cast t.pieceLength_pos
  unfold goOn
  split
  · refine ⟨fun _ _ h => (by cases h), fun q hq => ?_, le_max_right 0 r.size⟩
    cases hq
    dsimp only
    omega
  · split
    · refine ⟨fun _ _ h => (by cases h), fun q hq => ?_, le_max_right 0 r.size⟩
      cases hq
      assumption
    · exact ⟨fun _ _ h => (by cases h), fun q hq => (by cases hq), le_max_left 0 r.size⟩

theorem startRead_request (t : TorrentInfo) (offset size : Int) :
    (∀ index q, startRead t offset size ≠ .copies index q) ∧
      (∀ q ∈ (startRead t offset size).request, 0 < q.size) ∧
      (startRead t offset size).left ≤
        max 0 (min (toInt64 (offset + size)) t.totalSize - offset) := by
  simp only [startRead, t.all_pieces]
  split
  · exact ⟨fun _ _ h => (by cases h), fun q hq => (by cases hq), le_max_left 0 _⟩
  · rename_i hpos
    split
    · refine ⟨fun _ _ h => (by cases h), fun q hq => ?_, le_max_right 0 _⟩
      cases hq
      dsimp only
      omega
    · exact goOn_request t _

theorem fileCount_pos {f : Disk} (h : Reaches t f index) : 0 < fileCount t f index := by
  have hsize := t.pieceSize_pos index
  obtain ⟨h0, hlt⟩ := h
  unfold fileCount
  dsimp only
  rw [if_neg (by omega)]
  omega

theorem Feeding.left_nonneg (h : s.Feeding) : 0 ≤ s.caller.left := by
  unfold Caller.left
  split
  · rename_i r hr
    exact (h.left_pos r hr).le
  · exact le_refl 0

/-- A step that copies nothing and keeps the request, or ends the call. -/
theorem Feeding.keep {s' : Reader} (h : s.Feeding) (hcopied : s'.copied = s.copied)
    (hrequest : s'.caller.request = s.caller.request ∨ s'.caller.request = none)
    (hfed : ∀ index r, s'.caller = .copies index r → r.stage = .body → 0 < s'.mDatasize) :
    s'.Feeding ∧ (s'.copied.length : Int) + s'.caller.left ≤ s.copied.length + s.caller.left := by
  have hleft := h.left_nonneg
  rcases hrequest with hsame | hnone
  · refine ⟨⟨hfed, fun r hr => h.left_pos r (hsame ▸ hr)⟩, ?_⟩
    unfold Caller.left
    rw [hcopied, hsame]
  · refine ⟨⟨hfed, fun r hr => ?_⟩, ?_⟩
    · rw [hnone] at hr
      cases hr
    · have hzero : s'.caller.left = 0 := by rw [Caller.left, hnone]
      rw [hcopied, hzero]
      omega

theorem succeed_request (s : Reader) (index : Int) (o : Option Request) :
    (s.succeed index o).caller.request = o := by
  cases o <;> rfl

theorem fail_request (s : Reader) (index : Int) (o : Option Request) (cancel : Bool) :
    (s.fail index o cancel).caller.request = o ∨ (s.fail index o cancel).caller.request = none := by
  cases o with
  | none => exact Or.inl rfl
  | some r =>
    cases cancel with
    | true => exact Or.inr rfl
    | false => exact Or.inl rfl

theorem fail_ne_copies (s : Reader) (index : Int) (o : Option Request) (cancel : Bool) (j : Int)
    (r : Request) : (s.fail index o cancel).caller ≠ .copies j r := by
  intro h
  cases o with
  | none => cases h
  | some q => cases cancel <;> cases h

theorem fail_copied (s : Reader) (index : Int) (o : Option Request) (cancel : Bool) :
    (s.fail index o cancel).copied = s.copied := by
  cases o <;> rfl

theorem succeed_copied (s : Reader) (index : Int) (o : Option Request) :
    (s.succeed index o).copied = s.copied := by
  cases o <;> rfl

theorem succeed_mDatasize (s : Reader) (index : Int) (o : Option Request) :
    (s.succeed index o).mDatasize = s.mDatasize := by
  cases o <;> rfl

theorem succeed_copies {j : Int} (h : (s.succeed index o).caller = .copies j r) : o = some r := by
  have hrequest := succeed_request s index o
  rw [h] at hrequest
  exact hrequest.symm

theorem Feeding.fail (h : s.Feeding) (hc : s.caller.request = o) (index : Int) (cancel : Bool) :
    (s.fail index o cancel).Feeding ∧
      ((s.fail index o cancel).copied.length : Int) + (s.fail index o cancel).caller.left ≤
        s.copied.length + s.caller.left :=
  h.keep (fail_copied ..) (hc ▸ fail_request ..)
    fun _ _ hcopies _ => (fail_ne_copies _ _ _ _ _ _ hcopies).elim

/-- A `read_piece` that succeeds goes on with bytes when it is the loop that asked. -/
theorem Feeding.succeed {s' : Reader} (h : s.Feeding) (hc : s.caller.request = o)
    (hcopied : s'.copied = s.copied) (index : Int)
    (hpos : ∀ r, o = some r → r.stage = .body → 0 < s'.mDatasize) :
    (s'.succeed index o).Feeding ∧
      ((s'.succeed index o).copied.length : Int) + (s'.succeed index o).caller.left ≤
        s.copied.length + s.caller.left := by
  refine h.keep ((succeed_copied ..).trans hcopied) (Or.inl ?_) fun j r hcopies hbody => ?_
  · rw [succeed_request, hc]
  · rw [succeed_mDatasize]
    exact hpos r (succeed_copies hcopies) hbody

theorem Feeding.query (h : s.Feeding) (hc : s.caller = .asks index o) {status : TorrentStatus}
    {cancel : Bool} (hfed : s.Fed t (.query status cancel)) :
    (s.readPiece t index o status cancel).Feeding ∧
      ((s.readPiece t index o status cancel).copied.length : Int) +
        (s.readPiece t index o status cancel).caller.left ≤ s.copied.length + s.caller.left := by
  have hrequest : s.caller.request = o := by rw [hc]; rfl
  unfold readPiece
  split
  · exact h.keep rfl (Or.inr rfl) fun _ _ hcopies => (by cases hcopies)
  · rename_i hin
    split
    · rename_i hcached
      exact h.succeed hrequest rfl index fun _ _ _ => hcached.2
    · rename_i hcached
      cases status with
      | pieces active bits =>
        dsimp only
        split
        · exact h.keep rfl (Or.inl hrequest.symm) fun _ _ hcopies => (by cases hcopies)
        · exact h.fail hrequest index cancel
      | complete file =>
        cases file with
        | none => exact h.fail hrequest index cancel
        | some f =>
          dsimp only [readFile]
          refine h.succeed hrequest ?_ index fun r hr hbody => ?_
          · rfl
          subst hr
          have hasks : s.asksTorrent t = true := by
            simp only [asksTorrent, hc, Caller.asking, Caller.index, Bool.and_eq_true,
              Bool.not_eq_true', decide_eq_true_eq, decide_eq_false_iff_not, Bool.true_and,
              Bool.and_eq_false_iff]
            omega
          unfold Fed at hfed
          rw [hc] at hfed
          exact fileCount_pos (hfed hbody hasks)

theorem Feeding.wake (h : s.Feeding) (hc : s.caller = .waits index o) (cancel : Bool) :
    (s.afterWait t index o cancel).Feeding ∧
      ((s.afterWait t index o cancel).copied.length : Int) +
        (s.afterWait t index o cancel).caller.left ≤ s.copied.length + s.caller.left := by
  have hrequest : s.caller.request = o := by rw [hc]; rfl
  unfold afterWait
  split
  · rename_i hsize
    refine h.succeed hrequest ?_ index fun _ _ _ => ?_
    · rfl
    · show 0 < s.mDatasize
      rw [hsize]
      exact t.pieceSize_pos index
  · exact h.fail hrequest index cancel

theorem copy_caller (s : Reader) (index : Int) (r : Request) :
    (s.copy t index r).caller = afterCopy t r (s.copySize t r) := rfl

theorem copy_mDatasize (s : Reader) (index : Int) (r : Request) :
    (s.copy t index r).mDatasize = s.mDatasize := rfl

theorem copy_copied (s : Reader) (index : Int) (r : Request) :
    (s.copy t index r).copied = ⟨index, copyStart t r, slice s.mPieceBuffer (copyStart t r)
      (copyStart t r + s.copySize t r)⟩ :: s.copied := rfl

/-- A `memcpy` of the first piece or of the loop takes a byte or more. -/
theorem copySize_pos (h : s.Feeding) (hc : s.caller = .copies index r) (hstage : r.stage ≠ .tail) :
    0 < s.copySize t r := by
  have hL : (0 : Int) < t.pieceLength := by exact_mod_cast t.pieceLength_pos
  have hmod := Int.tmod_lt_of_pos r.offset hL
  have hsize := h.left_pos r (by rw [hc]; rfl)
  unfold copySize
  cases hr : r.stage with
  | head =>
    dsimp only
    omega
  | body => exact h.fed index r hc hr
  | tail => exact (hstage hr).elim

theorem Feeding.copy (h : s.Feeding) (hc : s.caller = .copies index r) :
    (s.copy t index r).Feeding ∧
      ((s.copy t index r).copied.length : Int) + (s.copy t index r).caller.left ≤
        s.copied.length + s.caller.left := by
  have hsize := h.left_pos r (by rw [hc]; rfl)
  have hleft : s.caller.left = r.size := by rw [hc]; rfl
  have hlength : ((s.copy t index r).copied.length : Int) = s.copied.length + 1 := by
    rw [copy_copied, List.length_cons]
    push_cast
    rfl
  have hcaller := copy_caller (t := t) s index r
  rw [hlength, hleft]
  by_cases hstage : r.stage = .tail
  · rw [afterCopy, hstage] at hcaller
    refine ⟨⟨fun j q hcopies => ?_, fun q hq => ?_⟩, ?_⟩
    · rw [hcaller] at hcopies
      cases hcopies
    · rw [hcaller] at hq
      cases hq
    · rw [hcaller]
      show _ + 1 + (0 : Int) ≤ _
      omega
  · have hpos := copySize_pos (t := t) h hc hstage
    have hgo : (s.copy t index r).caller = goOn t ⟨r.stage, r.offset + s.copySize t r,
        r.size - s.copySize t r, r.got + s.copySize t r⟩ := by
      rw [hcaller, afterCopy]
      cases hr : r.stage with
      | tail => exact (hstage hr).elim
      | _ => rfl
    obtain ⟨hne, hwants, hless⟩ := goOn_request t ⟨r.stage, r.offset + s.copySize t r,
        r.size - s.copySize t r, r.got + s.copySize t r⟩
    refine ⟨⟨fun j q hcopies => ?_, fun q hq => ?_⟩, ?_⟩
    · exact (hne j q (hgo.symm.trans hcopies)).elim
    · exact hwants q (hgo ▸ hq)
    · rw [hgo]
      dsimp only at hless
      omega

/-- **What a fed step keeps**; and with one `memcpy` more, there is a byte or more less to
get, unless a `read` begins. -/
theorem Feeding.step (h : s.Feeding) {e : Event} (hfed : s.Fed t e) :
    (s.step t e).Feeding ∧ (e.isRead = false →
      ((s.step t e).copied.length : Int) + (s.step t e).caller.left ≤
        s.copied.length + s.caller.left) := by
  have hsame : s.Feeding ∧ (e.isRead = false →
      (s.copied.length : Int) + s.caller.left ≤ s.copied.length + s.caller.left) :=
    ⟨h, fun _ => le_refl _⟩
  unfold Reader.step
  split
  · rename_i offset size _ _
    obtain ⟨hne, hwants, -⟩ := startRead_request t offset size
    refine ⟨⟨fun j q hcopies => (hne j q hcopies).elim, hwants⟩, fun hread => by cases hread⟩
  · rename_i index _ _
    have hkeep : Feeding { s with caller := .asks index none } ∧ _ := h.keep rfl (Or.inr rfl)
      fun _ _ hcopies => (by cases hcopies)
    exact ⟨hkeep.1, fun _ => hkeep.2⟩
  · rename_i hc
    have hquery := h.query hc hfed
    exact ⟨hquery.1, fun _ => hquery.2⟩
  · rename_i piece size
    have hkeep : (s.onRead t piece size).Feeding ∧ _ :=
        h.keep rfl (Or.inl rfl) fun j r hcopies hbody => by
      have hcaller : s.caller = .copies j r := hcopies
      unfold Fed at hfed
      rw [hcaller] at hfed
      have hsize := t.pieceSize_pos piece
      have hread : 0 < size := hfed hbody
      show 0 < min (size : Int) (t.pieceSize piece)
      omega
    exact ⟨hkeep.1, fun _ => hkeep.2⟩
  · rename_i hc
    have hwake := h.wake (t := t) hc ‹Bool›
    exact ⟨hwake.1, fun _ => hwake.2⟩
  · rename_i hc
    have hcopy := h.copy (t := t) hc
    exact ⟨hcopy.1, fun _ => hcopy.2⟩
  · exact hsame

theorem feeding_create (memory : Int → UInt8) (datasize : Int) :
    (create memory datasize).Feeding :=
  ⟨fun _ _ hcopies => (by cases hcopies), fun _ hr => (by cases hr)⟩

theorem Feeding.copiesSome (h : s.Feeding) (e : Event) : s.CopiesSome t e := by
  intro index r hc hbody he
  subst he
  have hpos := copySize_pos (t := t) h hc (by rw [hbody]; decide)
  rw [step_copy hc]
  refine ⟨_, rfl, fun hnil => ?_⟩
  have hlength := congrArg List.length hnil
  rw [length_slice] at hlength
  simp only [List.length_nil] at hlength
  omega

/-- **Every round of the loop over whole pieces gets on**, in every run whose steps are fed,
and a `read` takes no more rounds than it wants bytes. -/
theorem read_progresses (t : TorrentInfo) (memory : Int → UInt8) (datasize : Int)
    (events : List Event) (hfed : Along (step t) (Fed t) (create memory datasize) events) :
    Along (step t) (CopiesSome t) (create memory datasize) events ∧
      ∀ before offset size after, events = before ++ .read offset size :: after →
        (∃ v, (run (step t) (create memory datasize) before).caller = .returned v) →
        (∀ e ∈ after, e.isRead = false) →
          ((run (step t) (create memory datasize) events).copied.length : Int) ≤
            (run (step t) (create memory datasize) before).copied.length +
              max 0 (min (toInt64 (offset + size)) t.totalSize - offset) := by
  have hcreate := feeding_create memory datasize
  refine ⟨along_of_invariant Feeding (fun s e h he => (h.step he).1)
    (fun s e h _ => h.copiesSome e) events _ hcreate hfed, ?_⟩
  rintro before offset size after rfl ⟨v, hv⟩ hafter
  obtain ⟨hbefore, hread, hrest⟩ := (along_append before _ _).mp hfed
  have hfeeding := along_run Feeding (fun s e h he => (h.step he).1) before _ hcreate hbefore
  rw [run_append, run_cons]
  set s := run (Reader.step t) (create memory datasize) before with hs
  have hstart : s.step t (.read offset size) = { s with caller := startRead t offset size } :=
    step_read hv offset size
  have hnext := (hfeeding.step hread).1
  have hleft : (s.step t (.read offset size)).caller.left ≤
      max 0 (min (toInt64 (offset + size)) t.totalSize - offset) := by
    rw [hstart]
    exact (startRead_request t offset size).2.2
  have hcopied : (s.step t (.read offset size)).copied = s.copied := by rw [hstart]
  have hkeeps : ∀ (s' : Reader) (e : Event), s'.Feeding ∧
      (s'.copied.length : Int) + s'.caller.left ≤
        s.copied.length + (s.step t (.read offset size)).caller.left →
      s'.Fed t e ∧ e.isRead = false → (s'.step t e).Feeding ∧
      ((s'.step t e).copied.length : Int) + (s'.step t e).caller.left ≤
        s.copied.length + (s.step t (.read offset size)).caller.left := fun s' e h he =>
    ⟨(h.1.step he.1).1, ((h.1.step he.1).2 he.2).trans h.2⟩
  obtain ⟨hend, hrun⟩ := along_run _ hkeeps after _ ⟨hnext, by rw [hcopied]⟩
    (along_and_forall after _ hrest hafter)
  have hend := hend.left_nonneg
  omega

/-- Two rounds of the loop and the tail, from the file. -/
def threeRounds : List Event :=
  [.read 0 12, .query (.complete (some threePieces.wholeFile)) false, .copy,
    .query (.complete (some threePieces.wholeFile)) false, .copy,
    .query (.complete (some threePieces.wholeFile)) false, .copy]

theorem read_progresses_threePieces :
    ((run (step threePieces) (create (fun _ => 0) 0) threeRounds).copied.length : Int) ≤ 0 + 12 :=
  (read_progresses threePieces (fun _ => 0) 0 threeRounds
    ⟨trivial, fun _ _ => by decide, trivial, fun _ _ => by decide, trivial,
      fun _ _ => by decide, trivial, trivial⟩).2 [] 0 12 _ rfl ⟨0, rfl⟩ (by decide)

/-- One round of the loop, the whole file there. -/
def emptyRound : List Event := [.query (.complete (some beyondInt.wholeFile)) false, .copy]

/-- Two pieces from 2 GiB on. -/
def fromTwoGib : Request := ⟨.body, 2147483648, 8388608, 0⟩

/-- A round at 2 GiB gets nothing and leaves the `read` where it was. -/
theorem emptyRound_spins (hc : s.caller = .asks 512 (some fromTwoGib)) (hsize : s.mDatasize = 0) :
    (run (step beyondInt) s emptyRound).caller = .asks 512 (some fromTwoGib) ∧
      (run (step beyondInt) s emptyRound).mDatasize = 0 ∧
      (run (step beyondInt) s emptyRound).copied = ⟨512, 0, []⟩ :: s.copied := by
  have hcount : fileCount beyondInt beyondInt.wholeFile 512 = 0 := by decide
  have hread : s.readPiece beyondInt 512 (some fromTwoGib)
      (.complete (some beyondInt.wholeFile)) false =
        s.readFile beyondInt beyondInt.wholeFile 512 (some fromTwoGib) := by
    unfold readPiece
    rw [if_neg (by decide), if_neg (by omega)]
  have hempty : (s.readFile beyondInt beyondInt.wholeFile 512 (some fromTwoGib)).mDatasize = 0 := by
    simp only [readFile, succeed_mDatasize, fill]
    exact hcount
  have hzero : (s.readFile beyondInt beyondInt.wholeFile 512 (some fromTwoGib)).copySize beyondInt
      fromTwoGib = 0 := hempty
  have hgo : afterCopy beyondInt fromTwoGib 0 = .asks 512 (some fromTwoGib) := by decide
  have hcopies : (s.readFile beyondInt beyondInt.wholeFile 512 (some fromTwoGib)).caller =
      .copies 512 fromTwoGib := rfl
  have hrun : run (step beyondInt) s emptyRound =
      (s.readFile beyondInt beyondInt.wholeFile 512 (some fromTwoGib)).copy beyondInt 512
        fromTwoGib := by
    show (s.step beyondInt _).step beyondInt .copy = _
    rw [step_query hc, hread, step_copy hcopies]
  rw [hrun]
  refine ⟨?_, ?_, ?_⟩
  · rw [copy_caller, hzero, hgo]
  · rw [copy_mDatasize, hempty]
  · rw [copy_copied, hzero]
    rfl

theorem emptyRounds_spin (n : Nat) :
    (run (step beyondInt) (create (fun _ => 0) 0)
      (.read 2147483648 8388608 :: (List.replicate n emptyRound).flatten)).caller =
        .asks 512 (some fromTwoGib) ∧
      (run (step beyondInt) (create (fun _ => 0) 0)
        (.read 2147483648 8388608 :: (List.replicate n emptyRound).flatten)).copied =
          List.replicate n ⟨512, 0, []⟩ := by
  suffices hspins : ∀ n (s : Reader), s.caller = .asks 512 (some fromTwoGib) → s.mDatasize = 0 →
      (run (step beyondInt) s (List.replicate n emptyRound).flatten).caller =
        .asks 512 (some fromTwoGib) ∧
      (run (step beyondInt) s (List.replicate n emptyRound).flatten).copied =
        List.replicate n ⟨512, 0, []⟩ ++ s.copied by
    have hstart : ((create (fun _ => 0) 0).step beyondInt (.read 2147483648 8388608)).caller =
        .asks 512 (some fromTwoGib) := by decide
    obtain ⟨hcaller, hcopied⟩ := hspins n _ hstart rfl
    rw [run_cons]
    exact ⟨hcaller, hcopied.trans (List.append_nil _)⟩
  intro n
  induction n with
  | zero => exact fun s hc _ => ⟨hc, rfl⟩
  | succ n ih =>
    intro s hc hsize
    obtain ⟨hcaller, hempty, hcopied⟩ := emptyRound_spins hc hsize
    obtain ⟨hend, hall⟩ := ih _ hcaller hempty
    rw [List.replicate_succ, List.flatten_cons, run_append]
    refine ⟨hend, ?_⟩
    rw [hall, hcopied, List.replicate_succ', List.append_assoc]
    rfl

/-- **At 2 GiB the loop goes on forever** and gives no byte. -/
theorem read_spins : ¬ ∃ n,
    (run (step beyondInt) (create (fun _ => 0) 0)
      (.read 2147483648 8388608 :: (List.replicate n emptyRound).flatten)).caller ≠
        .asks 512 (some fromTwoGib) ∨
      ∃ c ∈ (run (step beyondInt) (create (fun _ => 0) 0)
        (.read 2147483648 8388608 :: (List.replicate n emptyRound).flatten)).copied,
        c.bytes ≠ [] := by
  rintro ⟨n, hleaves | ⟨c, hc, hbytes⟩⟩
  · exact hleaves (emptyRounds_spin n).1
  · rw [(emptyRounds_spin n).2] at hc
    rw [List.eq_of_mem_replicate hc] at hbytes
    exact hbytes rfl

end Reader

end DWindow.Torrent
