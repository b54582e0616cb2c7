import DWindow.E3D.Afresh

/-!
# Where the reader believes its file to be

`ReadFile` seeks only when `m_file_pos_cache` says that the file is elsewhere.  Three
things make that wrong: a header whose leaves do not end at `m_start_in_file`, calls
that are passed through to the handle while no key is accepted, since they move its
pointer and nothing else (`read_before_key_incoherent`), and a read of blocks that the
file does not hold, since the reader counts them as read.

`seekPoints` are the states in which a `ReadFile` looks at the value.  In a run without
these three things all of them are coherent, and the pointer ends up at the block that
is meant (`run_seekPoints_coherent`).
-/

namespace DWindow.E3D

open Blocks ByteFile CInt Runs
open FileReader (MoveMethod)

/-- A call on a `file_reader`. -/
inductive FileCall where
  | setFile (fuel : Nat) (file : ByteFile)
  | call (a : ReaderCall)

namespace FileReader

/-- The reader after a call; a `SetFile` that does not come back leaves it as it was. -/
def afterCall (aes : AESCryptor) (r : FileReader) : FileCall → FileReader
  | .setFile fuel file => (setFile fuel r file).getD r
  | .call a => (r.answer aes a).1

/-- `m_file_pos_cache` is where the file is. -/
def Coherent (r : FileReader) : Prop := r.mFilePosCache = r.mFile.pos

instance (r : FileReader) : Decidable r.Coherent := inferInstanceAs (Decidable (_ = _))

/-- The first position of the block of `m_pos`. -/
def block (r : FileReader) : Int := r.mPos.tdiv r.mBlockSize * r.mBlockSize

/-- The states in which a `ReadFile` decides whether to seek, each with the position in
the file that it means. -/
def seekPoints (aes : AESCryptor) (r : FileReader) (nToRead : Nat) : List (FileReader × Int) :=
  if r.decrypting = false ∨ r.clipped nToRead = 0 ∨ r.mPos < 0 then []
  else
    let head := r.readHead aes (r.clipped nToRead)
    let body := head.1.readBody aes head.2.1
    (if r.mPos.tmod r.mBlockSize ≠ 0 ∧ r.mCachePos ≠ r.block then
      [({ r with mCachePos := r.block }, r.mStartInFile + r.block)] else []) ++
    (if head.2.1 > toDWORD head.1.mBlockSize then [(head.1, head.1.mPos + head.1.mStartInFile)]
      else []) ++
    if body.2.1 > 0 then
      [({ body.1 with mCachePos := body.1.mPos }, body.1.mPos + body.1.mStartInFile)] else []

def headLength (r : FileReader) (n : Nat) : Nat :=
  if r.mPos.tmod r.mBlockSize ≠ 0 then (min (r.block + r.mBlockSize - r.mPos) n).toNat else 0

/-- The file holds the block that the head reads and the blocks that the body reads. -/
def HoldsBlocks (r : FileReader) (n : Nat) : Prop :=
  (r.mPos.tmod r.mBlockSize ≠ 0 → r.mCachePos ≠ r.block →
    r.mStartInFile + r.block + r.mBlockSize ≤ r.mFile.data.length) ∧
  (n - r.headLength n > toDWORD r.mBlockSize →
    r.mPos + r.headLength n + r.mStartInFile +
      ((n - r.headLength n) / toDWORD r.mBlockSize * toDWORD r.mBlockSize : Nat) ≤
        r.mFile.data.length)

instance (r : FileReader) (n : Nat) : Decidable (r.HoldsBlocks n) :=
  inferInstanceAs (Decidable (_ ∧ _))

/-- The header of an accepted file has a block size and ends where its blocks begin. -/
def HeaderEnds (r : FileReader) : Prop :=
  r.mIsEncrypted = true → 0 < r.mBlockSize ∧ r.mStartInFile = r.mFile.pos

instance (r : FileReader) : Decidable r.HeaderEnds := inferInstanceAs (Decidable (_ → _))

/-- A call that does none of the three things: the header of the file ends where its
blocks begin; a key is accepted when the calls passed through before it have brought the
pointer back; and a request finds its blocks in the file. -/
def Careful (aes : AESCryptor) (r : FileReader) : FileCall → Prop
  | .setFile fuel file => ∀ r' ∈ setFile fuel r file, r'.HeaderEnds
  | .call (.setKey key) => r.decrypting = false → (r.setKey aes key).decrypting = true →
      r.mFilePosCache = r.mFile.pos
  | .call (.op (.read n)) => r.decrypting = true → r.HoldsBlocks (r.clipped n)
  | .call (.op _) => True

instance (aes : AESCryptor) (r : FileReader) : ∀ a : FileCall, Decidable (r.Careful aes a)
  | .setFile fuel file =>
    inferInstanceAs (Decidable (∀ r' ∈ setFile fuel r file, r'.HeaderEnds))
  | .call (.setKey key) => inferInstanceAs (Decidable (r.decrypting = false →
      (r.setKey aes key).decrypting = true → r.mFilePosCache = r.mFile.pos))
  | .call (.op (.read n)) =>
    inferInstanceAs (Decidable (r.decrypting = true → r.HoldsBlocks (r.clipped n)))
  | .call (.op .getFileSize) => isTrue trivial
  | .call (.op (.seek _ _)) => isTrue trivial

/-! ## The invariant -/

/-- An accepted file has a block size and a place for its blocks, and while it is
decrypted the reader knows where it is. -/
structure Tracked (r : FileReader) : Prop where
  blockSize : r.mIsEncrypted = true → 0 < r.mBlockSize
  startInFile : r.mIsEncrypted = true → 0 ≤ r.mStartInFile
  coherent : r.decrypting = true → r.Coherent

structure SameFile (r r' : FileReader) : Prop where
  data : r'.mFile.data = r.mFile.data
  blockSize : r'.mBlockSize = r.mBlockSize
  startInFile : r'.mStartInFile = r.mStartInFile
  isEncrypted : r'.mIsEncrypted = r.mIsEncrypted
  keyOk : r'.mKeyOk = r.mKeyOk

theorem SameFile.refl (r : FileReader) : SameFile r r := ⟨rfl, rfl, rfl, rfl, rfl⟩

theorem SameFile.trans {r r' r'' : FileReader} (h : SameFile r r') (h' : SameFile r' r'') :
    SameFile r r'' :=
  ⟨h'.data.trans h.data, h'.blockSize.trans h.blockSize, h'.startInFile.trans h.startInFile,
    h'.isEncrypted.trans h.isEncrypted, h'.keyOk.trans h.keyOk⟩

structure Ready (r : FileReader) : Prop where
  coherent : r.Coherent
  blockSize : 0 < r.mBlockSize
  startInFile : 0 ≤ r.mStartInFile
  pos : 0 ≤ r.mPos

/-- **A seek from a coherent state** leads to the position that is meant. -/
theorem seekTo_coherent {r : FileReader} (h : r.Coherent) {target : Int} (h₀ : 0 ≤ target) :
    (r.seekTo target).Coherent ∧ ((r.seekTo target).mFile.pos : Int) = target := by
  unfold seekTo
  split
  · have hpos : ((r.mFile.seekSet target.toNat).pos : Int) = target := Int.toNat_of_nonneg h₀
    exact ⟨hpos.symm, hpos⟩
  · next heq =>
    rw [ne_eq, not_not] at heq
    exact ⟨h, h.symm.trans heq.symm⟩

theorem seekTo_withCachePos {r : FileReader} (h : r.Coherent) (c : Int) {target : Int}
    (h₀ : 0 ≤ target) : Coherent { r with mCachePos := c } ∧
      ((seekTo { r with mCachePos := c } target).mFile.pos : Int) = target :=
  ⟨h, (seekTo_coherent (r := { r with mCachePos := c }) h h₀).2⟩

theorem seekTo_kept (r : FileReader) (target : Int) : SameFile r (r.seekTo target) ∧
    (r.seekTo target).mPos = r.mPos ∧ (r.seekTo target).mCachePos = r.mCachePos := by
  unfold seekTo
  split <;> exact ⟨⟨rfl, rfl, rfl, rfl, rfl⟩, rfl, rfl⟩

/-! ## The parts of a read -/

section

variable {r : FileReader}

theorem Ready.block_le (h : r.Ready) : 0 ≤ r.block ∧ r.block ≤ r.mPos ∧
    r.mPos < r.block + r.mBlockSize := by
  have hpos := h.pos
  have hsize := h.blockSize
  have hdiv := Int.tdiv_mul_add_tmod r.mPos r.mBlockSize
  have hmod := Int.tmod_nonneg r.mBlockSize hpos
  have hlt := Int.tmod_lt_of_pos r.mPos hsize
  have hquot : 0 ≤ r.mPos.tdiv r.mBlockSize := Int.tdiv_nonneg hpos (by omega)
  rw [block]
  exact ⟨Int.mul_nonneg hquot (by omega), by omega, by omega⟩

/-- **The block of the head** is read from its place, and the reader knows where that
leaves the file. -/
theorem Ready.cacheBlock (aes : AESCryptor) (h : r.Ready)
    (hholds : r.mCachePos ≠ r.block →
      r.mStartInFile + r.block + r.mBlockSize ≤ r.mFile.data.length) :
    (r.cacheBlock aes).Ready ∧ SameFile r (r.cacheBlock aes) ∧ (r.cacheBlock aes).mPos = r.mPos ∧
      (r.cacheBlock aes).mCachePos = r.block := by
  have hblock_eq : r.mPos.tdiv r.mBlockSize * r.mBlockSize = r.block := rfl
  unfold FileReader.cacheBlock
  dsimp only
  rw [hblock_eq]
  by_cases hcached : r.mCachePos = r.block
  · rw [if_neg (not_not_intro hcached)]
    exact ⟨h, SameFile.refl r, rfl, hcached⟩
  · have hblock := h.block_le.1
    have hstart := h.startInFile
    have hsize := h.blockSize
    have hfits := hholds hcached
    have hcoherent : Coherent { r with mCachePos := r.block } := h.coherent
    obtain ⟨hs, hspos⟩ := @seekTo_coherent _ hcoherent (r.mStartInFile + r.block) (by omega)
    obtain ⟨hkept, hmpos, hmcache⟩ :=
      seekTo_kept { r with mCachePos := r.block } (r.mStartInFile + r.block)
    rw [if_pos hcached]
    revert hs hspos hkept hmpos hmcache
    generalize seekTo { r with mCachePos := r.block } (r.mStartInFile + r.block) = s
    intro hs hspos hkept hmpos hmcache
    have hdata := hkept.data
    have hbs := hkept.blockSize
    have hst := hkept.startInFile
    dsimp only at hdata hbs hst hmpos hmcache
    have hread :
        ((s.mFile.afterRead s.mBlockSize.toNat).pos : Int) = s.mFile.pos + s.mBlockSize := by
      rw [ByteFile.afterRead_pos_of_le (by rw [hdata]; omega)]
      omega
    refine ⟨⟨?_, ?_, ?_, ?_⟩, ⟨hdata, hbs, hst, hkept.isEncrypted, hkept.keyOk⟩, hmpos, hmcache⟩
    · exact (congrArg (· + s.mBlockSize) hs).trans hread.symm
    · exact hbs ▸ hsize
    · exact hst ▸ hstart
    · exact hmpos ▸ h.pos

theorem Ready.readHead (aes : AESCryptor) (h : r.Ready) (n : Nat)
    (hholds : r.mPos.tmod r.mBlockSize ≠ 0 → r.mCachePos ≠ r.block →
      r.mStartInFile + r.block + r.mBlockSize ≤ r.mFile.data.length) :
    (r.readHead aes n).1.Ready ∧ SameFile r (r.readHead aes n).1 ∧
      (r.readHead aes n).1.mPos = r.mPos + r.headLength n ∧
      (r.readHead aes n).2.1 = n - r.headLength n := by
  unfold FileReader.readHead headLength
  by_cases hmid : r.mPos.tmod r.mBlockSize = 0
  · rw [if_neg (not_not_intro hmid), if_neg (not_not_intro hmid)]
    exact ⟨h, SameFile.refl r, (Int.add_zero _).symm, rfl⟩
  · obtain ⟨hready, hkept, hpos, hcache⟩ := h.cacheBlock aes (hholds hmid)
    have hblock := h.block_le
    rw [if_pos hmid, if_pos hmid]
    dsimp only
    rw [hpos, hcache, hkept.blockSize]
    have hnonneg : 0 ≤ min (r.block + r.mBlockSize - r.mPos) (n : Int) := by omega
    have hmpos := h.pos
    refine ⟨⟨hready.coherent, h.blockSize, hready.startInFile, ?_⟩, ⟨hkept.data, rfl,
      hkept.startInFile, hkept.isEncrypted, hkept.keyOk⟩, ?_, rfl⟩
    · change 0 ≤ r.mPos + _
      omega
    · omega

theorem Ready.readBody (aes : AESCryptor) (h : r.Ready) (n : Nat)
    (hholds : n > toDWORD r.mBlockSize → r.mPos + r.mStartInFile +
      (n / toDWORD r.mBlockSize * toDWORD r.mBlockSize : Nat) ≤ r.mFile.data.length) :
    (r.readBody aes n).1.Ready ∧ SameFile r (r.readBody aes n).1 := by
  unfold FileReader.readBody
  by_cases hbody : n > toDWORD r.mBlockSize
  · have hstart := h.startInFile
    have hmpos := h.pos
    have hfits := hholds hbody
    obtain ⟨hs, hspos⟩ := @seekTo_coherent _ h.coherent (r.mPos + r.mStartInFile) (by omega)
    obtain ⟨hkept, hpos, -⟩ := seekTo_kept r (r.mPos + r.mStartInFile)
    rw [if_pos hbody]
    dsimp only
    revert hs hspos hkept hpos
    generalize seekTo r (r.mPos + r.mStartInFile) = s
    intro hs hspos hkept hpos
    rw [hkept.blockSize]
    have hdata := hkept.data
    have hread : ((s.mFile.afterRead (n / toDWORD r.mBlockSize * toDWORD r.mBlockSize)).pos : Int) =
        s.mFile.pos + (n / toDWORD r.mBlockSize * toDWORD r.mBlockSize : Nat) := by
      rw [ByteFile.afterRead_pos_of_le (by rw [hdata]; omega), Int.natCast_add]
    refine ⟨⟨?_, hkept.blockSize ▸ h.blockSize, hkept.startInFile ▸ h.startInFile, ?_⟩,
      ⟨hdata, hkept.blockSize, hkept.startInFile, hkept.isEncrypted, hkept.keyOk⟩⟩
    · exact (congrArg (· + ((n / toDWORD r.mBlockSize * toDWORD r.mBlockSize : Nat) : Int))
        hs).trans hread.symm
    · change 0 ≤ s.mPos + _
      omega
  · rw [if_neg hbody]
    exact ⟨h, SameFile.refl r⟩

/-- **The tail** of a request, which counts what it was given. -/
theorem Ready.readTail (aes : AESCryptor) (h : r.Ready) (n : Nat) :
    (r.readTail aes n).1.Ready ∧ SameFile r (r.readTail aes n).1 := by
  unfold FileReader.readTail
  by_cases htail : n > 0
  · have hstart := h.startInFile
    have hmpos := h.pos
    have hcoherent : Coherent { r with mCachePos := r.mPos } := h.coherent
    obtain ⟨hs, hspos⟩ := @seekTo_coherent _ hcoherent (r.mPos + r.mStartInFile) (by omega)
    obtain ⟨hkept, hpos, -⟩ := seekTo_kept { r with mCachePos := r.mPos } (r.mPos + r.mStartInFile)
    rw [if_pos htail]
    dsimp only
    revert hs hspos hkept hpos
    generalize seekTo { r with mCachePos := r.mPos } (r.mPos + r.mStartInFile) = s
    intro hs hspos hkept hpos
    dsimp only at hpos
    have hread : ((s.mFile.afterRead s.mBlockSize.toNat).pos : Int) =
        s.mFile.pos + (s.osRead s.mBlockSize.toNat).length := Int.natCast_add ..
    refine ⟨⟨?_, hkept.blockSize ▸ h.blockSize, hkept.startInFile ▸ h.startInFile, ?_⟩,
      ⟨hkept.data, hkept.blockSize, hkept.startInFile, hkept.isEncrypted, hkept.keyOk⟩⟩
    · exact (congrArg (· + ((s.osRead s.mBlockSize.toNat).length : Int)) hs).trans hread.symm
    · change 0 ≤ s.mPos + _
      omega
  · rw [if_neg htail]
    exact ⟨h, SameFile.refl r⟩

theorem Tracked.ready (h : r.Tracked) (hdecrypting : r.decrypting = true) (hpos : ¬ r.mPos < 0) :
    r.Ready := by
  have hencrypted : r.mIsEncrypted = true := (Bool.and_eq_true_iff.mp hdecrypting).1
  exact ⟨h.coherent hdecrypting, h.blockSize hencrypted, h.startInFile hencrypted,
    Int.not_lt.mp hpos⟩

theorem HoldsBlocks.body {n : Nat} (h : r.HoldsBlocks n) {r' : FileReader} {n' : Nat}
    (hsame : SameFile r r') (hpos : r'.mPos = r.mPos + r.headLength n)
    (hn : n' = n - r.headLength n) :
    n' > toDWORD r'.mBlockSize → r'.mPos + r'.mStartInFile +
      (n' / toDWORD r'.mBlockSize * toDWORD r'.mBlockSize : Nat) ≤ r'.mFile.data.length := by
  rw [hsame.blockSize, hsame.data, hsame.startInFile, hpos, hn]
  exact h.2

/-- **A read keeps track of the file**, and every decision of it is coherent. -/
theorem Tracked.readFile (aes : AESCryptor) (h : r.Tracked) (n : Nat)
    (hholds : r.decrypting = true → r.HoldsBlocks (r.clipped n)) :
    (r.readFile aes n).1.Tracked ∧ ∀ p ∈ r.seekPoints aes n,
      p.1.Coherent ∧ ((p.1.seekTo p.2).mFile.pos : Int) = p.2 := by
  cases hdecrypting : r.decrypting with
  | false =>
    rw [readFile_plain aes hdecrypting, seekPoints, if_pos (Or.inl hdecrypting)]
    exact ⟨⟨h.blockSize, h.startInFile, fun hd => absurd (hdecrypting.symm.trans hd) (by decide)⟩,
      fun p hp => absurd hp List.not_mem_nil⟩
  | true =>
    by_cases hn : r.clipped n = 0 ∨ r.mPos < 0
    · rw [readFile_refused aes hdecrypting hn, seekPoints, if_pos (Or.inr hn)]
      exact ⟨h, fun p hp => absurd hp List.not_mem_nil⟩
    · have hready := h.ready hdecrypting fun hneg => hn (Or.inr hneg)
      have hblocks := hholds hdecrypting
      obtain ⟨hhead, hsame₁, hpos, hleft⟩ := hready.readHead aes (r.clipped n) hblocks.1
      obtain ⟨hbody, hsame₂⟩ := hhead.readBody aes (r.readHead aes (r.clipped n)).2.1
        (hblocks.body hsame₁ hpos hleft)
      obtain ⟨htail, hsame₃⟩ := hbody.readTail aes
        ((r.readHead aes (r.clipped n)).1.readBody aes (r.readHead aes (r.clipped n)).2.1).2.1
      refine ⟨?_, ?_⟩
      · rw [readFile_decrypting aes hdecrypting hn]
        exact ⟨fun _ => htail.blockSize, fun _ => htail.startInFile, fun _ => htail.coherent⟩
      · rw [seekPoints, if_neg (by rw [hdecrypting]; simpa using hn)]
        intro p hp
        rcases List.mem_append.mp hp with hp | hp
        · rcases List.mem_append.mp hp with hp | hp
          · split at hp
            · rw [List.mem_singleton.mp hp]
              exact seekTo_withCachePos hready.coherent r.block
                (Int.add_nonneg hready.startInFile hready.block_le.1)
            · exact absurd hp List.not_mem_nil
          · split at hp
            · rw [List.mem_singleton.mp hp]
              exact ⟨hhead.coherent, (seekTo_coherent hhead.coherent
                (Int.add_nonneg hhead.pos hhead.startInFile)).2⟩
            · exact absurd hp List.not_mem_nil
        · split at hp
          · rw [List.mem_singleton.mp hp]
            exact seekTo_withCachePos hbody.coherent _ (Int.add_nonneg hbody.pos hbody.startInFile)
          · exact absurd hp List.not_mem_nil

end

/-! ## Runs -/

/-- **A careful call keeps track of the file.** -/
theorem Tracked.afterCall (aes : AESCryptor) {r : FileReader} (h : r.Tracked) {a : FileCall}
    (ha : r.Careful aes a) : (r.afterCall aes a).Tracked := by
  cases a with
  | setFile fuel file =>
    cases hset : FileReader.setFile fuel r file with
    | none => rw [FileReader.afterCall, hset]; exact h
    | some r' =>
      have hends := ha r' hset
      rw [FileReader.afterCall, hset, Option.getD_some]
      refine ⟨fun he => (hends he).1, fun he => (hends he).2 ▸ Int.natCast_nonneg _, fun hd => ?_⟩
      have he : r'.mIsEncrypted = true := (Bool.and_eq_true_iff.mp hd).1
      exact ((setFile_spec hset).2 he).trans (hends he).2
  | call a =>
    cases a with
    | setKey key =>
      refine ⟨h.blockSize, h.startInFile, fun hd => ?_⟩
      cases hbefore : r.decrypting with
      | false => exact ha hbefore hd
      | true => exact h.coherent hbefore
    | op o =>
      cases o with
      | getFileSize => exact h
      | seek distance method =>
        change Tracked (r.setFilePointerEx distance method).1
        cases hd : r.decrypting with
        | false =>
          have hnot : ¬ r.decrypting = true := by rw [hd]; decide
          rw [setFilePointerEx_plain hd]
          split
          · exact h
          · exact ⟨h.blockSize, h.startInFile, fun hd' => absurd hd' hnot⟩
        | true =>
          rw [setFilePointerEx_decrypting hd]
          split <;> exact ⟨h.blockSize, h.startInFile, h.coherent⟩
      | read n => exact (h.readFile aes n ha).1

/-- **The header that the writer writes** ends where its blocks begin. -/
theorem headerEnds_headerRoot (aes : AESCryptor) (key : List UInt8) {fileSize : Nat}
    {sourceHash : List UInt8} (hhash : sourceHash.length = 20) (h₀ : 0 < fileSize)
    (hsize : fileSize < 2 ^ 63) (body : List UInt8) (r : FileReader) {fuel : Nat}
    (hfuel : 6 ≤ fuel) :
    ∀ r' ∈ setFile fuel r ⟨(headerRoot aes key fileSize sourceHash).writeTo ++ body, 0⟩,
      r'.HeaderEnds := by
  intro r' hr'
  obtain ⟨s, hset, hfile, -, hblock, -, hstart, -⟩ :=
    setFile_headerRoot aes key hhash h₀ hsize body r hfuel
  obtain rfl : s = r' := Option.some.inj (hset.symm.trans hr')
  intro _
  rw [hblock, hstart, hfile]
  exact ⟨by decide, rfl⟩

/-- Every `ReadFile` of a run finds `m_file_pos_cache` right wherever it decides whether to
seek, and reads at the place that it means. -/
def SeeksRight (aes : AESCryptor) (r : FileReader) (calls : List FileCall) : Prop :=
  ∀ (k n : Nat), calls[k]? = some (.call (.op (.read n))) →
    ∀ p ∈ (run (afterCall aes) r (calls.take k)).seekPoints aes n,
      p.1.Coherent ∧ ((p.1.seekTo p.2).mFile.pos : Int) = p.2

/-- **The pointer is where the reader believes it** in every run of careful calls on a new
reader. -/
theorem run_seekPoints_coherent (aes : AESCryptor) (r : FileReader) (hnew : r.mIsEncrypted = false)
    (calls : List FileCall) (h : Along (afterCall aes) (Careful aes) r calls) :
    SeeksRight aes r calls := by
  intro k n hk
  have hplain : ¬ r.mIsEncrypted = true := by rw [hnew]; decide
  have hstart : r.Tracked :=
    ⟨fun he => absurd he hplain, fun he => absurd he hplain,
      fun hd => absurd (Bool.and_eq_true_iff.mp hd).1 hplain⟩
  have htracked : (run (afterCall aes) r (calls.take k)).Tracked :=
    along_run Tracked (fun _ _ hs ha => hs.afterCall aes ha) (calls.take k) r hstart
      (along_take h k)
  have hsplit : calls = calls.take k ++ .call (.op (.read n)) :: calls.drop (k + 1) := by
    obtain ⟨hlt, hget⟩ := List.getElem?_eq_some_iff.mp hk
    rw [← hget, ← List.drop_eq_getElem_cons hlt, List.take_append_drop]
  rw [hsplit, along_append] at h
  exact (htracked.readFile aes n h.2.1).2

def threeByteFile : ByteFile :=
  ⟨(headerRoot zeroKeyCipher (List.replicate 32 0) 3 (List.replicate 20 0)).writeTo ++
    zeroKeyCipher.encrypt [] [10, 20, 30, 0, 0, 0, 0, 0, 0, 0, 0, 0, 0, 0, 0, 0], 0⟩

/-- Calls passed through that bring the pointer back, and reads after the key. -/
theorem run_seekPoints_coherent_three : SeeksRight zeroKeyCipher freshReader
    [.setFile 6 threeByteFile, .call (.op (.read 4)), .call (.op (.seek (-4) .SEEK_CUR)),
      .call (.setKey (List.replicate 32 0)), .call (.op (.read 1)), .call (.op (.read 2))] :=
  run_seekPoints_coherent zeroKeyCipher freshReader rfl _ (by decide +kernel)

/-- **A read before the key** moves the pointer behind the reader's back: after four bytes
the first decrypted read begins four bytes too late. -/
theorem read_before_key_incoherent : ¬ ∀ (aes : AESCryptor) (r : FileReader)
    (calls : List FileCall), r.mIsEncrypted = false → SeeksRight aes r calls := by
  intro h
  have hright := h zeroKeyCipher freshReader [.setFile 6 threeByteFile, .call (.op (.read 4)),
    .call (.setKey (List.replicate 32 0)), .call (.op (.read 1))] rfl 3 1 rfl
  exact absurd hright (by decide +kernel)

end FileReader

end DWindow.E3D
