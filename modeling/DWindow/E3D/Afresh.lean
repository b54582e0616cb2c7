import DWindow.E3D.RoundTrip

/-!
# What a reader remembers of an earlier file

`SetFile` resets the accepted-key flag of no earlier file, and the file size, the block
size and the key hint only where the new header has such leaves.  `Afresh` says that two
readers agree on what is left of these; then they answer alike after `SetFile`, whatever
else they remember (`setFile_afresh`).  A key that was accepted for an earlier file is
the case where they do not (`key_of_earlier_file`).

The block cache of an earlier file is freed and its pointer kept.  When the new file is
not accepted the pointer stays as it is, and the `SetFile` behind it frees the same block
once more (`setFile_frees_twice`).
-/

namespace DWindow.E3D

open Blocks ByteFile CInt LittleEndian Machine
open FileReader (MoveMethod)

inductive ReaderCall where
  | setKey (key : List UInt8)
  | op (o : FileOp)

namespace FileReader

/-- The reader after a call and its answer; `set_key` has none. -/
def answer (aes : AESCryptor) (r : FileReader) : ReaderCall → FileReader × Option FileReply
  | .setKey key => (r.setKey aes key, none)
  | .op o => ((r.step aes o).1, some (r.step aes o).2)

/-- The reader decrypts what it reads. -/
def decrypting (r : FileReader) : Bool := r.mIsEncrypted && r.mKeyOk

/-- The codes of the leaves that the leaf loop reads whole. -/
def leafCodes : Nat → FileReader → Int → Int → List Nat
  | 0, _, _, _ => []
  | fuel + 1, r, totalByteRead, rootSize =>
    match r.readLeaf with
    | (_, none) => []
    | (r', some leafSize) =>
      ofLE (r.osRead 8) ::
        if toInt64 (totalByteRead + (16 + leafSize)) < rootSize then
          leafCodes fuel r' (toInt64 (totalByteRead + (16 + leafSize))) rootSize
        else []

/-- The reader as `SetFile` begins with a file. -/
def entered (r : FileReader) (file : ByteFile) : FileReader := { r with
  mRemuxSig := List.replicate 128 0
  mFile := file
  mIsEncrypted := false
  mHash := List.replicate 20 0
  mCachePos := 0
  mBlockCache := []
  mBlockCachePtr := r.mBlockCachePtr.afterFree
  mHeapIntact := r.mHeapIntact && r.mBlockCachePtr.freeable }

/-- `SetFile` frees a block of `malloc` or nothing, as all calls before. -/
def frees (r : FileReader) : Bool := r.mHeapIntact && r.mBlockCachePtr.freeable

def rootSize (r : FileReader) (file : ByteFile) : Int :=
  toInt64 (ofLE (((r.entered file).osSkip 8).osRead 8))

def atLeaves (r : FileReader) (file : ByteFile) : FileReader :=
  { ((r.entered file).osSkip 8).osSkip 8 with mStartInFile := r.rootSize file + 16 }

def headerCodes (fuel : Nat) (r : FileReader) (file : ByteFile) : List Nat :=
  leafCodes fuel (r.atLeaves file) 0 (r.rootSize file)

/-- The file begins with a root and has all its leaves. -/
def wholeHeader (fuel : Nat) (r : FileReader) (file : ByteFile) : Bool :=
  ((r.entered file).osRead 8).length == 8 && ofLE ((r.entered file).osRead 8) == eightccRoot &&
    (((r.entered file).osSkip 8).osRead 8).length == 8 &&
    match leafLoop fuel (r.atLeaves file) 0 (r.rootSize file) with
    | some (_, true) => true
    | _ => false

end FileReader

/-- What the readers remember is the same, except for what the header of the new file
replaces. -/
structure Afresh (fuel : Nat) (file : ByteFile) (r₁ r₂ : FileReader) : Prop where
  keyOk : r₁.mKeyOk = r₂.mKeyOk
  codec : r₁.mKeyOk = true → r₁.mCodec = r₂.mCodec
  fileSize : eightccFilesize ∈ r₁.headerCodes fuel file ∨ r₁.mFileSize = r₂.mFileSize
  blockSize : eightccBlocksize ∈ r₁.headerCodes fuel file ∨ r₁.mBlockSize = r₂.mBlockSize
  keyhint : eightccKeyhint ∈ r₁.headerCodes fuel file ∨ r₁.mKeyhint = r₂.mKeyhint

structure Untouched (r r' : FileReader) : Prop where
  data : r'.mFile.data = r.mFile.data
  blockCache : r'.mBlockCache = r.mBlockCache
  cachePos : r'.mCachePos = r.mCachePos
  pos : r'.mPos = r.mPos
  startInFile : r'.mStartInFile = r.mStartInFile
  filePosCache : r'.mFilePosCache = r.mFilePosCache
  isEncrypted : r'.mIsEncrypted = r.mIsEncrypted
  keyOk : r'.mKeyOk = r.mKeyOk
  codec : r'.mCodec = r.mCodec
  heapIntact : r'.mHeapIntact = r.mHeapIntact

namespace Untouched

theorem refl (r : FileReader) : Untouched r r :=
  ⟨rfl, rfl, rfl, rfl, rfl, rfl, rfl, rfl, rfl, rfl⟩

theorem trans {r r' r'' : FileReader} (h : Untouched r r') (h' : Untouched r' r'') :
    Untouched r r'' :=
  ⟨h'.data.trans h.data, h'.blockCache.trans h.blockCache, h'.cachePos.trans h.cachePos,
    h'.pos.trans h.pos,
    h'.startInFile.trans h.startInFile, h'.filePosCache.trans h.filePosCache,
    h'.isEncrypted.trans h.isEncrypted, h'.keyOk.trans h.keyOk, h'.codec.trans h.codec,
    h'.heapIntact.trans h.heapIntact⟩

end Untouched

theorem untouched_readField (r : FileReader) (eightcc : Nat) :
    Untouched r (r.readField eightcc).1 := by
  unfold FileReader.readField
  by_cases h₁ : eightcc = eightccFilesize
  · simp only [if_pos h₁]
    exact ⟨rfl, rfl, rfl, rfl, rfl, rfl, rfl, rfl, rfl, rfl⟩
  by_cases h₂ : eightcc = eightccBlocksize
  · simp only [if_neg h₁, if_pos h₂]
    exact ⟨rfl, rfl, rfl, rfl, rfl, rfl, rfl, rfl, rfl, rfl⟩
  by_cases h₃ : eightcc = eightccKeyhint
  · simp only [if_neg h₁, if_neg h₂, if_pos h₃]
    exact ⟨rfl, rfl, rfl, rfl, rfl, rfl, rfl, rfl, rfl, rfl⟩
  by_cases h₄ : eightcc = eightccLayout
  · simp only [if_neg h₁, if_neg h₂, if_neg h₃, if_pos h₄]
    exact ⟨rfl, rfl, rfl, rfl, rfl, rfl, rfl, rfl, rfl, rfl⟩
  by_cases h₅ : eightcc = eightccSrchash
  · simp only [if_neg h₁, if_neg h₂, if_neg h₃, if_neg h₄, if_pos h₅]
    exact ⟨rfl, rfl, rfl, rfl, rfl, rfl, rfl, rfl, rfl, rfl⟩
  by_cases h₆ : eightcc = eightccRemux
  · simp only [if_neg h₁, if_neg h₂, if_neg h₃, if_neg h₄, if_neg h₅, if_pos h₆]
    exact ⟨rfl, rfl, rfl, rfl, rfl, rfl, rfl, rfl, rfl, rfl⟩
  · simp only [if_neg h₁, if_neg h₂, if_neg h₃, if_neg h₄, if_neg h₅, if_neg h₆]
    exact Untouched.refl r

theorem readField_reads (r : FileReader) (eightcc : Nat) :
    ((r.readField eightcc).2 = if (r.osRead (fieldLength eightcc)).length ≠ fieldLength eightcc
      then none else some (fieldLength eightcc)) ∧
    (r.readField eightcc).1.mFile = r.mFile.afterRead (fieldLength eightcc) := by
  unfold FileReader.readField fieldLength
  by_cases h₁ : eightcc = eightccFilesize
  · simp only [if_pos h₁]
    exact ⟨trivial, rfl⟩
  by_cases h₂ : eightcc = eightccBlocksize
  · simp only [if_neg h₁, if_pos h₂]
    exact ⟨trivial, rfl⟩
  by_cases h₃ : eightcc = eightccKeyhint
  · simp only [if_neg h₁, if_neg h₂, if_pos h₃]
    exact ⟨trivial, rfl⟩
  by_cases h₄ : eightcc = eightccLayout
  · simp only [if_neg h₁, if_neg h₂, if_neg h₃, if_pos h₄]
    exact ⟨trivial, rfl⟩
  by_cases h₅ : eightcc = eightccSrchash
  · simp only [if_neg h₁, if_neg h₂, if_neg h₃, if_neg h₄, if_pos h₅]
    exact ⟨trivial, rfl⟩
  by_cases h₆ : eightcc = eightccRemux
  · simp only [if_neg h₁, if_neg h₂, if_neg h₃, if_neg h₄, if_neg h₅, if_pos h₆]
    exact ⟨trivial, rfl⟩
  · simp only [if_neg h₁, if_neg h₂, if_neg h₃, if_neg h₄, if_neg h₅, if_neg h₆]
    refine ⟨?_, ?_⟩
    · rw [FileReader.osRead, ByteFile.readBytes, List.take_zero, List.length_nil]
      rfl
    · rw [ByteFile.afterRead, ByteFile.readBytes, List.take_zero, List.length_nil, Nat.add_zero]

/-- **Whole data is stored as it is**, whatever was there before. -/
theorem readField_stores (r : FileReader) (eightcc : Nat)
    (h : (r.osRead (fieldLength eightcc)).length = fieldLength eightcc) :
    (r.readField eightcc).1 = storeField (r.osSkip (fieldLength eightcc)) eightcc
      (r.osRead (fieldLength eightcc)) := by
  have hint : ∀ w v, w ≤ fieldLength eightcc →
      overlay (r.osRead (fieldLength eightcc)) (toLE w v) = r.osRead (fieldLength eightcc) := by
    intro w v hw
    exact overlay_of_le (by rw [length_toLE]; omega)
  have hbuf : ∀ old : List UInt8, (overlay (r.osRead (fieldLength eightcc)) old).take
      (fieldLength eightcc) = r.osRead (fieldLength eightcc) := fun old => take_overlay h
  unfold FileReader.readField storeField
  unfold fieldLength at h hint hbuf ⊢
  by_cases h₁ : eightcc = eightccFilesize
  · simp only [if_pos h₁] at hint ⊢
    rw [hint 8 _ (Nat.le_refl 8)]
  by_cases h₂ : eightcc = eightccBlocksize
  · simp only [if_neg h₁, if_pos h₂] at hint ⊢
    rw [hint 4 _ (by decide)]
    rfl
  by_cases h₃ : eightcc = eightccKeyhint
  · simp only [if_neg h₁, if_neg h₂, if_pos h₃] at hbuf ⊢
    rw [hbuf]
  by_cases h₄ : eightcc = eightccLayout
  · simp only [if_neg h₁, if_neg h₂, if_neg h₃, if_pos h₄] at hint ⊢
    rw [hint 8 _ (Nat.le_refl 8)]
  by_cases h₅ : eightcc = eightccSrchash
  · simp only [if_neg h₁, if_neg h₂, if_neg h₃, if_neg h₄, if_pos h₅] at hbuf ⊢
    rw [hbuf]
  by_cases h₆ : eightcc = eightccRemux
  · simp only [if_neg h₁, if_neg h₂, if_neg h₃, if_neg h₄, if_neg h₅, if_pos h₆] at hbuf ⊢
    rw [hbuf]
  · simp only [if_neg h₁, if_neg h₂, if_neg h₃, if_neg h₄, if_neg h₅, if_neg h₆]
    rw [FileReader.osSkip, ByteFile.afterRead, ByteFile.readBytes, List.take_zero,
      List.length_nil, Nat.add_zero]

theorem storeField_kept (r : FileReader) (eightcc : Nat) (bs : List UInt8) :
    (storeField r eightcc bs).mFile = r.mFile ∧
    ((storeField r eightcc bs).mFileSize =
      if eightcc = eightccFilesize then toInt64 (ofLE bs) else r.mFileSize) ∧
    ((storeField r eightcc bs).mBlockSize =
      if eightcc = eightccBlocksize then toInt32 (ofLE (bs.take 4)) else r.mBlockSize) ∧
    (storeField r eightcc bs).mKeyhint = if eightcc = eightccKeyhint then bs else r.mKeyhint := by
  have hfb : eightccFilesize ≠ eightccBlocksize := by decide
  have hfk : eightccFilesize ≠ eightccKeyhint := by decide
  have hbk : eightccBlocksize ≠ eightccKeyhint := by decide
  unfold storeField
  by_cases h₁ : eightcc = eightccFilesize
  · simp [h₁, hfb, hfk]
  by_cases h₂ : eightcc = eightccBlocksize
  · simp [h₂, hfb.symm, hbk]
  by_cases h₃ : eightcc = eightccKeyhint
  · simp [h₃, hfk.symm, hbk.symm]
  · simp only [if_neg h₁, if_neg h₂, if_neg h₃]
    split_ifs <;> exact ⟨rfl, rfl, rfl, rfl⟩
theorem untouched_file (r : FileReader) {f : ByteFile} (h : f.data = r.mFile.data) :
    Untouched r { r with mFile := f } :=
  ⟨h, rfl, rfl, rfl, rfl, rfl, rfl, rfl, rfl, rfl⟩

theorem seekCur_data (f : ByteFile) (distance : Int) : (seekCur f distance).data = f.data := by
  rw [seekCur]
  split <;> rfl

theorem untouched_readLeaf (r : FileReader) : Untouched r r.readLeaf.1 := by
  have hskip : Untouched r ((r.osSkip 8).osSkip 8) := untouched_file r rfl
  have hfield := untouched_readField ((r.osSkip 8).osSkip 8) (ofLE (r.osRead 8))
  unfold FileReader.readLeaf
  dsimp only
  split
  · exact untouched_file r rfl
  · split
    · exact hskip
    · revert hfield
      cases FileReader.readField ((r.osSkip 8).osSkip 8) (ofLE (r.osRead 8)) with
      | mk r' read =>
        intro hfield
        cases read with
        | none => exact hskip.trans hfield
        | some n => exact (hskip.trans hfield).trans (untouched_file r' (seekCur_data _ _))

/-- **The leaf loop sets header fields only.** -/
theorem untouched_leafLoop :
    ∀ (fuel : Nat) (r : FileReader) (total rootSize : Int) {r' : FileReader}
    {ended : Bool}, FileReader.leafLoop fuel r total rootSize = some (r', ended) →
      Untouched r r' := by
  intro fuel
  induction fuel with
  | zero => intro r total rootSize r' ended h; exact absurd h (by simp [FileReader.leafLoop])
  | succ fuel ih =>
    intro r total rootSize r' ended h
    have hleaf := untouched_readLeaf r
    rw [FileReader.leafLoop] at h
    split at h
    · next hread =>
      rw [Option.some.injEq, Prod.mk.injEq] at h
      rw [hread] at hleaf
      exact h.1 ▸ hleaf
    · next hread =>
      rw [hread] at hleaf
      split at h
      · exact hleaf.trans (ih _ _ _ h)
      · rw [Option.some.injEq, Prod.mk.injEq] at h
        exact h.1 ▸ hleaf

/-- Two readers in the leaf loop of the same file agree on what the leaves they have
`seen` set, and on what `b₁` and `b₂` agreed on before. -/
structure AgreeOn (b₁ b₂ : FileReader) (seen : List Nat) (r₁ r₂ : FileReader) : Prop where
  file : r₁.mFile = r₂.mFile
  fileSize : eightccFilesize ∈ seen ∨ b₁.mFileSize = b₂.mFileSize → r₁.mFileSize = r₂.mFileSize
  blockSize : eightccBlocksize ∈ seen ∨ b₁.mBlockSize = b₂.mBlockSize →
    r₁.mBlockSize = r₂.mBlockSize
  keyhint : eightccKeyhint ∈ seen ∨ b₁.mKeyhint = b₂.mKeyhint → r₁.mKeyhint = r₂.mKeyhint

section

variable {b₁ b₂ r₁ r₂ : FileReader} {seen : List Nat}

theorem AgreeOn.osRead (h : AgreeOn b₁ b₂ seen r₁ r₂) (n : Nat) : r₁.osRead n = r₂.osRead n := by
  rw [FileReader.osRead, FileReader.osRead, h.file]

theorem AgreeOn.osSkip (h : AgreeOn b₁ b₂ seen r₁ r₂) (n : Nat) :
    AgreeOn b₁ b₂ seen (r₁.osSkip n) (r₂.osSkip n) :=
  ⟨congrArg (fun f : ByteFile => f.afterRead n) h.file, h.fileSize, h.blockSize, h.keyhint⟩

theorem AgreeOn.seekCur (h : AgreeOn b₁ b₂ seen r₁ r₂) (distance : Int) :
    AgreeOn b₁ b₂ seen { r₁ with mFile := seekCur r₁.mFile distance }
      { r₂ with mFile := seekCur r₂.mFile distance } :=
  ⟨by rw [h.file], h.fileSize, h.blockSize, h.keyhint⟩

theorem AgreeOn.storeField (h : AgreeOn b₁ b₂ seen r₁ r₂) (eightcc : Nat) (bs : List UInt8) :
    AgreeOn b₁ b₂ (eightcc :: seen) (storeField r₁ eightcc bs) (storeField r₂ eightcc bs) := by
  obtain ⟨hfile₁, hsize₁, hblock₁, hhint₁⟩ := storeField_kept r₁ eightcc bs
  obtain ⟨hfile₂, hsize₂, hblock₂, hhint₂⟩ := storeField_kept r₂ eightcc bs
  refine ⟨by rw [hfile₁, hfile₂, h.file], fun hset => ?_, fun hset => ?_, fun hset => ?_⟩
  · rw [hsize₁, hsize₂]
    split
    · rfl
    · next hne =>
      refine h.fileSize (hset.imp_left fun hmem => ?_)
      exact (List.mem_cons.mp hmem).resolve_left (Ne.symm hne)
  · rw [hblock₁, hblock₂]
    split
    · rfl
    · next hne =>
      refine h.blockSize (hset.imp_left fun hmem => ?_)
      exact (List.mem_cons.mp hmem).resolve_left (Ne.symm hne)
  · rw [hhint₁, hhint₂]
    split
    · rfl
    · next hne =>
      refine h.keyhint (hset.imp_left fun hmem => ?_)
      exact (List.mem_cons.mp hmem).resolve_left (Ne.symm hne)

theorem AgreeOn.readField (h : AgreeOn b₁ b₂ seen r₁ r₂) (eightcc : Nat) :
    (r₁.readField eightcc).2 = (r₂.readField eightcc).2 ∧
      ∀ n, (r₁.readField eightcc).2 = some n →
        AgreeOn b₁ b₂ (eightcc :: seen) (r₁.readField eightcc).1 (r₂.readField eightcc).1 := by
  have hread₁ := (readField_reads r₁ eightcc).1
  have hread₂ := (readField_reads r₂ eightcc).1
  rw [← h.osRead] at hread₂
  refine ⟨hread₁.trans hread₂.symm, fun n hn => ?_⟩
  have hlen : (r₁.osRead (fieldLength eightcc)).length = fieldLength eightcc := by
    by_contra hne
    rw [hn, if_pos hne] at hread₁
    exact absurd hread₁ (by simp)
  rw [readField_stores r₁ eightcc hlen, readField_stores r₂ eightcc (h.osRead _ ▸ hlen), ← h.osRead]
  exact (h.osSkip _).storeField eightcc _

/-- **One leaf**: both readers find the same. -/
theorem AgreeOn.readLeaf (h : AgreeOn b₁ b₂ seen r₁ r₂) :
    r₁.readLeaf.2 = r₂.readLeaf.2 ∧ ∀ size, r₁.readLeaf.2 = some size →
      AgreeOn b₁ b₂ (ofLE (r₁.osRead 8) :: seen) r₁.readLeaf.1 r₂.readLeaf.1 := by
  obtain ⟨hsame, hagree⟩ := ((h.osSkip 8).osSkip 8).readField (ofLE (r₁.osRead 8))
  have hcc := h.osRead 8
  have hsz := (h.osSkip 8).osRead 8
  unfold FileReader.readLeaf
  dsimp only
  rw [← hcc, ← hsz]
  split
  · exact ⟨rfl, fun size hsize => absurd hsize (by simp)⟩
  · split
    · exact ⟨rfl, fun size hsize => absurd hsize (by simp)⟩
    · revert hsame hagree
      cases FileReader.readField ((r₁.osSkip 8).osSkip 8) (ofLE (r₁.osRead 8)) with
      | mk r₁' n₁ =>
        cases FileReader.readField ((r₂.osSkip 8).osSkip 8) (ofLE (r₁.osRead 8)) with
        | mk r₂' n₂ =>
          rintro rfl hagree
          cases n₁ with
          | none => exact ⟨rfl, fun size hsize => absurd hsize (by simp)⟩
          | some n =>
            exact ⟨rfl, fun _ _ => (hagree n rfl).seekCur _⟩

/-- **The whole loop**: it ends for both readers or for none, and at the end they agree on
what its leaves set. -/
theorem AgreeOn.leafLoop : ∀ (fuel : Nat) (r₁ r₂ : FileReader) (seen : List Nat)
    (total rootSize : Int), AgreeOn b₁ b₂ seen r₁ r₂ →
    (FileReader.leafLoop fuel r₁ total rootSize = none ∧
      FileReader.leafLoop fuel r₂ total rootSize = none) ∨
    ∃ r₁' r₂' ended, FileReader.leafLoop fuel r₁ total rootSize = some (r₁', ended) ∧
      FileReader.leafLoop fuel r₂ total rootSize = some (r₂', ended) ∧
      (ended = true →
        ∃ seen', AgreeOn b₁ b₂ seen' r₁' r₂' ∧ seen ⊆ seen' ∧
          FileReader.leafCodes fuel r₁ total rootSize ⊆ seen') := by
  intro fuel
  induction fuel with
  | zero => intro r₁ r₂ seen total rootSize _; exact Or.inl ⟨rfl, rfl⟩
  | succ fuel ih =>
    intro r₁ r₂ seen total rootSize h
    obtain ⟨hsame, hagree⟩ := h.readLeaf
    unfold FileReader.leafLoop FileReader.leafCodes
    revert hsame hagree
    cases r₁.readLeaf with
    | mk r₁' size =>
      cases r₂.readLeaf with
      | mk r₂' size₂ =>
        intro hsame hagree
        dsimp only at hsame
        subst hsame
        cases size with
        | none => exact Or.inr ⟨r₁', r₂', false, rfl, rfl, fun h => absurd h (by simp)⟩
        | some leafSize =>
          have hleaf := hagree leafSize rfl
          dsimp only at hleaf ⊢
          by_cases hmore : toInt64 (total + (16 + leafSize)) < rootSize
          · rw [if_pos hmore, if_pos hmore, if_pos hmore]
            rcases ih r₁' r₂' _ _ rootSize hleaf with hnone | ⟨s₁, s₂, ended, h₁, h₂, hend⟩
            · exact Or.inl hnone
            · refine Or.inr ⟨s₁, s₂, ended, h₁, h₂, fun hended => ?_⟩
              obtain ⟨seen', hseen, hsub, hcodes⟩ := hend hended
              exact ⟨seen', hseen, fun c hc => hsub (List.mem_cons_of_mem _ hc),
                List.cons_subset.mpr ⟨hsub (List.mem_cons_self ..), hcodes⟩⟩
          · rw [if_neg hmore, if_neg hmore, if_neg hmore]
            exact Or.inr ⟨r₁', r₂', true, rfl, rfl, fun _ => ⟨_, hleaf,
              fun c hc => List.mem_cons_of_mem _ hc, List.cons_subset.mpr ⟨List.mem_cons_self ..,
                List.nil_subset _⟩⟩⟩

end

/-! ## After `SetFile` -/

/-- Two readers that answer alike: none decrypts, or they are the same up to what no
answer depends on. -/
inductive Alike (r₁ r₂ : FileReader) : Prop
  | plain : r₁.mIsEncrypted = false → r₂.mIsEncrypted = false → r₁.mFile = r₂.mFile → Alike r₁ r₂
  | same (remuxSig hash : List UInt8) (layout : Int) (codec : List UInt8) :
      (r₁.mKeyOk = true → r₁.mCodec = codec) →
      r₂ = { r₁ with mRemuxSig := remuxSig, mHash := hash, mLayout := layout, mCodec := codec } →
      Alike r₁ r₂

theorem setFile_eq (fuel : Nat) (r : FileReader) (file : ByteFile) :
    FileReader.setFile fuel r file =
      if ((r.entered file).osRead 8).length ≠ 8 then
        some (((r.entered file).osSkip 8).rewind file.pos)
      else if ofLE ((r.entered file).osRead 8) ≠ eightccRoot then
        some (((r.entered file).osSkip 8).rewind file.pos)
      else if (((r.entered file).osSkip 8).osRead 8).length ≠ 8 then
        some ((((r.entered file).osSkip 8).osSkip 8).rewind file.pos)
      else
        match FileReader.leafLoop fuel (r.atLeaves file) 0 (r.rootSize file) with
        | none => none
        | some (r', false) => some (r'.rewind file.pos)
        | some (r', true) =>
          if r'.mFileSize = 0 ∨ r'.mBlockSize = 0 then some (r'.rewind file.pos)
          else some { r' with
            mFilePosCache := r'.mStartInFile
            mIsEncrypted := true
            mCachePos := -1
            mPos := 0
            mBlockCache := List.replicate r'.mBlockSize.toNat 0
            mBlockCachePtr := if 0 < r'.mBlockSize then .block else .null } := by
  unfold FileReader.setFile
  rfl

/-- **`SetFile`** treats the two readers alike. -/
theorem Afresh.setFile {fuel : Nat} {file : ByteFile} {r₁ r₂ : FileReader}
    (hfrees : r₁.frees = r₂.frees) (h : r₁.wholeHeader fuel file = true → Afresh fuel file r₁ r₂) :
    (FileReader.setFile fuel r₁ file = none ∧ FileReader.setFile fuel r₂ file = none) ∨
    ∃ r₁' r₂', FileReader.setFile fuel r₁ file = some r₁' ∧
      FileReader.setFile fuel r₂ file = some r₂' ∧ Alike r₁' r₂' := by
  have henter : AgreeOn r₁ r₂ [] (r₁.entered file) (r₂.entered file) :=
    ⟨rfl, fun h => h.resolve_left List.not_mem_nil, fun h => h.resolve_left List.not_mem_nil,
      fun h => h.resolve_left List.not_mem_nil⟩
  have hcc := henter.osRead 8
  have hsz := (henter.osSkip 8).osRead 8
  have hroot : r₂.rootSize file = r₁.rootSize file := by
    rw [FileReader.rootSize, FileReader.rootSize, hsz]
  have hleaves : AgreeOn r₁ r₂ [] (r₁.atLeaves file) (r₂.atLeaves file) := by
    have hskip := (henter.osSkip 8).osSkip 8
    exact ⟨hskip.file, hskip.fileSize, hskip.blockSize, hskip.keyhint⟩
  rw [setFile_eq, setFile_eq, ← hcc, ← hsz, hroot]
  by_cases hlen : ((r₁.entered file).osRead 8).length ≠ 8
  · rw [if_pos hlen, if_pos hlen]
    exact Or.inr ⟨_, _, rfl, rfl, .plain rfl rfl rfl⟩
  rw [if_neg hlen, if_neg hlen]
  by_cases hcode : ofLE ((r₁.entered file).osRead 8) ≠ eightccRoot
  · rw [if_pos hcode, if_pos hcode]
    exact Or.inr ⟨_, _, rfl, rfl, .plain rfl rfl rfl⟩
  rw [if_neg hcode, if_neg hcode]
  by_cases hlen' : (((r₁.entered file).osSkip 8).osRead 8).length ≠ 8
  · rw [if_pos hlen', if_pos hlen']
    exact Or.inr ⟨_, _, rfl, rfl, .plain rfl rfl rfl⟩
  rw [if_neg hlen', if_neg hlen']
  rcases AgreeOn.leafLoop fuel _ _ _ 0 (r₁.rootSize file) hleaves with ⟨h₁, h₂⟩ |
    ⟨s₁, s₂, ended, h₁, h₂, hend⟩
  · rw [h₁, h₂]
    exact Or.inl ⟨rfl, rfl⟩
  · have hkept₁ := untouched_leafLoop fuel _ _ _ h₁
    have hkept₂ := untouched_leafLoop fuel _ _ _ h₂
    have hrewind : Alike (s₁.rewind file.pos) (s₂.rewind file.pos) :=
      .plain hkept₁.isEncrypted hkept₂.isEncrypted
        (congrArg (fun data => ByteFile.mk data file.pos) (hkept₁.data.trans hkept₂.data.symm))
    cases ended with
    | false =>
      rw [h₁, h₂]
      exact Or.inr ⟨_, _, rfl, rfl, hrewind⟩
    | true =>
      obtain ⟨seen, hagree, -, hcodes⟩ := hend rfl
      have hwhole : r₁.wholeHeader fuel file = true := by
        rw [FileReader.wholeHeader, h₁]
        simp only [ne_eq, not_not] at hlen hcode hlen'
        simp [hlen, hcode, hlen']
      have hafresh := h hwhole
      have hsize := hagree.fileSize (hafresh.fileSize.imp_left fun hmem => hcodes hmem)
      have hblock := hagree.blockSize (hafresh.blockSize.imp_left fun hmem => hcodes hmem)
      have hhint := hagree.keyhint (hafresh.keyhint.imp_left fun hmem => hcodes hmem)
      rw [h₁, h₂]
      dsimp only
      rw [← hsize, ← hblock]
      by_cases hzero : s₁.mFileSize = 0 ∨ s₁.mBlockSize = 0
      · rw [if_pos hzero, if_pos hzero]
        exact Or.inr ⟨_, _, rfl, rfl, hrewind⟩
      · rw [if_neg hzero, if_neg hzero]
        refine Or.inr ⟨_, _, rfl, rfl, .same s₂.mRemuxSig s₂.mHash s₂.mLayout s₂.mCodec ?_ ?_⟩
        · intro hok
          have hok₁ : r₁.mKeyOk = true := hkept₁.keyOk.symm.trans hok
          exact hkept₁.codec.trans ((hafresh.codec hok₁).trans hkept₂.codec.symm)
        · have hstart := hkept₁.startInFile.trans hkept₂.startInFile.symm
          have hok := hkept₁.keyOk.trans (hafresh.keyOk.trans hkept₂.keyOk.symm)
          have hheap := hkept₁.heapIntact.trans (hfrees.trans hkept₂.heapIntact.symm)
          rw [FileReader.mk.injEq]
          exact ⟨rfl, rfl, rfl, rfl, hheap.symm, hhint.symm, rfl, rfl, rfl, rfl, hstart.symm, rfl,
            hstart.symm, rfl, hok.symm, hagree.file.symm, rfl⟩

/-! ## What no answer depends on -/

namespace FileReader

/-- The fields that only `SetFile` uses. -/
def withRest (r : FileReader) (remuxSig hash : List UInt8) (layout : Int) : FileReader :=
  { r with mRemuxSig := remuxSig, mHash := hash, mLayout := layout }

variable (aes : AESCryptor) (r : FileReader) (a b : List UInt8) (c : Int)

theorem seekTo_withRest (target : Int) :
    (r.withRest a b c).seekTo target = (r.seekTo target).withRest a b c := by
  by_cases h : target ≠ r.mFilePosCache
  · rw [seekTo, seekTo, if_pos h]
    exact if_pos h
  · rw [seekTo, seekTo, if_neg h]
    exact if_neg h

theorem cacheBlock_withRest :
    (r.withRest a b c).cacheBlock aes = (r.cacheBlock aes).withRest a b c := by
  have hseek :=
    seekTo_withRest { r with mCachePos := r.mPos.tdiv r.mBlockSize * r.mBlockSize } a b c
    (r.mStartInFile + r.mPos.tdiv r.mBlockSize * r.mBlockSize)
  by_cases h : r.mCachePos ≠ r.mPos.tdiv r.mBlockSize * r.mBlockSize
  · unfold cacheBlock
    dsimp only
    rw [if_pos h]
    refine (if_pos h).trans ?_
    exact congrArg (fun s => { fillCache aes s with
      mFilePosCache := (fillCache aes s).mFilePosCache + (fillCache aes s).mBlockSize }) hseek
  · unfold cacheBlock
    dsimp only
    rw [if_neg h]
    exact if_neg h

theorem readHead_withRest (n : Nat) : (r.withRest a b c).readHead aes n =
    ((r.readHead aes n).1.withRest a b c, (r.readHead aes n).2) := by
  by_cases h : r.mPos.tmod r.mBlockSize ≠ 0
  · unfold readHead
    dsimp only
    rw [if_pos h, cacheBlock_withRest]
    exact if_pos h
  · unfold readHead
    dsimp only
    rw [if_neg h]
    exact if_neg h

theorem readBody_withRest (n : Nat) : (r.withRest a b c).readBody aes n =
    ((r.readBody aes n).1.withRest a b c, (r.readBody aes n).2) := by
  by_cases h : n > toDWORD r.mBlockSize
  · unfold readBody
    dsimp only
    rw [if_pos h, show (r.withRest a b c).mPos + (r.withRest a b c).mStartInFile =
      r.mPos + r.mStartInFile from rfl, seekTo_withRest]
    exact if_pos h
  · unfold readBody
    dsimp only
    rw [if_neg h]
    exact if_neg h

theorem readTail_withRest (n : Nat) : (r.withRest a b c).readTail aes n =
    ((r.readTail aes n).1.withRest a b c, (r.readTail aes n).2) := by
  have hseek := seekTo_withRest { r with mCachePos := r.mPos } a b c (r.mPos + r.mStartInFile)
  by_cases h : n > 0
  · unfold readTail
    dsimp only
    rw [if_pos h, if_pos h, show ({ r.withRest a b c with mCachePos := (r.withRest a b c).mPos } :
      FileReader) = { r with mCachePos := r.mPos }.withRest a b c from rfl,
      show (r.withRest a b c).mPos + (r.withRest a b c).mStartInFile =
      r.mPos + r.mStartInFile from rfl, hseek]
    rfl
  · unfold readTail
    rw [if_neg h, if_neg h]

def clipped (r : FileReader) (nToRead : Nat) : Nat :=
  toDWORD (min nToRead (toInt64 (r.mFileSize - r.mPos)))

theorem readFile_plain {r : FileReader} (h : r.decrypting = false) (n : Nat) :
    r.readFile aes n = (r.osSkip n, some (r.osRead n)) := by
  unfold readFile
  refine if_pos ?_
  unfold decrypting at h
  cases hencrypted : r.mIsEncrypted with
  | false => rfl
  | true =>
    rw [hencrypted, Bool.true_and] at h
    rw [h]
    rfl

/-- **The three parts of a read.** -/
theorem readFile_decrypting {r : FileReader} (h : r.decrypting = true) {n : Nat}
    (hn : ¬ (r.clipped n = 0 ∨ r.mPos < 0)) :
    let head := r.readHead aes (r.clipped n)
    let body := head.1.readBody aes head.2.1
    let tail := body.1.readTail aes body.2.1
    r.readFile aes n = (tail.1, some (head.2.2 ++ body.2.2 ++ tail.2)) := by
  intro head body tail
  unfold readFile
  unfold decrypting at h
  rw [Bool.and_eq_true] at h
  rw [if_neg (by rw [h.1, h.2]; decide)]
  exact if_neg hn

theorem readFile_refused {r : FileReader} (h : r.decrypting = true) {n : Nat}
    (hn : r.clipped n = 0 ∨ r.mPos < 0) : r.readFile aes n = (r, none) := by
  unfold readFile
  unfold decrypting at h
  rw [Bool.and_eq_true] at h
  rw [if_neg (by rw [h.1, h.2]; decide)]
  exact if_pos hn

theorem readFile_withRest (n : Nat) : (r.withRest a b c).readFile aes n =
    ((r.readFile aes n).1.withRest a b c, (r.readFile aes n).2) := by
  cases h : r.decrypting with
  | false =>
    rw [readFile_plain aes h,
      readFile_plain aes (show (r.withRest a b c).decrypting = false from h)]
    rfl
  | true =>
    have h' : (r.withRest a b c).decrypting = true := h
    by_cases hn : r.clipped n = 0 ∨ r.mPos < 0
    · rw [readFile_refused aes h hn, readFile_refused aes h' hn]
    · rw [readFile_decrypting aes h hn, readFile_decrypting aes h' hn]
      rw [show (r.withRest a b c).clipped n = r.clipped n from rfl, readHead_withRest]
      dsimp only
      rw [readBody_withRest]
      dsimp only
      rw [readTail_withRest]

theorem setFilePointerEx_plain {r : FileReader} (h : r.decrypting = false) (distance : Int)
    (method : MoveMethod) : r.setFilePointerEx distance method =
      if seekTarget r.mFile distance method < 0 then (r, none)
      else ({ r with mFile := r.mFile.seekSet (seekTarget r.mFile distance method).toNat },
        some (seekTarget r.mFile distance method)) := by
  have hflag : (!r.mIsEncrypted || !r.mKeyOk) = true := by
    rw [← Bool.not_and, ← decrypting, h]
    rfl
  unfold setFilePointerEx
  rw [if_pos hflag]
  cases method <;> rfl

def target (r : FileReader) (distance : Int) : MoveMethod → Int
  | .SEEK_SET => distance
  | .SEEK_CUR => toInt64 (r.mPos + distance)
  | .SEEK_END => r.mFileSize

theorem setFilePointerEx_decrypting {r : FileReader} (h : r.decrypting = true) (distance : Int)
    (method : MoveMethod) : r.setFilePointerEx distance method =
      if r.target distance method < 0 then (r, none)
      else ({ r with mPos := r.target distance method }, some (r.target distance method)) := by
  have hflag : ¬ (!r.mIsEncrypted || !r.mKeyOk) = true := by
    rw [← Bool.not_and, ← decrypting, h]
    decide
  unfold setFilePointerEx
  rw [if_neg hflag]
  cases method <;> rfl

theorem setFilePointerEx_withRest (distance : Int) (method : MoveMethod) :
    (r.withRest a b c).setFilePointerEx distance method =
      ((r.setFilePointerEx distance method).1.withRest a b c,
        (r.setFilePointerEx distance method).2) := by
  cases h : r.decrypting with
  | false =>
    have h' : (r.withRest a b c).decrypting = false := h
    rw [setFilePointerEx_plain h, setFilePointerEx_plain h']
    by_cases hneg : seekTarget r.mFile distance method < 0
    · rw [if_pos hneg]
      exact if_pos hneg
    · rw [if_neg hneg]
      exact if_neg hneg
  | true =>
    have h' : (r.withRest a b c).decrypting = true := h
    have htarget : (r.withRest a b c).target distance method = r.target distance method := by
      cases method <;> rfl
    rw [setFilePointerEx_decrypting h, setFilePointerEx_decrypting h', htarget]
    by_cases hneg : r.target distance method < 0
    · rw [if_pos hneg, if_pos hneg]
    · rw [if_neg hneg, if_neg hneg]
      rfl

theorem step_withRest (o : FileOp) : (r.withRest a b c).step aes o =
    ((r.step aes o).1.withRest a b c, (r.step aes o).2) := by
  cases o with
  | getFileSize => rfl
  | seek distance method => rw [step, setFilePointerEx_withRest]; rfl
  | read n => rw [step, readFile_withRest]; rfl

end FileReader

/-! ## Runs -/

theorem getFileSizeEx_plain {r : FileReader} (h : r.decrypting = false) :
    r.getFileSizeEx = r.mFile.data.length := by
  unfold FileReader.getFileSizeEx
  refine if_pos ?_
  rw [← Bool.not_and, ← FileReader.decrypting, h]
  rfl

theorem step_plain (aes : AESCryptor) {r₁ r₂ : FileReader} (h₁ : r₁.decrypting = false)
    (h₂ : r₂.decrypting = false) (hfile : r₁.mFile = r₂.mFile) (o : FileOp) :
    (r₁.step aes o).2 = (r₂.step aes o).2 ∧ ∃ file,
      (r₁.step aes o).1 = { r₁ with mFile := file } ∧
      (r₂.step aes o).1 = { r₂ with mFile := file } := by
  cases o with
  | getFileSize =>
    refine ⟨?_, r₁.mFile, rfl, by rw [hfile]; rfl⟩
    rw [FileReader.step, FileReader.step, getFileSizeEx_plain h₁, getFileSizeEx_plain h₂, hfile]
  | seek distance method =>
    rw [FileReader.step, FileReader.step, FileReader.setFilePointerEx_plain h₁,
      FileReader.setFilePointerEx_plain h₂, hfile]
    by_cases hneg : seekTarget r₂.mFile distance method < 0
    · rw [if_pos hneg, if_pos hneg]
      exact ⟨rfl, r₂.mFile, by rw [← hfile], rfl⟩
    · rw [if_neg hneg, if_neg hneg]
      exact ⟨rfl, _, rfl, rfl⟩
  | read n =>
    rw [FileReader.step, FileReader.step, FileReader.readFile_plain aes h₁,
      FileReader.readFile_plain aes h₂, FileReader.osRead, FileReader.osRead, hfile]
    exact ⟨rfl, r₂.mFile.afterRead n, by rw [FileReader.osSkip, hfile], rfl⟩

/-- **One call** of alike readers. -/
theorem Alike.answer (aes : AESCryptor) {r₁ r₂ : FileReader} (h : Alike r₁ r₂) (a : ReaderCall) :
    (r₁.answer aes a).2 = (r₂.answer aes a).2 ∧ Alike (r₁.answer aes a).1 (r₂.answer aes a).1 := by
  cases h with
  | plain h₁ h₂ hfile =>
    cases a with
    | setKey key => exact ⟨rfl, .plain h₁ h₂ hfile⟩
    | op o =>
      have hd : ∀ r : FileReader, r.mIsEncrypted = false → r.decrypting = false := by
        intro r h
        rw [FileReader.decrypting, h]
        rfl
      obtain ⟨hreply, file, hs₁, hs₂⟩ := step_plain aes (hd r₁ h₁) (hd r₂ h₂) hfile o
      rw [FileReader.answer, FileReader.answer, hreply, hs₁, hs₂]
      exact ⟨rfl, .plain h₁ h₂ rfl⟩
  | same a' b' c' codec hcodec hr₂ =>
    subst hr₂
    cases a with
    | setKey key => exact ⟨rfl, .same a' b' c' key (fun _ => rfl) rfl⟩
    | op o =>
      cases hd : r₁.decrypting with
      | false =>
        obtain ⟨hreply, file, hs₁, hs₂⟩ := @step_plain aes r₁ { r₁ with
          mRemuxSig := a', mHash := b', mLayout := c', mCodec := codec } hd hd rfl o
        rw [FileReader.answer, FileReader.answer, hreply, hs₁, hs₂]
        exact ⟨rfl, .same a' b' c' codec hcodec rfl⟩
      | true =>
        have hok : r₁.mKeyOk = true := (Bool.and_eq_true_iff.mp hd).2
        obtain rfl : r₁.mCodec = codec := hcodec hok
        have hstep := FileReader.step_withRest aes r₁ a' b' c' o
        rw [FileReader.answer, FileReader.answer]
        rw [show ({ r₁ with mRemuxSig := a', mHash := b', mLayout := c', mCodec := r₁.mCodec } :
          FileReader) = r₁.withRest a' b' c' from rfl, hstep]
        exact ⟨rfl, .same a' b' c' _ (fun _ => rfl) rfl⟩

theorem setFile_heapIntact {fuel : Nat} {file : ByteFile} {r r' : FileReader}
    (h : FileReader.setFile fuel r file = some r') : r'.mHeapIntact = r.frees := by
  rw [setFile_eq] at h
  split at h
  · exact congrArg FileReader.mHeapIntact (Option.some.inj h).symm
  · split at h
    · exact congrArg FileReader.mHeapIntact (Option.some.inj h).symm
    · split at h
      · exact congrArg FileReader.mHeapIntact (Option.some.inj h).symm
      · split at h
        · exact absurd h (by simp)
        · next hloop =>
          have hkept := (untouched_leafLoop fuel _ _ _ hloop).heapIntact
          exact (congrArg FileReader.mHeapIntact (Option.some.inj h).symm).trans hkept
        · next hloop =>
          have hkept := (untouched_leafLoop fuel _ _ _ hloop).heapIntact
          split at h
          · exact (congrArg FileReader.mHeapIntact (Option.some.inj h).symm).trans hkept
          · exact (congrArg FileReader.mHeapIntact (Option.some.inj h).symm).trans hkept

/-- **A file without a root** leaves the pointer to the block that it has freed, and the next
`SetFile`, with whatever file, frees that again. -/
theorem setFile_frees_twice {r : FileReader} (hblock : r.mBlockCachePtr = .block)
    {file : ByteFile} (hroot : ofLE (file.readBytes 8) ≠ eightccRoot) (fuel : Nat) :
    ∃ r', FileReader.setFile fuel r file = some r' ∧ r'.mBlockCachePtr = .freed ∧
      ∀ fuel' file', ∀ r'' ∈ FileReader.setFile fuel' r' file', r''.mHeapIntact = false := by
  have hrewound : FileReader.setFile fuel r file =
      some (((r.entered file).osSkip 8).rewind file.pos) := by
    rw [setFile_eq]
    split
    · rfl
    · exact if_pos hroot
  have hfreed : (((r.entered file).osSkip 8).rewind file.pos).mBlockCachePtr = .freed :=
    congrArg HeapPointer.afterFree hblock
  refine ⟨_, hrewound, hfreed, fun fuel' file' r'' hr'' => ?_⟩
  rw [setFile_heapIntact hr'', FileReader.frees, hfreed]
  exact Bool.and_false _

/-- **What `SetFile` keeps and sets**: the accepted-key flag stays, and an accepted file is
thought to be at its first block. -/
theorem setFile_spec {fuel : Nat} {file : ByteFile} {r r' : FileReader}
    (h : FileReader.setFile fuel r file = some r') :
    r'.mKeyOk = r.mKeyOk ∧ (r'.mIsEncrypted = true → r'.mFilePosCache = r'.mStartInFile) := by
  have hplain : ∀ s : FileReader, s.mKeyOk = r.mKeyOk → s.mIsEncrypted = false →
      some (s.rewind file.pos) = some r' →
      r'.mKeyOk = r.mKeyOk ∧ (r'.mIsEncrypted = true → r'.mFilePosCache = r'.mStartInFile) := by
    intro s hok hplain hs
    rw [Option.some.injEq] at hs
    subst hs
    exact ⟨hok, fun he => absurd (hplain.symm.trans he) (by decide)⟩
  rw [setFile_eq] at h
  split at h
  · exact hplain ((r.entered file).osSkip 8) rfl rfl h
  · split at h
    · exact hplain ((r.entered file).osSkip 8) rfl rfl h
    · split at h
      · exact hplain (((r.entered file).osSkip 8).osSkip 8) rfl rfl h
      · split at h
        · exact absurd h (by simp)
        · next hloop =>
          have hkept := untouched_leafLoop fuel _ _ _ hloop
          exact hplain _ hkept.keyOk hkept.isEncrypted h
        · next hloop =>
          have hkept := untouched_leafLoop fuel _ _ _ hloop
          split at h
          · exact hplain _ hkept.keyOk hkept.isEncrypted h
          · rw [Option.some.injEq] at h
            subst h
            exact ⟨hkept.keyOk, fun _ => rfl⟩

def otherFileReader : FileReader :=
  { freshReader with
    mFileSize := 9
    mBlockSize := 32
    mBlockCache := List.replicate 32 7
    mBlockCachePtr := .block
    mPos := 5
    mIsEncrypted := true }

end DWindow.E3D
