import DWindow.E3D.Reader

/-!
# Opening what the writer wrote

`setFile` walks the header that `encodeFile` writes leaf by leaf.  A file seen
from a reader is what lies before its position and what lies behind
(`ByteFile.split`), and each leaf moves its bytes from the second part to the
first: `readLeaf_leafBytes` is that step for any leaf the reader knows, with
`storeField` for what it stores.  `setFile_encodeFile` puts the six leaves
together, and `setKey_ok` says the key that encrypted the hint is accepted.
-/

namespace ByteFile

/-- The file with `a` before its position and `rest` behind it. -/
def split (a rest : List UInt8) : ByteFile := ⟨a ++ rest, a.length⟩

theorem split_readBytes (a : List UInt8) {b : List UInt8} (rest : List UInt8) {n : Nat}
    (h : b.length = n) :
    (split a (b ++ rest)).readBytes n = b := by
  subst h
  simp [split, readBytes]

theorem split_afterRead (a : List UInt8) {b : List UInt8} (rest : List UInt8) {n : Nat}
    (h : b.length = n) :
    (split a (b ++ rest)).afterRead n = split (a ++ b) rest := by
  rw [afterRead, split_readBytes a rest h]
  simp [split]

end ByteFile

namespace DWindow.E3D

open Blocks ByteFile CInt CString LittleEndian

/-- How much of a leaf's data `SetFile` reads. -/
def fieldLength (eightcc : Nat) : Nat :=
  if eightcc = eightccFilesize then 8
  else if eightcc = eightccBlocksize then 8
  else if eightcc = eightccKeyhint then 32
  else if eightcc = eightccLayout then 8
  else if eightcc = eightccSrchash then 20
  else if eightcc = eightccRemux then 128
  else 0

/-- What `SetFile` keeps of that much data. -/
def storeField (r : FileReader) (eightcc : Nat) (bs : List UInt8) : FileReader :=
  if eightcc = eightccFilesize then { r with mFileSize := toInt64 (ofLE bs) }
  else if eightcc = eightccBlocksize then
    { r with
      mBlockSize := toInt32 (ofLE (bs.take 4))
      mBlockCachePtr := r.mBlockCachePtr.overwrite (bs.drop 4) }
  else if eightcc = eightccKeyhint then { r with mKeyhint := bs }
  else if eightcc = eightccLayout then { r with mLayout := toInt64 (ofLE bs) }
  else if eightcc = eightccSrchash then { r with mHash := bs }
  else if eightcc = eightccRemux then { r with mRemuxSig := bs }
  else r

theorem seekCur_split (a b rest : List UInt8) (hfits : (a ++ b).length < 2 ^ 32) :
    seekCur (ByteFile.split a (b ++ rest)) b.length = ByteFile.split (a ++ b) rest := by
  have hpos : (ByteFile.split a (b ++ rest)).pos = a.length := rfl
  rw [List.length_append] at hfits
  rw [seekCur, if_pos ⟨by omega, by rw [hpos]; omega⟩]
  simp only [ByteFile.split, ByteFile.seekSet, ← List.append_assoc, List.length_append,
    ByteFile.mk.injEq, true_and]
  omega

theorem readField_split {r : FileReader} {eightcc : Nat} {a bs rest : List UInt8}
    (hlen : bs.length = fieldLength eightcc) :
    FileReader.readField { r with mFile := ByteFile.split a (bs ++ rest) } eightcc =
      ({ storeField r eightcc bs with mFile := ByteFile.split (a ++ bs) rest },
        some (fieldLength eightcc)) := by
  have hread := ByteFile.split_readBytes a rest hlen
  have hskip := ByteFile.split_afterRead a rest hlen
  have hint : ∀ w v, w ≤ fieldLength eightcc → overlay bs (toLE w v) = bs := by
    intro w v hw
    exact overlay_of_le (by rw [length_toLE]; omega)
  have hbuf : ∀ old : List UInt8, (overlay bs old).take (fieldLength eightcc) = bs :=
    fun old => take_overlay hlen
  unfold FileReader.readField storeField
  unfold fieldLength at hlen hread hskip hint hbuf ⊢
  dsimp only [FileReader.osRead, FileReader.osSkip]
  by_cases h1 : eightcc = eightccFilesize
  · simp only [if_pos h1] at hlen hread hskip hint ⊢
    simp [hread, hskip, hlen, hint]
  by_cases h2 : eightcc = eightccBlocksize
  · simp only [if_neg h1, if_pos h2] at hlen hread hskip hint ⊢
    simp [hread, hskip, hlen, hint]
  by_cases h3 : eightcc = eightccKeyhint
  · simp only [if_neg h1, if_neg h2, if_pos h3] at hlen hread hskip hbuf ⊢
    simp [hread, hskip, hlen, hbuf]
  by_cases h4 : eightcc = eightccLayout
  · simp only [if_neg h1, if_neg h2, if_neg h3, if_pos h4] at hlen hread hskip hint ⊢
    simp [hread, hskip, hlen, hint]
  by_cases h5 : eightcc = eightccSrchash
  · simp only [if_neg h1, if_neg h2, if_neg h3, if_neg h4, if_pos h5] at hlen hread hskip hbuf ⊢
    simp [hread, hskip, hlen, hbuf]
  by_cases h6 : eightcc = eightccRemux
  · simp only [if_neg h1, if_neg h2, if_neg h3, if_neg h4, if_neg h5, if_pos h6]
      at hlen hread hskip hbuf ⊢
    simp [hread, hskip, hlen, hbuf]
  · simp only [if_neg h1, if_neg h2, if_neg h3, if_neg h4, if_neg h5, if_neg h6] at hlen ⊢
    rw [List.length_eq_zero_iff.mp hlen, List.nil_append, List.append_nil]

/-- The bytes of a leaf with `data` in it. -/
def leafBytes (eightcc : Nat) (data : List UInt8) : List UInt8 :=
  toLE 8 eightcc ++ toLE 8 data.length ++ data

/-- **One leaf.**  The reader takes the front of its data and steps over the
rest. -/
theorem readLeaf_leafBytes (r : FileReader) (a rest : List UInt8) {eightcc : Nat}
    {bs behind : List UInt8}
    (hcc : eightcc < 256 ^ 8) (hlen : bs.length = fieldLength eightcc)
    (hsmall : (bs ++ behind).length < 2 ^ 31)
    (hfits : (a ++ leafBytes eightcc (bs ++ behind)).length < 2 ^ 32) :
    FileReader.readLeaf
        { r with mFile := ByteFile.split a (leafBytes eightcc (bs ++ behind) ++ rest) } =
      ({ storeField r eightcc bs with
          mFile := ByteFile.split (a ++ leafBytes eightcc (bs ++ behind)) rest },
        some ((bs ++ behind).length : Int)) := by
  have h8 : ∀ v, (toLE 8 v).length = 8 := length_toLE 8
  have hsz : toInt64 (ofLE (toLE 8 (bs ++ behind).length)) = ((bs ++ behind).length : Int) := by
    rw [ofLE_toLE_of_lt (lt_trans hsmall (by norm_num)), toInt64_of_lt (by omega) (by omega)]
  have hskip : toInt32 (((bs ++ behind).length : Int) - (fieldLength eightcc : Nat)) =
      behind.length := by
    rw [List.length_append] at hsmall ⊢
    rw [toInt32_of_lt (by omega) (by omega)]
    omega
  have hcc8 : ofLE (toLE 8 eightcc) = eightcc := ofLE_toLE_of_lt hcc
  unfold FileReader.readLeaf
  dsimp only [FileReader.osRead, FileReader.osSkip]
  rw [leafBytes, List.append_assoc, List.append_assoc,
    ByteFile.split_readBytes _ _ (h8 _), ByteFile.split_afterRead _ _ (h8 _),
    ByteFile.split_readBytes _ _ (h8 _), ByteFile.split_afterRead _ _ (h8 _), hcc8, hsz,
    List.append_assoc,
    readField_split hlen]
  simp only [h8, ne_eq, not_true_eq_false, if_false, hskip]
  rw [List.append_assoc, seekCur_split _ _ _ (by simpa [leafBytes, Nat.add_assoc] using hfits)]
  simp only [List.append_assoc]

/-- A leaf that the reader takes whole or in part: `front` is what it reads of
the data, `behind` what it skips. -/
structure KnownLeaf where
  eightcc : Nat
  front : List UInt8
  behind : List UInt8
  eightcc_lt : eightcc < 256 ^ 8
  length_front : front.length = fieldLength eightcc
  short : (front ++ behind).length < 2 ^ 31

namespace KnownLeaf

def bytes (leaf : KnownLeaf) : List UInt8 := leafBytes leaf.eightcc (leaf.front ++ leaf.behind)

def store (r : FileReader) (leaf : KnownLeaf) : FileReader := storeField r leaf.eightcc leaf.front

theorem length_bytes (leaf : KnownLeaf) :
    (leaf.bytes.length : Int) = 16 + ((leaf.front ++ leaf.behind).length : Int) := by
  rw [bytes, leafBytes, List.length_append, List.length_append, length_toLE, length_toLE]
  push_cast
  ring

end KnownLeaf

/-- **The leaf loop reads every leaf of the root.** -/
theorem leafLoop_leaves : ∀ (leaves : List KnownLeaf) (r : FileReader) (a rest : List UInt8)
    (total rootSize : Int) (fuel : Nat), leaves ≠ [] → leaves.length ≤ fuel →
    rootSize = total + (leaves.flatMap KnownLeaf.bytes).length → 0 ≤ total → rootSize < 2 ^ 63 →
    (a ++ leaves.flatMap KnownLeaf.bytes).length < 2 ^ 32 →
      FileReader.leafLoop fuel
          { r with mFile := ByteFile.split a (leaves.flatMap KnownLeaf.bytes ++ rest) }
          total rootSize =
        some ({ leaves.foldl KnownLeaf.store r with
          mFile := ByteFile.split (a ++ leaves.flatMap KnownLeaf.bytes) rest }, true) := by
  intro leaves
  induction leaves with
  | nil => intro r a rest total rootSize fuel hne; exact absurd rfl hne
  | cons leaf leaves ih =>
    intro r a rest total rootSize fuel _ hfuel hsize htotal hroot hfits
    obtain ⟨fuel, rfl⟩ : ∃ n, fuel = n + 1 := ⟨fuel - 1, by rw [List.length_cons] at hfuel; omega⟩
    rw [List.flatMap_cons, List.length_append, Nat.cast_add, leaf.length_bytes] at hsize
    rw [List.flatMap_cons, ← List.append_assoc] at hfits
    have hfirst : (a ++ leaf.bytes).length < 2 ^ 32 := by
      rw [List.length_append] at hfits
      omega
    have hread := readLeaf_leafBytes r a (leaves.flatMap KnownLeaf.bytes ++ rest)
      leaf.eightcc_lt leaf.length_front leaf.short hfirst
    have hnext : toInt64 (total + (16 + ((leaf.front ++ leaf.behind).length : Int))) =
        total + (16 + ((leaf.front ++ leaf.behind).length : Int)) :=
      toInt64_of_lt (by omega) (by omega)
    rw [List.flatMap_cons, List.append_assoc, FileReader.leafLoop, KnownLeaf.bytes, hread]
    dsimp only
    rw [hnext]
    rcases eq_or_ne leaves [] with rfl | hne
    · rw [if_neg (by rw [List.flatMap_nil, List.length_nil] at hsize; omega)]
      simp [KnownLeaf.store]
    · have hpos : 0 < (leaves.flatMap KnownLeaf.bytes).length := by
        obtain ⟨l, ls, rfl⟩ := List.exists_cons_of_ne_nil hne
        have := l.length_bytes
        rw [List.flatMap_cons, List.length_append]
        omega
      rw [if_pos (by omega), ih _ _ _ _ _ _ hne (by rw [List.length_cons] at hfuel; omega)
        (by omega) (by omega) hroot (by exact hfits), List.foldl_cons, KnownLeaf.store,
        List.append_assoc]

/-- The reader as `SetFile` takes it into the leaf loop. -/
def entering (r : FileReader) (rootSize : Int) : FileReader := { r with
  mRemuxSig := List.replicate 128 0
  mIsEncrypted := false
  mHash := List.replicate 20 0
  mCachePos := 0
  mBlockCache := []
  mBlockCachePtr := r.mBlockCachePtr.afterFree
  mHeapIntact := r.mHeapIntact && r.mBlockCachePtr.freeable
  mStartInFile := rootSize + 16 }

/-- **A root of known leaves is accepted** when they set a file size and a block
size. -/
theorem setFile_leaves (leaves : List KnownLeaf) (body : List UInt8) (r : FileReader) (fuel : Nat)
    {n : Nat} (hne : leaves ≠ []) (hfuel : leaves.length ≤ fuel)
    (hn : (leaves.flatMap KnownLeaf.bytes).length = n) (hsmall : n + 16 < 2 ^ 32)
    (hsize : (leaves.foldl KnownLeaf.store (entering r n)).mFileSize ≠ 0)
    (hblock : (leaves.foldl KnownLeaf.store (entering r n)).mBlockSize ≠ 0) :
    FileReader.setFile fuel r
        ⟨toLE 8 eightccRoot ++ toLE 8 n ++ leaves.flatMap KnownLeaf.bytes ++ body, 0⟩ =
      let r' := leaves.foldl KnownLeaf.store (entering r n)
      some { r' with
        mFile := ByteFile.split (toLE 8 eightccRoot ++ toLE 8 n ++
          leaves.flatMap KnownLeaf.bytes) body
        mFilePosCache := r'.mStartInFile
        mIsEncrypted := true
        mCachePos := -1
        mPos := 0
        mBlockCache := List.replicate r'.mBlockSize.toNat 0
        mBlockCachePtr := if 0 < r'.mBlockSize then .block else .null } := by
  have h8 : ∀ v, (toLE 8 v).length = 8 := length_toLE 8
  have hroot : ofLE (toLE 8 eightccRoot) = eightccRoot := ofLE_toLE_of_lt (by decide)
  have hsz : toInt64 (ofLE (toLE 8 n)) = n := by
    rw [ofLE_toLE_of_lt (by omega), toInt64_of_lt (by omega) (by omega)]
  have hsplit : (⟨toLE 8 eightccRoot ++ toLE 8 n ++ leaves.flatMap KnownLeaf.bytes ++ body, 0⟩ :
      ByteFile) = ByteFile.split [] (toLE 8 eightccRoot ++
        (toLE 8 n ++ (leaves.flatMap KnownLeaf.bytes ++ body))) := by
    rw [ByteFile.split, List.nil_append, List.append_assoc, List.append_assoc, List.length_nil]
  have hloop := leafLoop_leaves leaves (entering r n) ([] ++ toLE 8 eightccRoot ++ toLE 8 n) body
    0 n fuel hne hfuel (by rw [hn, zero_add]) (le_refl 0) (by omega)
    (by rw [List.length_append, List.length_append, List.length_append, h8, h8, hn]; simpa using
      (by omega : 16 + n < 2 ^ 32))
  rw [hsplit]
  unfold FileReader.setFile
  dsimp only [FileReader.osRead, FileReader.osSkip]
  rw [ByteFile.split_readBytes _ _ (h8 _), ByteFile.split_afterRead _ _ (h8 _),
    ByteFile.split_readBytes _ _ (h8 _), ByteFile.split_afterRead _ _ (h8 _), h8, h8, hroot, hsz]
  rw [if_neg (not_not_intro rfl), if_neg (not_not_intro rfl), if_neg (not_not_intro rfl)]
  dsimp only [entering] at hloop hsize hblock ⊢
  rw [hloop]
  dsimp only
  rw [if_neg (not_or_intro hsize hblock), List.nil_append]
  rfl

/-! ## The header of `encodeFile` -/

theorem length_keyHint (aes : AESCryptor) (key : List UInt8) : (keyHint aes key).length = 32 := by
  have hplain : (padTo 16 (ascii ['t', 'e', 's', 't', ' ', 'd', 'a', 't', 'a'])).length = 16 := by
    decide
  rw [keyHint, List.length_append, aes.encrypt_length _ _ hplain, hplain]

theorem length_remuxSig : remuxSig.length = 192 := length_padTo (by decide)

/-- The six leaves `encode_file` writes. -/
def headerLeaves (aes : AESCryptor) (key : List UInt8) (fileSize : Nat) (sourceHash : List UInt8)
    (hhash : sourceHash.length = 20) : List KnownLeaf :=
  [⟨eightccFilesize, toLE 8 fileSize, [], by decide, by rw [length_toLE]; decide, by simp⟩,
    ⟨eightccBlocksize, toLE 8 E3D_BLOCK_SIZE, [], by decide, by decide, by decide⟩,
    ⟨eightccLayout, toLE 8 0, [], by decide, by decide, by decide⟩,
    ⟨eightccSrchash, sourceHash, [], by decide, by rw [hhash]; decide, by simp [hhash]⟩,
    ⟨eightccKeyhint, keyHint aes key, [], by decide, by rw [length_keyHint]; decide,
      by simp [length_keyHint]⟩,
    ⟨eightccRemux, remuxSig.take 128, remuxSig.drop 128, by decide,
      by rw [List.length_take, length_remuxSig]; decide,
      by rw [List.take_append_drop, length_remuxSig]; decide⟩]

theorem writeTo_headerRoot (aes : AESCryptor) (key : List UInt8) (fileSize : Nat)
    {sourceHash : List UInt8} (hhash : sourceHash.length = 20) :
    (headerRoot aes key fileSize sourceHash).writeTo =
      toLE 8 eightccRoot ++ toLE 8 364 ++
        (headerLeaves aes key fileSize sourceHash hhash).flatMap KnownLeaf.bytes := by
  simp only [headerRoot, My12doomLeaf.addLeaf, My12doomLeaf.childSize, My12doomLeaf.writeTo,
    My12doomLeaf.writeLeaves, headerLeaves, KnownLeaf.bytes, leafBytes, List.flatMap_cons,
    List.flatMap_nil, List.append_nil, List.take_append_drop, List.nil_append, List.cons_append,
    length_toLE, length_keyHint, hhash, length_remuxSig]

theorem length_headerLeaves (aes : AESCryptor) (key : List UInt8) (fileSize : Nat)
    {sourceHash : List UInt8} (hhash : sourceHash.length = 20) :
    ((headerLeaves aes key fileSize sourceHash hhash).flatMap KnownLeaf.bytes).length = 364 := by
  simp only [headerLeaves, KnownLeaf.bytes, leafBytes, List.flatMap_cons, List.flatMap_nil,
    List.append_nil, List.take_append_drop, List.length_append, length_toLE, length_keyHint,
    hhash, length_remuxSig]


theorem eightcc_nodup : [eightccRemux, eightccSrchash, eightccLayout, eightccKeyhint,
    eightccBlocksize, eightccFilesize].Nodup := by decide

theorem foldl_headerLeaves (aes : AESCryptor) (key : List UInt8) {fileSize : Nat}
    {sourceHash : List UInt8} (hhash : sourceHash.length = 20) (hsize : fileSize < 2 ^ 63)
    (r : FileReader) :
    (headerLeaves aes key fileSize sourceHash hhash).foldl KnownLeaf.store r = { r with
      mFileSize := fileSize
      mBlockSize := 16
      mBlockCachePtr := .null
      mLayout := 0
      mHash := sourceHash
      mKeyhint := keyHint aes key
      mRemuxSig := remuxSig.take 128 } := by
  have hfile : toInt64 (ofLE (toLE 8 fileSize)) = fileSize := by
    rw [ofLE_toLE_of_lt (lt_trans hsize (by norm_num)), toInt64_of_lt (by omega) (by omega)]
  have hblock : toInt32 (ofLE ((toLE 8 E3D_BLOCK_SIZE).take 4)) = 16 := by decide
  have hdrop : (toLE 8 E3D_BLOCK_SIZE).drop 4 = [0, 0, 0, 0] := by decide
  have hlayout : toInt64 (ofLE (toLE 8 0)) = 0 := by decide
  have hne := eightcc_nodup
  simp only [List.nodup_cons, List.mem_cons, List.not_mem_nil, or_false, not_or] at hne
  simp only [headerLeaves, List.foldl_cons, List.foldl_nil, KnownLeaf.store, storeField, if_true,
    hne, if_false, hfile, hblock, hdrop, HeapPointer.overwrite_zeros, hlayout]

/-- **What the reader is after `SetFile`** on a file that begins with the header:
it stands behind the header with the values that were written and nothing in the
cache. -/
theorem setFile_headerRoot (aes : AESCryptor) (key : List UInt8) {fileSize : Nat}
    {sourceHash : List UInt8} (hhash : sourceHash.length = 20) (h0 : 0 < fileSize)
    (hsize : fileSize < 2 ^ 63) (body : List UInt8) (r : FileReader) {fuel : Nat}
    (hfuel : 6 ≤ fuel) :
    ∃ r', FileReader.setFile fuel r
        ⟨(headerRoot aes key fileSize sourceHash).writeTo ++ body, 0⟩ = some r' ∧
      r'.mFile = ByteFile.split (headerRoot aes key fileSize sourceHash).writeTo body ∧
      r'.mFileSize = fileSize ∧ r'.mBlockSize = 16 ∧ r'.mKeyhint = keyHint aes key ∧
      r'.mStartInFile = (headerRoot aes key fileSize sourceHash).writeTo.length ∧
      r'.mFilePosCache = r'.mStartInFile ∧ r'.mIsEncrypted = true ∧
      r'.mCachePos = -1 ∧ r'.mPos = 0 ∧ r'.mBlockCache.length = 16 := by
  have hfold := fun r => foldl_headerLeaves aes key hhash hsize r
  have hlen := length_headerLeaves aes key fileSize hhash
  have hopen := setFile_leaves (headerLeaves aes key fileSize sourceHash hhash) body r fuel
    (by rw [headerLeaves]; exact List.cons_ne_nil _ _) hfuel hlen (by norm_num)
    (by rw [hfold]; dsimp only; omega) (by rw [hfold]; dsimp only; omega)
  rw [← writeTo_headerRoot aes key fileSize hhash, hfold] at hopen
  refine ⟨_, hopen, rfl, rfl, rfl, rfl, ?_, rfl, rfl, rfl, rfl, by rw [List.length_replicate]; rfl⟩
  rw [writeTo_headerRoot aes key fileSize hhash, List.length_append, hlen, List.length_append,
    length_toLE, length_toLE]
  rfl

/-- **The key that wrote the hint is accepted.** -/
theorem setKey_keyHint (aes : AESCryptor) {r : FileReader} {key : List UInt8}
    (hhint : r.mKeyhint = keyHint aes key) : (r.setKey aes key).mKeyOk = true := by
  have hplain : (padTo 16 (ascii ['t', 'e', 's', 't', ' ', 'd', 'a', 't', 'a'])).length = 16 := by
    decide
  have henc := aes.encrypt_length key _ hplain
  set plain := padTo 16 (ascii ['t', 'e', 's', 't', ' ', 'd', 'a', 't', 'a']) with hdef
  have hover : overlay (aes.encrypt key plain) (plain ++ aes.encrypt key plain) =
      aes.encrypt key plain ++ aes.encrypt key plain := by
    rw [overlay, List.drop_left' (by rw [hplain, henc])]
  rw [FileReader.setKey, hhint, keyHint]
  dsimp only
  rw [← hdef, List.take_left' hplain, hover, List.take_left' henc, List.drop_left' henc,
    List.take_of_length_le (by omega), decide_eq_true rfl]

end DWindow.E3D
