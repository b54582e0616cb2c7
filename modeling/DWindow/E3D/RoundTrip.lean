import DWindow.E3D.Open
import DWindow.Lib.Machine
import Mathlib.Algebra.BigOperators.Group.List.Basic
import Mathlib.Algebra.Group.End

/-!
# An encrypted file reads like the file it was made from

A plain read-only file is a `ByteFile` on which one seeks and reads.  `Reading`
is the invariant that ties a `FileReader` to it: the file under the reader is the
header and the encrypted blocks, the reader knows where that file stands, and
the cache, when it claims a block, holds that block in the clear.  Each of the
three parts of a read delivers a window of the plain bytes and keeps `Reading`
(`readHead_spec`, `readBody_spec`, `readTail_spec`); seeks keep it as well, and
`encodeFile_reads_as_source` follows over every sequence of them.
-/

namespace DWindow.E3D

open Blocks ByteFile CInt Runs Machine
open FileReader (MoveMethod)

inductive FileOp where
  | getFileSize
  | seek (distance : Int) (method : MoveMethod)
  | read (n : Nat)
deriving Repr

inductive FileReply where
  | size (n : Int)
  | moved (target : Option Int)
  | bytes (bs : Option (List UInt8))
deriving DecidableEq, Repr

/-- The operations of `file_reader`. -/
def FileReader.step (aes : AESCryptor) (r : FileReader) : FileOp → FileReader × FileReply
  | .getFileSize => (r, .size r.getFileSizeEx)
  | .seek distance method => ((r.setFilePointerEx distance method).1,
      .moved (r.setFilePointerEx distance method).2)
  | .read n => ((r.readFile aes n).1, .bytes (r.readFile aes n).2)

def seekTarget (f : ByteFile) (distance : Int) : MoveMethod → Int
  | .SEEK_SET => distance
  | .SEEK_CUR => f.pos + distance
  | .SEEK_END => f.data.length + distance

def plainStep (f : ByteFile) : FileOp → ByteFile × FileReply
  | .getFileSize => (f, .size f.data.length)
  | .seek distance method =>
    (f.seekSet (seekTarget f distance method).toNat, .moved (some (seekTarget f distance method)))
  | .read n => (f.afterRead n, .bytes (some (f.readBytes n)))

/-- The operations that are asked for: seeks from the front or from where one is
to a place inside the file, and reads of at least one byte from inside it. -/
def InsideFile (f : ByteFile) : FileOp → Prop
  | .getFileSize => True
  | .seek distance method => method ≠ .SEEK_END ∧ 0 ≤ seekTarget f distance method ∧
      seekTarget f distance method < f.data.length
  | .read n => 1 ≤ n ∧ n < 2 ^ 32 ∧ f.pos < f.data.length

/-- An encrypted file: its header, and the blocks of the source with the zeros
that fill the last one. -/
structure Volume where
  header : List UInt8
  source : List UInt8
  zeros : List UInt8
  blocks : Nat
  length_plain : (source ++ zeros).length = blocks * 16
  source_lt : source.length < 2 ^ 63

namespace Volume

def plain (v : Volume) : List UInt8 := v.source ++ v.zeros

def bytes (v : Volume) (aes : AESCryptor) (key : List UInt8) : List UInt8 :=
  v.header ++ mapBlocks 16 (aes.encrypt key) v.blocks v.plain

end Volume

/-- The reader is open on the volume at `p`, whatever its cache claims. -/
structure Opened (aes : AESCryptor) (key : List UInt8) (v : Volume) (r : FileReader) (p : Nat) :
    Prop where
  encrypted : r.mIsEncrypted = true
  keyOk : r.mKeyOk = true
  codec : r.mCodec = key
  blockSize : r.mBlockSize = 16
  fileSize : r.mFileSize = v.source.length
  startInFile : r.mStartInFile = v.header.length
  data : r.mFile.data = v.bytes aes key
  filePos : r.mFilePosCache = r.mFile.pos
  pos : r.mPos = p
  length_cache : r.mBlockCache.length = 16

/-- And a block that the cache claims is in it. -/
structure Reading (aes : AESCryptor) (key : List UInt8) (v : Volume) (r : FileReader) (p : Nat) :
    Prop extends Opened aes key v r p where
  cache : r.mCachePos = -1 ∨ ∃ j, j < v.blocks ∧ r.mCachePos = (j * 16 : Nat) ∧
    r.mBlockCache = window v.plain (j * 16) 16

section

variable {aes : AESCryptor} {key : List UInt8} {v : Volume} {r : FileReader} {p : Nat}

/-- **Reading whole blocks and decrypting them gives a window of the plain bytes.** -/
theorem Opened.decrypt_osRead (hinv : aes.Inverts key) (h : Opened aes key v r p) {j k : Nat}
    (hpos : r.mFile.pos = v.header.length + j * 16) (hjk : j + k ≤ v.blocks) :
    (r.osRead (k * 16)).length = k * 16 ∧
      mapBlocks 16 (aes.decrypt r.mCodec) k (r.osRead (k * 16)) =
        window v.plain (j * 16) (k * 16) := by
  have hkeep := keepsLength_encrypt aes key
  have hplain : v.plain.length = v.blocks * 16 := v.length_plain
  have hle : j * 16 + k * 16 ≤ v.plain.length := by
    rw [hplain, ← Nat.add_mul]
    exact Nat.mul_le_mul_right 16 hjk
  have hread : r.osRead (k * 16) = mapBlocks 16 (aes.encrypt key) k
      (window v.plain (j * 16) (k * 16)) := by
    rw [FileReader.osRead, ByteFile.readBytes, h.data, hpos, Volume.bytes, ← List.drop_drop,
      List.drop_left, ← window_mapBlocks hkeep hplain hjk]
    rfl
  have hwin : (window v.plain (j * 16) (k * 16)).length = k * 16 := length_window hle
  rw [hread, h.codec]
  exact ⟨by rw [length_mapBlocks hkeep _ _ (le_of_eq hwin.symm), hwin],
    mapBlocks_inverse hkeep hinv k _ (le_of_eq hwin.symm)⟩

/-- A seek of the handle brings it to its target, and nothing else changes. -/
theorem Opened.seekTo (h : Opened aes key v r p) (target : Int) {q : Nat} (hq : target = q) :
    r.seekTo target = { r with mFilePosCache := target, mFile := r.mFile.seekSet q } := by
  rw [FileReader.seekTo]
  split_ifs with hne
  · rw [hq, Int.toNat_natCast]
  · have hpos : r.mFile.pos = q := by
      have := h.filePos
      omega
    rw [not_not.mp hne, ← hpos]
    rfl

/-- The cache is filled with the block the handle stands at. -/
theorem Opened.fillCache (hinv : aes.Inverts key) (h : Opened aes key v r p) {j : Nat}
    (hpos : r.mFile.pos = v.header.length + j * 16) (hj : j < v.blocks) :
    (r.osRead r.mBlockSize.toNat).length = 16 ∧
      (r.fillCache aes).mBlockCache = window v.plain (j * 16) 16 ∧
      (r.fillCache aes).mFile.pos = r.mFile.pos + 16 := by
  obtain ⟨hlen, hdec⟩ := h.decrypt_osRead hinv hpos (k := 1) hj
  rw [Nat.one_mul] at hlen hdec
  have hover : overlay (r.osRead 16) r.mBlockCache = r.osRead 16 :=
    overlay_of_le (by rw [hlen, h.length_cache])
  rw [FileReader.fillCache, h.blockSize]
  refine ⟨hlen, ?_, ?_⟩
  · dsimp only [FileReader.osSkip]
    rw [show Int.toNat 16 = 16 by rfl, hover]
    exact hdec
  · dsimp only [FileReader.osSkip, ByteFile.afterRead]
    exact congrArg (r.mFile.pos + ·) hlen

theorem Opened.withCachePos (h : Opened aes key v r p) (c : Int) :
    Opened aes key v { r with mCachePos := c } p :=
  ⟨h.encrypted, h.keyOk, h.codec, h.blockSize, h.fileSize, h.startInFile, h.data, h.filePos, h.pos,
    h.length_cache⟩

theorem Reading.withPos (h : Reading aes key v r p) {x : Int} {q : Nat} (hx : x = q) :
    Reading aes key v { r with mPos := x } q :=
  ⟨⟨h.encrypted, h.keyOk, h.codec, h.blockSize, h.fileSize, h.startInFile, h.data, h.filePos, hx,
    h.length_cache⟩, h.cache⟩

/-- **Loading a block.**  The reader claims block `j`, seeks to it, fills the
cache and moves its idea of the handle's position along. -/
theorem Opened.load (hinv : aes.Inverts key) (h : Opened aes key v r p) {c : Int} {j : Nat}
    (hc : c = (j * 16 : Nat)) (hj : j < v.blocks) {target : Int}
    (ht : target = r.mStartInFile + c) {r₁ : FileReader}
    (hr₁ : r₁ = FileReader.seekTo { r with mCachePos := c } target) :
    (r₁.osRead r₁.mBlockSize.toNat).length = 16 ∧
      (r₁.fillCache aes).mBlockSize = 16 ∧
      (r₁.fillCache aes).mBlockCache = window v.plain (j * 16) 16 ∧
      (r₁.fillCache aes).mCachePos = c ∧ ∀ d : Int, d = 16 →
      Reading aes key v
        { r₁.fillCache aes with mFilePosCache := (r₁.fillCache aes).mFilePosCache + d } p := by
  have hblocks : v.plain.length = v.blocks * 16 := v.length_plain
  rw [(h.withCachePos c).seekTo _ (q := v.header.length + j * 16)
    (by rw [ht, hc, h.startInFile]; push_cast; ring)] at hr₁
  have h₁ : Opened aes key v r₁ p := by
    rw [hr₁]
    exact ⟨h.encrypted, h.keyOk, h.codec, h.blockSize, h.fileSize, h.startInFile, h.data,
      by rw [ht, hc, h.startInFile]; push_cast; rfl, h.pos, h.length_cache⟩
  obtain ⟨hlen, hcache, hpos⟩ := h₁.fillCache hinv (j := j) (by rw [hr₁]; rfl) hj
  have hcp : (r₁.fillCache aes).mCachePos = c := by rw [hr₁]; rfl
  have hfpc : (r₁.fillCache aes).mFilePosCache = r₁.mFile.pos := h₁.filePos
  refine ⟨hlen, h₁.blockSize, hcache, hcp, fun d hd => ⟨⟨h₁.encrypted, h₁.keyOk, h₁.codec,
    h₁.blockSize, h₁.fileSize, h₁.startInFile, h₁.data, ?_, h₁.pos, ?_⟩,
    Or.inr ⟨j, hj, hcp.trans hc, hcache⟩⟩⟩
  · dsimp only
    rw [hfpc, hpos, hd]
    push_cast
    rfl
  · dsimp only
    rw [hcache, length_window]
    omega

/-! ## The three parts of a read -/

theorem Reading.cacheBlock (hinv : aes.Inverts key) (h : Reading aes key v r p)
    (hp : p < v.plain.length) :
    Reading aes key v (r.cacheBlock aes) p ∧
      (r.cacheBlock aes).mCachePos = (p / 16 * 16 : Nat) ∧
      (r.cacheBlock aes).mBlockCache = window v.plain (p / 16 * 16) 16 := by
  have hblocks : v.plain.length = v.blocks * 16 := v.length_plain
  have hblock : r.mPos.tdiv r.mBlockSize * r.mBlockSize = ((p / 16 * 16 : Nat) : Int) := by
    rw [h.pos, h.blockSize, show (16 : Int) = ((16 : Nat) : Int) by rfl, ← Int.ofNat_tdiv,
      ← Int.natCast_mul]
  rw [FileReader.cacheBlock, hblock]
  dsimp only
  split_ifs with hc
  · obtain ⟨-, hsize, hcache, hcpos, hreading⟩ :=
      h.toOpened.load hinv (j := p / 16) rfl (by omega) rfl rfl
    exact ⟨hreading _ hsize, hcpos, hcache⟩
  · rw [not_not] at hc
    refine ⟨h, hc, ?_⟩
    rcases h.cache with hnone | ⟨j, -, hj, hcache⟩
    · omega
    · have : j = p / 16 := by omega
      rw [hcache, this]

/-- **The head** of a read delivers what it takes off the request, and leaves the
reader at the front of a block unless it was all. -/
theorem Reading.readHead (hinv : aes.Inverts key) (h : Reading aes key v r p) {n : Nat} (hn : 1 ≤ n)
    (hpn : p + n ≤ v.plain.length) :
    ∃ r' k, r.readHead aes n = (r', n - k, window v.plain p k) ∧ k ≤ n ∧
      Reading aes key v r' (p + k) ∧ (k < n → (p + k) % 16 = 0) := by
  have hblocks : v.plain.length = v.blocks * 16 := v.length_plain
  have htmod : r.mPos.tmod r.mBlockSize = ((p % 16 : Nat) : Int) := by
    rw [h.pos, h.blockSize]
    exact (Int.ofNat_tmod p 16).symm
  rw [FileReader.readHead, htmod]
  by_cases hp : ((p % 16 : Nat) : Int) ≠ 0
  · obtain ⟨hreading, hcpos, hcache⟩ := h.cacheBlock hinv (by omega)
    rw [if_pos hp]
    dsimp only
    obtain ⟨k, hk, hkn⟩ : ∃ k : Nat, min ((r.cacheBlock aes).mCachePos +
        (r.cacheBlock aes).mBlockSize - (r.cacheBlock aes).mPos) n = k ∧
          k = min (16 - p % 16) n := by
      refine ⟨_, ?_, rfl⟩
      rw [hcpos, hreading.pos, hreading.blockSize]
      omega
    rw [hk, Int.toNat_natCast]
    refine ⟨_, k, Prod.ext rfl (Prod.ext rfl ?_), by omega, hreading.withPos ?_, by omega⟩
    · dsimp only
      rw [hcache, hcpos, hreading.pos]
      refine (window_window (by omega)).trans ?_
      congr 1
      omega
    · rw [hreading.pos, Nat.cast_add]
  · rw [if_neg hp]
    refine ⟨r, 0, ?_, Nat.zero_le _, h, by omega⟩
    rw [window, List.take_zero, Nat.sub_zero]

/-- **The body** delivers the whole blocks of a request that starts a block. -/
theorem Reading.readBody (hinv : aes.Inverts key) (h : Reading aes key v r p) {n : Nat}
    (hpn : p + n ≤ v.plain.length) (hp : 0 < n → p % 16 = 0) :
    ∃ r' k, r.readBody aes n = (r', n - k, window v.plain p k) ∧ k ≤ n ∧ n - k ≤ 16 ∧
      Reading aes key v r' (p + k) ∧ (k < n → (p + k) % 16 = 0) := by
  have hblocks : v.plain.length = v.blocks * 16 := v.length_plain
  have hsize : toDWORD r.mBlockSize = 16 := by rw [h.blockSize]; rfl
  rw [FileReader.readBody, hsize]
  by_cases hn : n > 16
  · obtain ⟨r₁, hr₁⟩ : ∃ r₁, r₁ = r.seekTo (r.mPos + r.mStartInFile) := ⟨_, rfl⟩
    obtain ⟨j, rfl⟩ : ∃ j, p = j * 16 := ⟨p / 16, by have := hp (by omega); omega⟩
    have hseek := h.toOpened.seekTo (r.mPos + r.mStartInFile)
      (q := v.header.length + j * 16) (by rw [h.pos, h.startInFile]; push_cast; ring)
    have h₁ : Reading aes key v r₁ (j * 16) := by
      rw [hr₁, hseek]
      refine ⟨⟨h.encrypted, h.keyOk, h.codec, h.blockSize, h.fileSize, h.startInFile, h.data, ?_,
        h.pos, h.length_cache⟩, h.cache⟩
      dsimp only
      rw [h.pos, h.startInFile, ByteFile.seekSet_pos]
      push_cast
      ring
    obtain ⟨hlen, hdec⟩ := h₁.toOpened.decrypt_osRead hinv (j := j) (k := n / 16)
      (by rw [hr₁, hseek]; rfl) (by omega)
    have hsize₁ : toDWORD r₁.mBlockSize = 16 := by rw [h₁.blockSize]; rfl
    rw [if_pos hn, ← hr₁]
    dsimp only
    rw [hsize₁, show (n / 16 * 16 + 15) / 16 = n / 16 by omega, hdec]
    refine ⟨_, n / 16 * 16, rfl, by omega, by omega, ⟨⟨h₁.encrypted, h₁.keyOk, h₁.codec,
      h₁.blockSize, h₁.fileSize, h₁.startInFile, h₁.data, ?_, ?_, h₁.length_cache⟩, h₁.cache⟩,
      by omega⟩
    · -- the handle moved by what was read
      have hpos : (r₁.osSkip (n / 16 * 16)).mFile.pos = r₁.mFile.pos + n / 16 * 16 :=
        congrArg (r₁.mFile.pos + ·) hlen
      dsimp only
      rw [hpos, Nat.cast_add, ← h₁.filePos]
      rfl
    · dsimp only
      rw [Nat.cast_add, ← h₁.pos]
      rfl
  · rw [if_neg hn]
    refine ⟨r, 0, ?_, Nat.zero_le _, by omega, h, hp⟩
    rw [window, List.take_zero, Nat.sub_zero]

/-- **The tail** delivers the rest, at most a block of it. -/
theorem Reading.readTail (hinv : aes.Inverts key) (h : Reading aes key v r p) {n : Nat}
    (hpn : p + n ≤ v.plain.length) (hp : 0 < n → p % 16 = 0) (hn : n ≤ 16) :
    ∃ r', r.readTail aes n = (r', window v.plain p n) ∧ Reading aes key v r' (p + n) := by
  have hblocks : v.plain.length = v.blocks * 16 := v.length_plain
  rw [FileReader.readTail]
  by_cases h0 : n > 0
  · have hmod := hp h0
    obtain ⟨r₁, hr₁⟩ : ∃ r₁, r₁ =
        FileReader.seekTo { r with mCachePos := r.mPos } (r.mPos + r.mStartInFile) := ⟨_, rfl⟩
    obtain ⟨hlen, -, hcache, -, hreading⟩ := h.toOpened.load hinv (c := r.mPos)
      (j := p / 16) (by rw [h.pos]; omega) (by omega) (add_comm r.mPos _) hr₁
    rw [if_pos h0]
    dsimp only
    rw [← hr₁]
    -- what is left does not depend on how the block came into the cache
    generalize r₁.fillCache aes = r₂ at hcache hreading ⊢
    refine ⟨_, Prod.ext rfl ?_, Reading.withPos (hreading _ ?_) ?_⟩
    · dsimp only
      rw [hcache]
      refine (window_window (b := 0) (by omega)).trans ?_
      congr 1
      omega
    · exact congrArg Nat.cast hlen
    · rw [(hreading 16 rfl).pos, Nat.cast_add]
  · rw [if_neg h0, show n = 0 by omega]
    exact ⟨r, by rw [window, List.take_zero], h⟩

/-- **A read** delivers the source from where the reader is, and moves it
behind. -/
theorem Reading.readFile (hinv : aes.Inverts key) (h : Reading aes key v r p) {n : Nat} (hn : 1 ≤ n)
    (hn32 : n < 2 ^ 32) (hp : p < v.source.length) :
    ∃ r', r.readFile aes n = (r', some (window v.source p n)) ∧
      Reading aes key v r' (p + (window v.source p n).length) := by
  obtain ⟨m, hm⟩ : ∃ m, m = min n (v.source.length - p) := ⟨_, rfl⟩
  have hplain : v.plain.length = v.source.length + v.zeros.length := List.length_append
  have hask : toDWORD (min (n : Int) (toInt64 (r.mFileSize - r.mPos))) = m := by
    have hlt := v.source_lt
    rw [h.fileSize, h.pos, toInt64_of_lt (by omega) (by omega)]
    have hask := toDWORD_of_lt (n := min (n : Int) ((v.source.length : Int) - p)) (by omega)
      (by omega)
    omega
  have hwin : window v.source p n = window v.plain p m := by
    rw [Volume.plain, window_append_left (by omega), window, window, List.take_eq_take_iff,
      List.length_drop]
    omega
  have hlen : (window v.source p n).length = m := by rw [hwin, length_window (by omega)]
  obtain ⟨r₁, k₁, hhead, hk₁, h₁, hmod₁⟩ := h.readHead hinv (n := m) (by omega) (by omega)
  obtain ⟨r₂, k₂, hbody, hk₂, hleft, h₂, hmod₂⟩ := h₁.readBody hinv (n := m - k₁) (by omega)
    (fun hpos => hmod₁ (by omega))
  obtain ⟨r₃, htail, h₃⟩ := h₂.readTail hinv (n := m - k₁ - k₂) (by omega)
    (fun hpos => hmod₂ (by omega)) hleft
  rw [show p + k₁ + k₂ + (m - k₁ - k₂) = p + m by omega] at h₃
  refine ⟨r₃, ?_, by rw [hlen]; exact h₃⟩
  rw [FileReader.readFile, h.encrypted, h.keyOk]
  dsimp only
  rw [hask, hhead]
  dsimp only
  rw [hbody]
  dsimp only
  rw [htail, if_neg (by decide), if_neg (by rw [h.pos]; omega), window_append_window,
    Nat.add_assoc, window_append_window, hwin, show k₁ + k₂ + (m - k₁ - k₂) = m by omega]

/-! ## Any sequence of operations -/

/-- The plain file that a reader of the volume stands for. -/
def Mirrors (aes : AESCryptor) (key : List UInt8) (v : Volume) (r : FileReader) (f : ByteFile) :
    Prop := f.data = v.source ∧ Reading aes key v r f.pos

/-- **One operation** on the reader is the same operation on the source. -/
theorem Mirrors.step (hinv : aes.Inverts key) {f : ByteFile} (h : Mirrors aes key v r f)
    {op : FileOp} (hop : InsideFile f op) :
    (r.step aes op).2 = (plainStep f op).2 ∧
      Mirrors aes key v (r.step aes op).1 (plainStep f op).1 := by
  obtain ⟨hdata, hr⟩ := h
  have hopen : (!r.mIsEncrypted || !r.mKeyOk) = false := by rw [hr.encrypted, hr.keyOk]; rfl
  cases op with
  | getFileSize =>
    refine ⟨?_, hdata, hr⟩
    rw [FileReader.step, plainStep, FileReader.getFileSizeEx, hopen, if_neg (by decide),
      hr.fileSize, hdata]
  | seek distance method =>
    obtain ⟨hmethod, h0, hsize⟩ := hop
    obtain ⟨target, htarget⟩ : ∃ t : Nat, seekTarget f distance method = t :=
      ⟨_, (Int.toNat_of_nonneg h0).symm⟩
    have hseek : r.setFilePointerEx distance method =
        ({ r with mPos := target }, some (target : Int)) := by
      unfold FileReader.setFilePointerEx
      rw [hopen, if_neg (by decide), hr.pos, ← htarget]
      cases method with
      | SEEK_SET => exact if_neg (not_lt.mpr h0)
      | SEEK_CUR =>
        have hlt := v.source_lt
        rw [hdata] at hsize
        have hsum : toInt64 (f.pos + distance) = f.pos + distance :=
          toInt64_of_lt (by rw [seekTarget] at h0; omega) (by rw [seekTarget] at hsize; omega)
        rw [hsum]
        exact if_neg (not_lt.mpr h0)
      | SEEK_END => exact absurd rfl hmethod
    rw [FileReader.step, plainStep, hseek, htarget, Int.toNat_natCast]
    exact ⟨rfl, hdata, hr.withPos rfl⟩
  | read n =>
    obtain ⟨hn, hn32, hpos⟩ := hop
    obtain ⟨r', hread, hr'⟩ := hr.readFile hinv hn hn32 (by rw [← hdata]; exact hpos)
    rw [← hdata] at hread hr'
    rw [FileReader.step, plainStep, hread]
    exact ⟨rfl, hdata, hr'⟩

/-- The reader that accepted the file and its key stands at the front of the
source. -/
theorem mirrors_setKey (aes : AESCryptor) (key : List UInt8) {sourceHash : List UInt8}
    {cb : Option Progress} (hcb : ∀ f ∈ cb, ∀ type para1 para2, f type para1 para2 = true)
    {source : List UInt8}
    (hne : source ≠ []) (hsize : source.length < 2 ^ 63) (hhash : sourceHash.length = 20)
    (r₀ : FileReader) {fuel : Nat} (hfuel : 6 ≤ fuel) :
    ∃ r v, FileReader.setFile fuel r₀ ⟨encodeFile aes source key sourceHash cb, 0⟩ = some r ∧
      Mirrors aes key v (r.setKey aes key) ⟨source, 0⟩ := by
  obtain ⟨header, hheader⟩ : ∃ hd, hd = (headerRoot aes key source.length sourceHash).writeTo :=
    ⟨_, rfl⟩
  have hempty : ByteFile.empty.write header = ⟨header, header.length⟩ := by
    simp [ByteFile.empty, ByteFile.write]
  obtain ⟨k, zeros, hdata, hk⟩ := encodeLoop_data aes key hcb source.length source.length
    ⟨source, 0⟩ ⟨header, header.length⟩ (Nat.zero_add _) rfl
  let v : Volume := ⟨header, source, List.replicate zeros 0, k, by
    rw [List.length_append, List.length_replicate, hk], hsize⟩
  have hbytes : encodeFile aes source key sourceHash cb = v.bytes aes key := by
    rw [encodeFile, goesOn_of_forall hcb, if_pos rfl, ← hheader, hempty]
    exact hdata
  have hpos := List.length_pos_iff.mpr hne
  obtain ⟨r, hset, hfile, hfsize, hblock, hhint, hstart, hposc, henc, hcache, hmpos, hlen⟩ :=
    setFile_headerRoot aes key hhash hpos hsize (mapBlocks 16 (aes.encrypt key) k v.plain) r₀ hfuel
  rw [← hheader] at hset hfile hstart
  refine ⟨r, v, by rw [hbytes]; exact hset, rfl, ⟨⟨henc, setKey_keyHint aes hhint, rfl, hblock,
    hfsize, hstart, congrArg ByteFile.data hfile, ?_, hmpos, hlen⟩, Or.inl hcache⟩⟩
  rw [FileReader.setKey, hfile]
  exact hposc.trans hstart

end

/-- **An encrypted file reads like its source.**  Whatever source, not empty, and
whatever key `encode_file` was given, a reader that is set to the file and to the
key answers every sequence of seeks into the file, reads and size queries as the
source itself would, and stands where the source would. -/
theorem encodeFile_reads_as_source (aes : AESCryptor) (key : List UInt8)
    (hinv : aes.Inverts key) (source sourceHash : List UInt8) (hne : source ≠ [])
    (hsize : source.length < 2 ^ 63) (hhash : sourceHash.length = 20) (cb : Option Progress)
    (hcb : ∀ f ∈ cb, ∀ type para1 para2, f type para1 para2 = true) (r₀ : FileReader)
    (fuel : Nat) (hfuel : 6 ≤ fuel) :
    ∃ r, FileReader.setFile fuel r₀ ⟨encodeFile aes source key sourceHash cb, 0⟩ = some r ∧
      ∀ ops, Along (fun f op => (plainStep f op).1) InsideFile ⟨source, 0⟩ ops →
        replies (FileReader.step aes) (r.setKey aes key) ops = replies plainStep ⟨source, 0⟩ ops ∧
        (after (FileReader.step aes) (r.setKey aes key) ops).mPos =
          (after plainStep ⟨source, 0⟩ ops).pos := by
  obtain ⟨r, v, hset, hmirrors⟩ := mirrors_setKey aes key hcb hne hsize hhash r₀
    hfuel
  refine ⟨r, hset, fun ops hops => ?_⟩
  have hstep : ∀ r f op, Mirrors aes key v r f → InsideFile f op →
      (FileReader.step aes r op).2 = (plainStep f op).2 ∧
        Mirrors aes key v (FileReader.step aes r op).1 (plainStep f op).1 :=
    fun r f op h hop => h.step hinv hop
  obtain ⟨hreplies, hend⟩ := simulates hstep ops _ _ hmirrors hops
  exact ⟨hreplies, hend.2.pos⟩

/-- The blocks that a three-byte file and the hint are made of, and what AES makes
of them under the key of zeros. -/
def zeroKeyBlocks : List (List UInt8 × List UInt8) :=
  [([116, 101, 115, 116, 32, 100, 97, 116, 97, 0, 0, 0, 0, 0, 0, 0],
      [0, 76, 144, 148, 136, 35, 164, 38, 165, 46, 246, 33, 177, 30, 200, 67]),
    ([10, 20, 30, 0, 0, 0, 0, 0, 0, 0, 0, 0, 0, 0, 0, 0],
      [89, 160, 116, 189, 173, 192, 110, 149, 146, 147, 105, 252, 240, 158, 85, 184]),
    ([0, 0, 0, 0, 0, 0, 0, 0, 0, 0, 0, 0, 0, 0, 0, 0],
      [220, 149, 192, 120, 162, 64, 137, 137, 173, 72, 162, 20, 146, 132, 32, 135])]

/-- The permutation of blocks that exchanges the two of each pair. -/
def exchange (pairs : List (List UInt8 × List UInt8)) : Equiv.Perm (List UInt8) :=
  (pairs.map fun q => Equiv.swap q.1 q.2).prod

theorem length_exchange : ∀ pairs : List (List UInt8 × List UInt8),
    (∀ q ∈ pairs, q.1.length = 16 ∧ q.2.length = 16) → ∀ b : List UInt8, b.length = 16 →
      (exchange pairs b).length = 16 ∧ ((exchange pairs).symm b).length = 16 := by
  intro pairs
  induction pairs with
  | nil => intro _ b hb; exact ⟨hb, hb⟩
  | cons q pairs ih =>
    intro hq b hb
    have hswap : ∀ b : List UInt8, b.length = 16 → (Equiv.swap q.1 q.2 b).length = 16 := by
      intro b hb
      obtain ⟨h₁, h₂⟩ := hq q (List.mem_cons_self ..)
      rw [Equiv.swap_apply_def]
      split_ifs <;> assumption
    have ih := ih (fun q' hq' => hq q' (List.mem_cons_of_mem _ hq'))
    exact ⟨hswap _ (ih b hb).1, (ih _ (hswap b hb)).2⟩

/-- A cipher that agrees with AES on these blocks. -/
def zeroKeyCipher : AESCryptor where
  encrypt _ b := exchange zeroKeyBlocks b
  decrypt _ b := (exchange zeroKeyBlocks).symm b
  encrypt_length _ b hb := (length_exchange zeroKeyBlocks (by decide) b hb).1
  decrypt_length _ b hb := (length_exchange zeroKeyBlocks (by decide) b hb).2

example : ∀ q ∈ zeroKeyBlocks, zeroKeyCipher.encrypt [] q.1 = q.2 := by decide

def freshReader : FileReader where
  mRemuxSig := List.replicate 128 0
  mBlockSize := 0
  mBlockCache := []
  mBlockCachePtr := .null
  mHeapIntact := true
  mKeyhint := List.replicate 32 0
  mHash := List.replicate 20 0
  mCachePos := -1
  mPos := 0
  mFileSize := 0
  mStartInFile := 0
  mLayout := 0
  mFilePosCache := 0
  mIsEncrypted := false
  mKeyOk := false
  mFile := ByteFile.empty
  mCodec := []

theorem encodeFile_reads_as_source_three :
    ∃ r, FileReader.setFile 6 freshReader
        ⟨encodeFile zeroKeyCipher [10, 20, 30] (List.replicate 32 0) (List.replicate 20 0) none,
          0⟩ =
          some r ∧
      replies (FileReader.step zeroKeyCipher) (r.setKey zeroKeyCipher (List.replicate 32 0))
          [.getFileSize, .read 1, .seek 1 .SEEK_CUR, .read 5, .seek 1 .SEEK_SET, .read 2] =
        [.size 3, .bytes (some [10]), .moved (some 2), .bytes (some [30]), .moved (some 1),
          .bytes (some [20, 30])] := by
  obtain ⟨r, hset, hread⟩ := encodeFile_reads_as_source zeroKeyCipher (List.replicate 32 0)
    (fun b _ => Equiv.symm_apply_apply _ b) [10, 20, 30] (List.replicate 20 0) (by decide)
    (by decide) (by decide) none (fun f hf => absurd hf (Option.not_mem_none f)) freshReader 6
    (le_refl 6)
  refine ⟨r, hset, (hread _ ?_).1.trans (by decide)⟩
  simp only [along_cons, along_nil, InsideFile, plainStep]
  decide

end DWindow.E3D
