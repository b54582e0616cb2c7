import DWindow.E3D.FilePos

/-!
# What a `ReadFile` writes

`ReadFile` cuts the request down to what is left of the file, an `__int64`, and takes the
`DWORD` of that.  Behind the end of the file nothing is left and less: the difference is
negative and its `DWORD` is some 4 GiB, which the three parts of the request then read and
decrypt into the caller's buffer.  At the end the call fails and leaves `*nRead` as it was.

The loops that decrypt take sixteen bytes at a time.  A block size that is no multiple of
sixteen, which `SetFile` accepts, leads the last of them past the block; a negative one
leaves the reader without a cache.
-/

namespace DWindow.E3D

open CInt Runs

/-- Bytes of the caller's buffer. -/
structure Extent where
  start : Nat
  length : Nat
deriving DecidableEq, Repr

/-- What a `ReadFile` leaves its caller: the result, `*nRead`, and where it has written. -/
structure Transfer where
  result : Bool
  nRead : Nat
  written : List Extent
deriving DecidableEq, Repr

/-- How far a loop over the `i < n`, sixteen apart, decrypts. -/
def decryptedTo (n : Nat) : Nat := (n + 15) / 16 * 16

namespace FileReader

/-- `m_block_cache` has so many bytes; of a negative size there are none. -/
def CacheHolds (r : FileReader) (n : Nat) : Prop := n ≤ r.mBlockSize.toNat

instance (r : FileReader) (n : Nat) : Decidable (r.CacheHolds n) :=
  inferInstanceAs (Decidable (_ ≤ _))

/-- How many bytes the head copies out of the cache, `none` when it leaves the cache. -/
def headCopies (r : FileReader) (n : Nat) : Option Nat :=
  if r.mPos.tmod r.mBlockSize ≠ 0 then
    let byteToGet := toInt32 (min (r.block + r.mBlockSize - r.mPos) n)
    if r.mCachePos ≠ r.block ∧ ¬ r.CacheHolds (decryptedTo r.mBlockSize.toNat) then none
    else if byteToGet < 0 ∨ ¬ r.CacheHolds ((r.mPos - r.block).toNat + byteToGet.toNat) then none
    else some byteToGet.toNat
  else some 0

/-- How many bytes the body reads into the caller's buffer. -/
def bodyReads (r : FileReader) (n : Nat) : Nat :=
  if n > toDWORD r.mBlockSize then n / toDWORD r.mBlockSize * toDWORD r.mBlockSize else 0

/-- How many bytes the tail copies out of the cache, `none` when it leaves the cache. -/
def tailCopies (r : FileReader) (n : Nat) : Option Nat :=
  if n > 0 then
    if r.CacheHolds (decryptedTo r.mBlockSize.toNat) ∧ r.CacheHolds n then some n else none
  else some 0

/-- What `ReadFile` leaves a caller whose `*nRead` is `cell`, `none` when it writes or reads
outside `m_block_cache`. -/
def transfer (r : FileReader) (nToRead cell : Nat) : Option Transfer :=
  let n := r.clipped nToRead
  if n = 0 ∨ r.mPos < 0 then some ⟨false, cell, []⟩
  else do
    let head ← r.headCopies n
    let body := r.bodyReads (n - head)
    let tail ← r.tailCopies (n - head - body)
    some ⟨true, head + body + tail, [⟨0, head⟩, ⟨head, decryptedTo body⟩, ⟨head + body, tail⟩]⟩

def wanted (r : FileReader) (n : Nat) : Nat := (min (n : Int) (r.mFileSize - r.mPos)).toNat

/-- A `ReadFile` of `n` bytes keeps to its buffer and delivers what is there. -/
def Respects (aes : AESCryptor) (r : FileReader) (n cell : Nat) : Prop :=
  ∃ w, r.transfer n cell = some w ∧ (∀ e ∈ w.written, e.start + e.length ≤ n) ∧
    if r.mPos < r.mFileSize then
      w.nRead = r.wanted n ∧
        ∀ k < r.wanted n, ∃ e ∈ w.written, e.start ≤ k ∧ k < e.start + e.length
    else
      w.nRead = 0 ∧ (∀ e ∈ w.written, e.length = 0) ∧ (r.readFile aes n).1.mPos = r.mPos

/-- Nothing is decrypted in the cache, and the body is whole blocks whose decryption ends
within the request. -/
def Uncached (r : FileReader) (n : Nat) : Prop :=
  let head := r.headLength (r.wanted n)
  let rest := r.wanted n - head
  (r.mPos.tmod r.mBlockSize ≠ 0 → r.mCachePos = r.block) ∧
    (rest = 0 ∨ r.mBlockSize < rest ∧ r.mBlockSize ∣ rest ∧ head + decryptedTo rest ≤ n)

/-- There is something to read, and the blocks are of sixteen bytes each or do without the
cache; or `*nRead` was 0 and nothing is asked for before the end, or the distance to the end
is no `DWORD`. -/
def InBounds (r : FileReader) (n cell : Nat) : Prop :=
  if r.mPos < r.mFileSize then
    if n = 0 then cell = 0
    else 0 < r.mBlockSize ∧ ((16 : Int) ∣ r.mBlockSize ∨ r.Uncached n)
  else
    cell = 0 ∧
      if r.mPos - r.mFileSize ≤ 2 ^ 63 then (2 : Int) ^ 32 ∣ r.mPos - r.mFileSize else n = 0

/-- A reader of an encrypted file whose key was accepted, at a position that is not negative;
the numbers are of the types of their members. -/
structure Accepted (r : FileReader) : Prop where
  decrypting : r.decrypting = true
  blockSize_ne : r.mBlockSize ≠ 0
  blockSize_ge : -2 ^ 31 ≤ r.mBlockSize
  blockSize_lt : r.mBlockSize < 2 ^ 31
  fileSize_ge : -2 ^ 63 ≤ r.mFileSize
  fileSize_lt : r.mFileSize < 2 ^ 63
  pos_nonneg : 0 ≤ r.mPos
  pos_lt : r.mPos < 2 ^ 63

variable {r : FileReader} {n cell : Nat}

/-! ## The size of a request -/

theorem clipped_before (h : r.Accepted) (hn : n < 2 ^ 32) (hpos : r.mPos < r.mFileSize) :
    r.clipped n = r.wanted n := by
  have h0 := h.pos_nonneg
  have hlt := h.fileSize_lt
  have hdword := toDWORD_of_lt (n := min (n : Int) (r.mFileSize - r.mPos)) (by omega) (by omega)
  rw [clipped, wanted, toInt64_of_lt (by omega) (by omega)]
  omega

/-- From the end of the file on, a request is cut down to nothing only by chance. -/
theorem clipped_behind (h : r.Accepted) (hn : n < 2 ^ 32) (hpos : ¬ r.mPos < r.mFileSize) :
    r.clipped n = 0 ↔
      if r.mPos - r.mFileSize ≤ 2 ^ 63 then (2 : Int) ^ 32 ∣ r.mPos - r.mFileSize else n = 0 := by
  have h0 := h.pos_nonneg
  have hlt := h.pos_lt
  have hge := h.fileSize_ge
  rw [clipped]
  split
  · rename_i hnear
    rw [toInt64_of_lt (by omega) (by omega), min_eq_right (by omega), toDWORD]
    omega
  · rename_i hfar
    rw [toInt64_of_lt_neg (by omega) (by omega), toDWORD]
    omega

/-! ## The three parts -/

theorem transfer_of_zero (hzero : r.clipped n = 0) :
    r.transfer n cell = some ⟨false, cell, []⟩ := by
  rw [transfer]
  dsimp only
  rw [if_pos (Or.inl hzero)]

theorem decryptedTo_le_iff : decryptedTo n ≤ n ↔ 16 ∣ n := by
  unfold decryptedTo
  omega

theorem le_decryptedTo : n ≤ decryptedTo n := by
  unfold decryptedTo
  omega

theorem sub_block (r : FileReader) : r.mPos - r.block = r.mPos.tmod r.mBlockSize := by
  have := Int.mul_tdiv_add_tmod r.mPos r.mBlockSize
  rw [block, mul_comm]
  omega

theorem transfer_of_neg (h : r.Accepted) (hneg : r.mBlockSize < 0) (hne : r.clipped n ≠ 0) :
    r.transfer n cell = none := by
  have hge := h.blockSize_ge
  have h0 := h.pos_nonneg
  have hlt : r.clipped n < 2 ^ 32 := by
    rw [clipped, toDWORD]
    omega
  have htoNat : r.mBlockSize.toNat = 0 := by omega
  have hmod0 := Int.tmod_nonneg r.mBlockSize h0
  have hsub := r.sub_block
  have hdword : toDWORD r.mBlockSize = (r.mBlockSize + 2 ^ 32).toNat := by
    rw [toDWORD]
    omega
  rw [transfer, if_neg (by omega)]
  unfold headCopies
  dsimp only
  split
  · rename_i hhead
    rw [if_neg, if_pos]
    · rfl
    · right
      unfold CacheHolds
      omega
    · unfold CacheHolds decryptedTo
      omega
  · -- the body leaves something to a tail that has no cache
    have htail : 0 < r.clipped n - 0 - r.bodyReads (r.clipped n - 0) := by
      unfold bodyReads
      rw [hdword]
      split
      · rename_i hbody
        have hquot : (r.clipped n - 0) / (r.mBlockSize + 2 ^ 32).toNat = 1 := by
          apply Nat.div_eq_of_lt_le <;> omega
        rw [hquot]
        omega
      · omega
    simp only [Option.bind_eq_bind, Option.bind_some]
    unfold tailCopies
    rw [if_pos htail, if_neg]
    · rfl
    · unfold CacheHolds
      omega

theorem cacheHolds_decryptedTo (hpos : 0 < r.mBlockSize) :
    r.CacheHolds (decryptedTo r.mBlockSize.toNat) ↔ (16 : Int) ∣ r.mBlockSize := by
  unfold CacheHolds
  rw [decryptedTo_le_iff]
  omega

theorem headLength_le (h0 : 0 ≤ r.mPos) (hpos : 0 < r.mBlockSize) :
    r.headLength n ≤ n ∧ (r.mPos.tmod r.mBlockSize ≠ 0 →
      (r.mPos - r.block).toNat + r.headLength n ≤ r.mBlockSize.toNat) := by
  have hmod0 := Int.tmod_nonneg r.mBlockSize h0
  have hmodlt := Int.tmod_lt_of_pos r.mPos hpos
  have hsub := r.sub_block
  unfold headLength
  split <;> omega

theorem headCopies_of_pos (h : r.Accepted) (hpos : 0 < r.mBlockSize) (n : Nat) :
    r.headCopies n =
      if r.mPos.tmod r.mBlockSize ≠ 0 ∧ r.mCachePos ≠ r.block ∧ ¬ (16 : Int) ∣ r.mBlockSize then
        none
      else some (r.headLength n) := by
  have h0 := h.pos_nonneg
  have hmod0 := Int.tmod_nonneg r.mBlockSize h0
  have hmodlt := Int.tmod_lt_of_pos r.mPos hpos
  have hsub := r.sub_block
  have hlt := h.blockSize_lt
  have hle := (headLength_le (n := n) h0 hpos).2
  unfold headCopies
  by_cases hhead : r.mPos.tmod r.mBlockSize ≠ 0
  · have hint : toInt32 (min (r.block + r.mBlockSize - r.mPos) n) =
        min (r.block + r.mBlockSize - r.mPos) n := toInt32_of_lt (by omega) (by omega)
    have hlength : (min (r.block + r.mBlockSize - r.mPos) n).toNat = r.headLength n := by
      rw [headLength, if_pos hhead]
    dsimp only
    rw [if_pos hhead, hint, hlength]
    have hinside : ¬ (min (r.block + r.mBlockSize - r.mPos) n < 0 ∨
        ¬ r.CacheHolds ((r.mPos - r.block).toNat + r.headLength n)) := by
      unfold CacheHolds
      have := hle hhead
      omega
    rw [if_neg hinside]
    refine if_congr ?_ rfl rfl
    rw [cacheHolds_decryptedTo hpos]
    exact (and_iff_right hhead).symm
  · rw [if_neg hhead, if_neg fun hand => hhead hand.1, headLength, if_neg hhead]

theorem bodyReads_spec (hlt : r.mBlockSize < 2 ^ 31) (hpos : 0 < r.mBlockSize) (n : Nat) :
    r.bodyReads n ≤ n ∧ ((n - r.bodyReads n : Nat) : Int) ≤ r.mBlockSize ∧
      r.mBlockSize ∣ (r.bodyReads n : Nat) ∧
      (n - r.bodyReads n = 0 ↔ n = 0 ∨ r.mBlockSize < n ∧ r.mBlockSize ∣ n) := by
  obtain ⟨size, hsize⟩ := Int.eq_ofNat_of_zero_le hpos.le
  have hdword : toDWORD r.mBlockSize = size := by
    have := toDWORD_of_lt hpos.le (by omega : r.mBlockSize < 2 ^ 32)
    omega
  unfold bodyReads
  rw [hdword, hsize]
  have hsum := Nat.div_add_mod' n size
  have hmod := Nat.mod_lt n (show size > 0 by omega)
  split
  · rename_i hbody
    refine ⟨by omega, by omega, Int.natCast_dvd_natCast.mpr (Dvd.intro_left _ rfl), ?_⟩
    rw [Int.natCast_dvd_natCast, Nat.dvd_iff_mod_eq_zero]
    omega
  · rename_i hbody
    refine ⟨by omega, by omega, Dvd.intro_left 0 (by simp), ?_⟩
    omega

/-- **What a request with a block size is served with.** -/
theorem transfer_of_pos (h : r.Accepted) (hpos : 0 < r.mBlockSize) {m rest : Nat}
    (hm : r.clipped n = m) (hne : m ≠ 0) (hrest : m - r.headLength m = rest) :
    r.transfer n cell =
      if (16 : Int) ∣ r.mBlockSize ∨ (r.mPos.tmod r.mBlockSize ≠ 0 → r.mCachePos = r.block) ∧
          rest - r.bodyReads rest = 0 then
        some ⟨true, m, [⟨0, r.headLength m⟩, ⟨r.headLength m, decryptedTo (r.bodyReads rest)⟩,
          ⟨r.headLength m + r.bodyReads rest, rest - r.bodyReads rest⟩]⟩
      else none := by
  have h0 := h.pos_nonneg
  have hlength := (headLength_le (n := m) h0 hpos).1
  obtain ⟨hbody, hleft, -⟩ := bodyReads_spec h.blockSize_lt hpos rest
  rw [transfer, hm]
  dsimp only
  rw [if_neg (by omega), headCopies_of_pos h hpos]
  by_cases hwhole : (16 : Int) ∣ r.mBlockSize
  · rw [if_neg fun hand => hand.2.2 hwhole, if_pos (Or.inl hwhole)]
    have htail : r.tailCopies (rest - r.bodyReads rest) = some (rest - r.bodyReads rest) := by
      unfold tailCopies
      split
      · rw [if_pos]
        refine ⟨(cacheHolds_decryptedTo hpos).mpr hwhole, ?_⟩
        unfold CacheHolds
        omega
      · congr 1
        omega
    simp only [Option.bind_eq_bind, Option.bind_some]
    rw [hrest, htail, Option.bind_some]
    congr 2
    omega
  · by_cases hcached : r.mPos.tmod r.mBlockSize ≠ 0 → r.mCachePos = r.block
    · rw [if_neg fun hand => hand.2.1 (hcached hand.1)]
      simp only [Option.bind_eq_bind, Option.bind_some]
      rw [hrest]
      by_cases hnone : rest - r.bodyReads rest = 0
      · rw [if_pos (Or.inr ⟨hcached, hnone⟩), hnone, tailCopies, if_neg (by omega)]
        simp only [Option.bind_some]
        congr 2
        omega
      · rw [if_neg fun hor => hor.elim hwhole fun hand => hnone hand.2, tailCopies,
          if_pos (by omega), if_neg fun hand => hwhole ((cacheHolds_decryptedTo hpos).mp hand.1)]
        rfl
    · rw [if_pos ⟨fun hzero => hcached fun hne => absurd hzero hne,
        fun heq => hcached fun _ => heq, hwhole⟩,
        if_neg fun hor => hor.elim hwhole fun hand => hcached hand.1]
      rfl

/-! ## The same calls on the file -/

theorem readHead_moves (aes : AESCryptor) (hpos : 0 < r.mBlockSize) (n : Nat) :
    (r.readHead aes n).1.mPos = r.mPos + r.headLength n ∧
      (r.readHead aes n).1.mBlockSize = r.mBlockSize ∧
      (r.readHead aes n).2.1 = n - r.headLength n := by
  have hmodlt := Int.tmod_lt_of_pos r.mPos hpos
  have hsub := r.sub_block
  obtain ⟨hmpos, hsize, hcache⟩ : (r.cacheBlock aes).mPos = r.mPos ∧
      (r.cacheBlock aes).mBlockSize = r.mBlockSize ∧ (r.cacheBlock aes).mCachePos = r.block := by
    have hblock_eq : r.mPos.tdiv r.mBlockSize * r.mBlockSize = r.block := rfl
    unfold cacheBlock
    dsimp only
    rw [hblock_eq]
    by_cases hcached : r.mCachePos = r.block
    · rw [if_neg (not_not_intro hcached)]
      exact ⟨rfl, rfl, hcached⟩
    · obtain ⟨hkept, hp, hc⟩ :=
        seekTo_kept { r with mCachePos := r.block } (r.mStartInFile + r.block)
      rw [if_pos hcached]
      exact ⟨hp, hkept.blockSize, hc⟩
  unfold readHead headLength
  by_cases hmid : r.mPos.tmod r.mBlockSize = 0
  · rw [if_neg (not_not_intro hmid), if_neg (not_not_intro hmid)]
    exact ⟨(Int.add_zero _).symm, rfl, rfl⟩
  · rw [if_pos hmid, if_pos hmid]
    dsimp only
    rw [hmpos, hcache, hsize]
    exact ⟨by omega, rfl, rfl⟩

theorem readBody_moves (aes : AESCryptor) (r : FileReader) (n : Nat) :
    (r.readBody aes n).1.mPos = r.mPos + r.bodyReads n ∧
      (r.readBody aes n).2.1 = n - r.bodyReads n := by
  unfold readBody bodyReads
  split
  · obtain ⟨hkept, hp, -⟩ := seekTo_kept r (r.mPos + r.mStartInFile)
    dsimp only
    rw [hkept.blockSize]
    exact ⟨congrArg (· + ((n / toDWORD r.mBlockSize * toDWORD r.mBlockSize : Nat) : Int)) hp, rfl⟩
  · exact ⟨(Int.add_zero _).symm, rfl⟩

theorem readTail_moves (aes : AESCryptor) (r : FileReader) (n : Nat) :
    (r.readTail aes n).1.mPos = r.mPos + n := by
  unfold readTail
  split
  · obtain ⟨-, hp, -⟩ := seekTo_kept { r with mCachePos := r.mPos } (r.mPos + r.mStartInFile)
    exact congrArg (· + (n : Int)) hp
  · rename_i hn
    dsimp only
    omega

/-- **A transfer is one of `readFile`**: it succeeds when that does and moves the position by
`*nRead`. -/
theorem readFile_transfer (aes : AESCryptor) (h : r.Accepted) (hpos : 0 < r.mBlockSize)
    {w : Transfer} (hw : r.transfer n cell = some w) :
    (r.readFile aes n).2.isSome = w.result ∧
      (r.readFile aes n).1.mPos = r.mPos + (if w.result then w.nRead else 0 : Nat) := by
  have h0 := h.pos_nonneg
  by_cases hclip : r.clipped n = 0
  · rw [transfer_of_zero hclip] at hw
    cases hw
    rw [readFile_refused aes h.decrypting (Or.inl hclip)]
    exact ⟨rfl, (Int.add_zero _).symm⟩
  · obtain ⟨hhead, hsize, hleft⟩ := readHead_moves aes hpos (r.clipped n)
    obtain ⟨hbody, hrest⟩ := readBody_moves aes (r.readHead aes (r.clipped n)).1
      (r.readHead aes (r.clipped n)).2.1
    have hsame : (r.readHead aes (r.clipped n)).1.bodyReads (r.readHead aes (r.clipped n)).2.1 =
        r.bodyReads (r.clipped n - r.headLength (r.clipped n)) := by
      rw [bodyReads, hsize, hleft]
      rfl
    have hle := (headLength_le (n := r.clipped n) h0 hpos).1
    have hbodyLe := (bodyReads_spec h.blockSize_lt hpos
      (r.clipped n - r.headLength (r.clipped n))).1
    rw [transfer_of_pos h hpos rfl hclip rfl] at hw
    split at hw
    · cases hw
      rw [readFile_decrypting aes h.decrypting (not_or_intro hclip (by omega))]
      refine ⟨rfl, ?_⟩
      dsimp only
      rw [readTail_moves, hbody, hrest, hsame, hhead, hleft, if_pos rfl]
      omega
    · cases hw

/-! ## The caller's buffer -/

theorem wanted_le (r : FileReader) (n : Nat) : r.wanted n ≤ n := by
  unfold wanted
  omega

/-- A request before the end is served inside the buffer exactly with blocks of sixteen bytes
each or without the cache. -/
theorem respects_before (aes : AESCryptor) (h : r.Accepted) (hn : n < 2 ^ 32)
    (hpos : r.mPos < r.mFileSize) (hne : n ≠ 0) :
    r.Respects aes n cell ↔ 0 < r.mBlockSize ∧ ((16 : Int) ∣ r.mBlockSize ∨ r.Uncached n) := by
  have hclip := clipped_before h hn hpos
  have hwanted : r.wanted n ≠ 0 := by
    unfold wanted
    omega
  rcases lt_or_gt_of_ne h.blockSize_ne with hneg | hblock
  · rw [Respects, transfer_of_neg h hneg (by omega)]
    constructor
    · rintro ⟨w, hw, -⟩
      cases hw
    · intro hand
      omega
  obtain ⟨rest, hrest⟩ : ∃ rest, r.wanted n - r.headLength (r.wanted n) = rest := ⟨_, rfl⟩
  have hle := wanted_le r n
  have hhead := (headLength_le (n := r.wanted n) h.pos_nonneg hblock).1
  obtain ⟨hbody, hleft, hwhole, hnone⟩ := bodyReads_spec h.blockSize_lt hblock rest
  have hdecrypted := le_decryptedTo (n := r.bodyReads rest)
  have hcover : ∀ k < r.wanted n, ∃ e ∈ [(⟨0, r.headLength (r.wanted n)⟩ : Extent),
      ⟨r.headLength (r.wanted n), decryptedTo (r.bodyReads rest)⟩,
      ⟨r.headLength (r.wanted n) + r.bodyReads rest, rest - r.bodyReads rest⟩],
      e.start ≤ k ∧ k < e.start + e.length := by
    intro k hk
    by_cases hfirst : k < r.headLength (r.wanted n)
    · exact ⟨_, List.mem_cons_self, by dsimp only; omega⟩
    · by_cases hsecond : k < r.headLength (r.wanted n) + r.bodyReads rest
      · exact ⟨_, List.mem_cons_of_mem _ List.mem_cons_self, by dsimp only; omega⟩
      · exact ⟨_, List.mem_cons_of_mem _ (List.mem_cons_of_mem _ List.mem_cons_self),
          by dsimp only; omega⟩
  have hinside : (∀ e ∈ [(⟨0, r.headLength (r.wanted n)⟩ : Extent),
      ⟨r.headLength (r.wanted n), decryptedTo (r.bodyReads rest)⟩,
      ⟨r.headLength (r.wanted n) + r.bodyReads rest, rest - r.bodyReads rest⟩],
      e.start + e.length ≤ n) ↔
        r.headLength (r.wanted n) + decryptedTo (r.bodyReads rest) ≤ n := by
    simp only [List.forall_mem_cons, List.not_mem_nil, false_implies, implies_true, and_true]
    omega
  simp only [Respects, transfer_of_pos h hblock hclip hwanted hrest, if_pos hpos, Uncached, hrest]
  by_cases hsixteen : (16 : Int) ∣ r.mBlockSize
  · have hexact : decryptedTo (r.bodyReads rest) ≤ r.bodyReads rest :=
      decryptedTo_le_iff.mpr (by have := hsixteen.trans hwhole; omega)
    rw [if_pos (Or.inl hsixteen)]
    exact ⟨fun _ => ⟨hblock, Or.inl hsixteen⟩,
      fun _ => ⟨_, rfl, hinside.mpr (by omega), rfl, hcover⟩⟩
  · by_cases hcached : (r.mPos.tmod r.mBlockSize ≠ 0 → r.mCachePos = r.block) ∧
      rest - r.bodyReads rest = 0
    · rw [if_pos (Or.inr hcached)]
      have hall := hnone.mp hcached.2
      have hrest' : r.bodyReads rest = rest := by omega
      rw [hrest'] at hinside
      constructor
      · rintro ⟨w, hw, hbounds, -⟩
        cases hw
        rw [hrest'] at hbounds
        refine ⟨hblock, Or.inr ⟨hcached.1, hall.imp_right fun hand => ⟨hand.1, hand.2, ?_⟩⟩⟩
        exact hinside.mp hbounds
      · rintro ⟨-, hor⟩
        obtain ⟨-, hbounds⟩ := hor.resolve_left hsixteen
        refine ⟨_, rfl, ?_, rfl, hcover⟩
        rw [hrest']
        refine hinside.mpr (hbounds.elim (fun hzero => ?_) fun hand => hand.2.2)
        rw [hzero, decryptedTo]
        omega
    · rw [if_neg (not_or_intro hsixteen hcached)]
      constructor
      · rintro ⟨w, hw, -⟩
        cases hw
      · rintro ⟨-, hor⟩
        obtain ⟨hhit, hall⟩ := hor.resolve_left hsixteen
        exact (hcached ⟨hhit, hnone.mpr (hall.imp_right fun hand => ⟨hand.1, hand.2.1⟩)⟩).elim

/-- **A `ReadFile` keeps to its buffer and delivers what is there exactly in bounds.** -/
theorem respects_iff (aes : AESCryptor) (r : FileReader) (n cell : Nat) (h : r.Accepted)
    (hn : n < 2 ^ 32) : r.Respects aes n cell ↔ r.InBounds n cell := by
  have h0 := h.pos_nonneg
  rw [InBounds]
  by_cases hpos : r.mPos < r.mFileSize
  · rw [if_pos hpos]
    by_cases hzero : n = 0
    · have hclip : r.clipped n = 0 := by
        rw [clipped_before h hn hpos, hzero]
        unfold wanted
        omega
      have hwanted : r.wanted n = 0 := by
        have := wanted_le r n
        omega
      simp only [if_pos hzero, Respects, transfer_of_zero hclip, if_pos hpos]
      constructor
      · rintro ⟨w, hw, -, hcell, -⟩
        cases hw
        exact hcell.trans hwanted
      · intro hcell
        exact ⟨_, rfl, fun e he => (by cases he), hcell.trans hwanted.symm,
          fun k hk => absurd hk (by omega)⟩
    · rw [if_neg hzero]
      exact respects_before aes h hn hpos hzero
  · rw [if_neg hpos, ← clipped_behind h hn hpos]
    by_cases hclip : r.clipped n = 0
    · simp only [Respects, transfer_of_zero hclip, if_neg hpos]
      constructor
      · rintro ⟨w, hw, -, hcell, -⟩
        cases hw
        exact ⟨hcell, hclip⟩
      · rintro ⟨hcell, -⟩
        refine ⟨_, rfl, fun e he => (by cases he), hcell, fun e he => (by cases he), ?_⟩
        rw [readFile_refused aes h.decrypting (Or.inl hclip)]
    · constructor
      · rintro ⟨w, hw, -, hread⟩
        rw [if_neg hpos] at hread
        rcases lt_or_gt_of_ne h.blockSize_ne with hneg | hblock
        · rw [transfer_of_neg h hneg hclip] at hw
          cases hw
        · rw [transfer_of_pos h hblock rfl hclip rfl] at hw
          split at hw
          · cases hw
            exact (hclip hread.1).elim
          · cases hw
      · rintro ⟨-, hzero⟩
        exact (hclip hzero).elim

def threeByteReader : FileReader :=
  run (afterCall zeroKeyCipher) freshReader
    [.setFile 6 threeByteFile, .call (.setKey (List.replicate 32 0))]

def threeByteReaderAt (pos : Int) : FileReader := (threeByteReader.setFilePointerEx pos .SEEK_SET).1

theorem accepted_threeByteReaderAt {pos : Int} (h0 : 0 ≤ pos) (hlt : pos < 2 ^ 63) :
    (threeByteReaderAt pos).Accepted := by
  have hopen : threeByteReader.decrypting = true ∧ threeByteReader.mBlockSize = 16 ∧
      threeByteReader.mFileSize = 3 := by decide +kernel
  have hseek : threeByteReaderAt pos = { threeByteReader with mPos := pos } := by
    rw [threeByteReaderAt, setFilePointerEx_decrypting hopen.1, if_neg]
    · rfl
    · exact Int.not_lt.mpr h0
  rw [hseek]
  generalize threeByteReader = r at hopen
  obtain ⟨hdecrypting, hblock, hsize⟩ := hopen
  exact ⟨hdecrypting, by dsimp only; omega, by dsimp only; omega, by dsimp only; omega,
    by dsimp only; omega, by dsimp only; omega, h0, hlt⟩

theorem respects_iff_three :
    (threeByteReaderAt 1).Respects zeroKeyCipher 9 7 ↔ (threeByteReaderAt 1).InBounds 9 7 :=
  respects_iff zeroKeyCipher (threeByteReaderAt 1) 9 7
    (accepted_threeByteReaderAt (by decide) (by decide)) (by decide)

/-- **One byte behind the end** a request for one byte fills 4 GiB. -/
theorem read_behind_end :
    (threeByteReaderAt 4).transfer 1 0 = some ⟨true, 4294967295,
      [⟨0, 12⟩, ⟨12, 4294967280⟩, ⟨4294967292, 3⟩]⟩ ∧
    ¬ ∀ (aes : AESCryptor) (r : FileReader) (n cell : Nat), r.Accepted → n < 2 ^ 32 →
      r.Respects aes n cell := by
  have hwrites : (threeByteReaderAt 4).transfer 1 0 = some ⟨true, 4294967295,
      [⟨0, 12⟩, ⟨12, 4294967280⟩, ⟨4294967292, 3⟩]⟩ := by decide +kernel
  refine ⟨hwrites, fun hall => ?_⟩
  obtain ⟨w, hw, hinside, -⟩ := hall zeroKeyCipher (threeByteReaderAt 4) 1 0
    (accepted_threeByteReaderAt (by decide) (by decide)) (by decide)
  rw [hwrites] at hw
  cases hw
  exact absurd (hinside ⟨0, 12⟩ List.mem_cons_self) (by decide)

end FileReader

end DWindow.E3D
