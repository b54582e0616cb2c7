import DWindow.E3D.Writer
import DWindow.Lib.CInt

/-!
# Reading an encrypted file

`file_reader` of `E3DReader.cpp`, over an open file.  `setFile` walks the leaves
and either accepts the file or rewinds; `setKey` tries the key on the hint;
`readFile` serves a request in three parts, a head out of the one-block cache, a
body of whole blocks and a tail through the cache again.  The cache and the
position the reader believes its file to be at (`m_file_pos_cache`) outlive the
request.

`setFile` runs on fuel, one unit a leaf: the loop of the source need not end.
Two writes of `SetFile` go past their target and are kept: `memset(m_hash, 0,
32)` clears `m_cache_pos` behind the twenty bytes of `m_hash`, and the eight
bytes read into the `int` `m_block_size` overwrite the pointer `m_block_cache`.
That pointer is kept beside the bytes it points at: `SetFile` frees it and does
not clear it, so a file that is not accepted leaves a pointer that the next
`SetFile` frees again.  `mHeapIntact` says that this has not happened.
-/

namespace DWindow.E3D

open Blocks ByteFile CInt CString LittleEndian

/-- What `m_block_cache` points at. -/
inductive HeapPointer where
  | null
  /-- A block that `malloc` has returned. -/
  | block
  /-- A block that has been freed. -/
  | freed
  /-- Bytes of a file. -/
  | wild
deriving DecidableEq, Repr

namespace HeapPointer

/-- `if (p) free(p)` is given `NULL` or a block. -/
def freeable : HeapPointer → Bool
  | null | block => true
  | freed | wild => false

/-- What the pointer is after `if (p) free(p)`. -/
def afterFree : HeapPointer → HeapPointer
  | block => freed
  | p => p

/-- The pointer with some of its four bytes overwritten. -/
def overwrite (p : HeapPointer) (bs : List UInt8) : HeapPointer :=
  if bs = [] then p
  else if (bs.length = 4 ∨ p = null) ∧ bs.all (· == 0) then null
  else wild

theorem overwrite_zeros (p : HeapPointer) : p.overwrite [0, 0, 0, 0] = null := by
  simp [overwrite]

end HeapPointer

structure FileReader where
  mRemuxSig : List UInt8
  mBlockSize : Int
  mBlockCache : List UInt8
  mBlockCachePtr : HeapPointer
  mHeapIntact : Bool
  mKeyhint : List UInt8
  mHash : List UInt8
  mCachePos : Int
  mPos : Int
  mFileSize : Int
  mStartInFile : Int
  mLayout : Int
  mFilePosCache : Int
  mIsEncrypted : Bool
  mKeyOk : Bool
  mFile : ByteFile
  mCodec : List UInt8

/-- `SetFilePointer(…, NULL, SEEK_CUR)`, which fails on a target that is negative or does
not fit in 32 bits. -/
def seekCur (f : ByteFile) (distance : Int) : ByteFile :=
  if 0 ≤ f.pos + distance ∧ f.pos + distance < 2 ^ 32 then
    f.seekSet (f.pos + distance).toNat
  else f

namespace FileReader

/-- `::ReadFile` on the reader's handle: what it delivers. -/
def osRead (r : FileReader) (n : Nat) : List UInt8 := r.mFile.readBytes n

def osSkip (r : FileReader) (n : Nat) : FileReader := { r with mFile := r.mFile.afterRead n }

/-- The data of one leaf: the reader afterwards and `byte_read`, or `none` for
`goto rewind`. -/
def readField (r : FileReader) (eightcc : Nat) : FileReader × Option Nat :=
  let keep (n : Nat) (bs : List UInt8) : Option Nat := if bs.length ≠ n then none else some n
  if eightcc = eightccFilesize then
    let bs := r.osRead 8
    ({ r.osSkip 8 with
        mFileSize := toInt64 (ofLE (overlay bs (toLE 8 (r.mFileSize % 2 ^ 64).toNat))) }, keep 8 bs)
  else if eightcc = eightccBlocksize then
    let bs := r.osRead 8
    ({ r.osSkip 8 with
        mBlockSize :=
          toInt32 (ofLE ((overlay bs (toLE 4 (r.mBlockSize % 2 ^ 32).toNat)).take 4))
        mBlockCachePtr := r.mBlockCachePtr.overwrite (bs.drop 4) }, keep 8 bs)
  else if eightcc = eightccKeyhint then
    let bs := r.osRead 32
    ({ r.osSkip 32 with mKeyhint := (overlay bs r.mKeyhint).take 32 }, keep 32 bs)
  else if eightcc = eightccLayout then
    let bs := r.osRead 8
    ({ r.osSkip 8 with
        mLayout := toInt64 (ofLE (overlay bs (toLE 8 (r.mLayout % 2 ^ 64).toNat))) }, keep 8 bs)
  else if eightcc = eightccSrchash then
    let bs := r.osRead 20
    ({ r.osSkip 20 with mHash := (overlay bs r.mHash).take 20 }, keep 20 bs)
  else if eightcc = eightccRemux then
    let bs := r.osRead 128
    ({ r.osSkip 128 with mRemuxSig := (overlay bs r.mRemuxSig).take 128 }, keep 128 bs)
  else (r, some 0)

/-- One turn of the leaf loop: the reader afterwards and the leaf's size, or
`none` for `goto rewind`. -/
def readLeaf (r : FileReader) : FileReader × Option Int :=
  let cc := r.osRead 8
  let r := r.osSkip 8
  if cc.length ≠ 8 then (r, none)
  else
    let sz := r.osRead 8
    let r := r.osSkip 8
    if sz.length ≠ 8 then (r, none)
    else
      let leafSize := toInt64 (ofLE sz)
      match r.readField (ofLE cc) with
      | (r, none) => (r, none)
      | (r, some byteRead) =>
        ({ r with mFile := seekCur r.mFile (toInt32 (leafSize - byteRead)) }, some leafSize)

/-- The leaf loop: the reader and whether it reached the end of the root, or
`none` when the fuel runs out. -/
def leafLoop : Nat → FileReader → Int → Int → Option (FileReader × Bool)
  | 0, _, _, _ => none
  | fuel + 1, r, totalByteRead, rootSize =>
    match r.readLeaf with
    | (r, none) => some (r, false)
    | (r, some leafSize) =>
      if toInt64 (totalByteRead + (16 + leafSize)) < rootSize then
        leafLoop fuel r (toInt64 (totalByteRead + (16 + leafSize))) rootSize
      else some (r, true)

def rewind (r : FileReader) (li : Nat) : FileReader := { r with mFile := r.mFile.seekSet li }

def setFile (fuel : Nat) (r : FileReader) (file : ByteFile) : Option FileReader :=
  let li := file.pos
  let r := { r with
    mRemuxSig := List.replicate 128 0
    mFile := file
    mIsEncrypted := false
    mHash := List.replicate 20 0
    mCachePos := 0
    mBlockCache := []
    mBlockCachePtr := r.mBlockCachePtr.afterFree
    mHeapIntact := r.mHeapIntact && r.mBlockCachePtr.freeable }
  let cc := r.osRead 8
  let r := r.osSkip 8
  if cc.length ≠ 8 then some (r.rewind li)
  else if ofLE cc ≠ eightccRoot then some (r.rewind li)
  else
    let sz := r.osRead 8
    let r := r.osSkip 8
    if sz.length ≠ 8 then some (r.rewind li)
    else
      let rootSize := toInt64 (ofLE sz)
      let r := { r with mStartInFile := rootSize + 16 }
      match leafLoop fuel r 0 rootSize with
      | none => none
      | some (r, false) => some (r.rewind li)
      | some (r, true) =>
        if r.mFileSize = 0 ∨ r.mBlockSize = 0 then some (r.rewind li)
        else some { r with
          mFilePosCache := r.mStartInFile
          mIsEncrypted := true
          mCachePos := -1
          mPos := 0
          mBlockCache := List.replicate r.mBlockSize.toNat 0
          -- a negative size is more than `malloc` has
          mBlockCachePtr := if 0 < r.mBlockSize then .block else .null }

def setKey (aes : AESCryptor) (r : FileReader) (key : List UInt8) : FileReader :=
  let keyhint := overlay (aes.encrypt key (r.mKeyhint.take 16)) r.mKeyhint
  { r with
    mCodec := key
    mKeyOk := keyhint.take 16 = (keyhint.drop 16).take 16
    mKeyhint := overlay (aes.decrypt key (keyhint.take 16)) keyhint }

/-- Move the file to `target` unless it is believed to be there. -/
def seekTo (r : FileReader) (target : Int) : FileReader :=
  if target ≠ r.mFilePosCache then
    { r with mFilePosCache := target, mFile := r.mFile.seekSet target.toNat }
  else r

/-- Fill the block cache from the file and decrypt it, without the update of
`m_file_pos_cache`. -/
def fillCache (aes : AESCryptor) (r : FileReader) : FileReader :=
  let n := r.mBlockSize.toNat
  { r.osSkip n with
    mBlockCache := mapBlocks 16 (aes.decrypt r.mCodec) ((n + 15) / 16)
      (overlay (r.osRead n) r.mBlockCache) }

/-- Bring the block of `m_pos` into the cache. -/
def cacheBlock (aes : AESCryptor) (r : FileReader) : FileReader :=
  let block := r.mPos.tdiv r.mBlockSize * r.mBlockSize
  if r.mCachePos ≠ block then
    let r := { r with mCachePos := block }
    let r := r.seekTo (r.mStartInFile + r.mCachePos)
    let r := r.fillCache aes
    -- the read is assumed to succeed
    { r with mFilePosCache := r.mFilePosCache + r.mBlockSize }
  else r

/-- The head of a request: the reader, what is left to read, and the bytes
copied. -/
def readHead (aes : AESCryptor) (r : FileReader) (nToRead : Nat) :
    FileReader × Nat × List UInt8 :=
  if r.mPos.tmod r.mBlockSize ≠ 0 then
    let r := r.cacheBlock aes
    let byteToGet := min (r.mCachePos + r.mBlockSize - r.mPos) nToRead
    ({ r with mPos := r.mPos + byteToGet }, nToRead - byteToGet.toNat,
      (r.mBlockCache.drop (r.mPos - r.mCachePos).toNat).take byteToGet.toNat)
  else (r, nToRead, [])

/-- The body of a request: whole blocks, straight into the caller's buffer. -/
def readBody (aes : AESCryptor) (r : FileReader) (nToRead : Nat) :
    FileReader × Nat × List UInt8 :=
  if nToRead > toDWORD r.mBlockSize then
    let r := r.seekTo (r.mPos + r.mStartInFile)
    let whole := nToRead / toDWORD r.mBlockSize * toDWORD r.mBlockSize
    let bytes := mapBlocks 16 (aes.decrypt r.mCodec) ((whole + 15) / 16) (r.osRead whole)
    let r := r.osSkip whole
    ({ r with mFilePosCache := r.mFilePosCache + whole, mPos := r.mPos + whole },
      nToRead - whole, bytes)
  else (r, nToRead, [])

/-- The tail of a request, through the cache. -/
def readTail (aes : AESCryptor) (r : FileReader) (nToRead : Nat) : FileReader × List UInt8 :=
  if nToRead > 0 then
    let r := { r with mCachePos := r.mPos }
    let r := r.seekTo (r.mPos + r.mStartInFile)
    let byteRead := (r.osRead r.mBlockSize.toNat).length
    let r := r.fillCache aes
    ({ r with mFilePosCache := r.mFilePosCache + byteRead, mPos := r.mPos + nToRead },
      r.mBlockCache.take nToRead)
  else (r, [])

/-- `file_reader::ReadFile`: the bytes it delivers, or `none` for `FALSE`. -/
def readFile (aes : AESCryptor) (r : FileReader) (nToRead : Nat) :
    FileReader × Option (List UInt8) :=
  if !r.mIsEncrypted || !r.mKeyOk then (r.osSkip nToRead, some (r.osRead nToRead))
  else
    let nToRead := toDWORD (min nToRead (toInt64 (r.mFileSize - r.mPos)))
    if nToRead = 0 ∨ r.mPos < 0 then (r, none)
    else
      let (r, nToRead, head) := r.readHead aes nToRead
      let (r, nToRead, body) := r.readBody aes nToRead
      let (r, tail) := r.readTail aes nToRead
      (r, some (head ++ body ++ tail))

def getFileSizeEx (r : FileReader) : Int :=
  if !r.mIsEncrypted || !r.mKeyOk then r.mFile.data.length else r.mFileSize

/-- The `dwMoveMethod` of a seek. -/
inductive MoveMethod where
  | SEEK_SET
  | SEEK_CUR
  | SEEK_END
deriving DecidableEq, Repr

/-- `file_reader::SetFilePointerEx`: the new position, or `none` for `FALSE`. -/
def setFilePointerEx (r : FileReader) (distance : Int) (method : MoveMethod) :
    FileReader × Option Int :=
  if !r.mIsEncrypted || !r.mKeyOk then
    let target := match method with
      | .SEEK_SET => distance
      | .SEEK_CUR => r.mFile.pos + distance
      | .SEEK_END => r.mFile.data.length + distance
    if target < 0 then (r, none)
    else ({ r with mFile := r.mFile.seekSet target.toNat }, some target)
  else
    let target := match method with
      | .SEEK_SET => distance
      | .SEEK_CUR => toInt64 (r.mPos + distance)
      | .SEEK_END => r.mFileSize
    if target < 0 then (r, none) else ({ r with mPos := target }, some target)

end FileReader

end DWindow.E3D
