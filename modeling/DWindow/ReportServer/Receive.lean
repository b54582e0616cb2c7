import DWindow.Lib.CInt

/-!
# The report server's upload

The loop of `server.cpp` that receives an uploaded file: what is announced and what has come
are `__int64`s, what is left is an `int`, and each block that `recv` returns is written and
hashed up to what is left.  Cut to an `int`, a number of 2 GiB or more is no longer what is
left, so the file is stored as announced if and only if it is smaller: `stores_iff`.
-/

namespace DWindow.ReportServer

open CInt

/-- What a `recv` into `buf[4096]` returns while the connection is open. -/
structure Block where
  bytes : List UInt8
  nonempty : 0 < bytes.length
  inside : bytes.length ≤ 4096

def stream (blocks : List Block) : List UInt8 := (blocks.map Block.bytes).flatten

@[simp] theorem stream_nil : stream [] = [] := rfl

@[simp] theorem stream_cons (b : Block) (blocks : List Block) :
    stream (b :: blocks) = b.bytes ++ stream blocks := rfl

/-- How much has come, what the file holds and what was hashed. -/
structure Received where
  got : Int
  written : List UInt8
  hashed : List UInt8
deriving DecidableEq, Repr

/-- `min(block_size, left)`, with `left` as the `int` it is. -/
def blockPart (fileSize got : Int) (b : Block) : Int :=
  min (b.bytes.length : Int) (toInt32 (fileSize - got))

/-- The loop; behind the blocks `recv` fails.  A count below 0 is a size far beyond `buf` for
`fwrite` and `SHA1_Hash`, which gives no result.  No sum leaves the range of an `__int64`. -/
def receiveLoop (fileSize : Int) : List Block → Received → Option Received
  | [], r => some r
  | b :: blocks, r =>
    if r.got < fileSize then
      if blockPart fileSize r.got b < 0 then none
      else receiveLoop fileSize blocks
        ⟨r.got + blockPart fileSize r.got b,
          r.written ++ b.bytes.take (blockPart fileSize r.got b).toNat,
          r.hashed ++ b.bytes.take (blockPart fileSize r.got b).toNat⟩
    else some r

def receive (fileSize : Int) (blocks : List Block) : Option Received :=
  receiveLoop fileSize blocks ⟨0, [], []⟩

/-- **The file is stored as announced**: its bytes are written and hashed, and the loop has
ended by itself. -/
def Stores (fileSize : Int) (blocks : List Block) : Prop :=
  ∃ r, receive fileSize blocks = some r ∧ r.written = (stream blocks).take fileSize.toNat ∧
    r.hashed = (stream blocks).take fileSize.toNat ∧ fileSize ≤ r.got

/-- The loop stores what is left of a file smaller than 2 GiB, however it comes. -/
theorem receiveLoop_of_lt {fileSize : Int} (hsize : fileSize < 2 ^ 31) :
    ∀ (blocks : List Block) (r : Received), 0 ≤ r.got →
      fileSize - r.got ≤ (stream blocks).length →
      ∃ r', receiveLoop fileSize blocks r = some r' ∧
        r'.written = r.written ++ (stream blocks).take (fileSize - r.got).toNat ∧
        r'.hashed = r.hashed ++ (stream blocks).take (fileSize - r.got).toNat ∧
        fileSize ≤ r'.got := by
  intro blocks
  induction blocks with
  | nil =>
    intro r _ henough
    rw [stream_nil, List.length_nil] at henough
    refine ⟨r, rfl, ?_, ?_, by omega⟩
    · simp
    · simp
  | cons b blocks ih =>
    intro r hgot henough
    rw [receiveLoop]
    by_cases hmore : r.got < fileSize
    · have hpart : blockPart fileSize r.got b = min (b.bytes.length : Int) (fileSize - r.got) := by
        rw [blockPart, toInt32_of_lt (by omega) (by omega)]
      rw [if_pos hmore, hpart]
      rw [stream_cons, List.length_append] at henough
      have hfirst : 0 < b.bytes.length := b.nonempty
      rcases Int.le_total (b.bytes.length : Int) (fileSize - r.got) with hle | hle
      · -- the whole block is the file's
        obtain ⟨r', hloop, hwritten, hhashed, hend⟩ :=
          ih ⟨r.got + b.bytes.length, r.written ++ b.bytes, r.hashed ++ b.bytes⟩
            (show (0 : Int) ≤ r.got + b.bytes.length by omega)
            (show fileSize - (r.got + b.bytes.length) ≤ (stream blocks).length by omega)
        have htake : (stream (b :: blocks)).take (fileSize - r.got).toNat =
            b.bytes ++ (stream blocks).take (fileSize - (r.got + b.bytes.length)).toNat := by
          rw [stream_cons, List.take_append, List.take_of_length_le (by omega)]
          congr 2
          omega
        rw [Int.min_eq_left hle, if_neg (by omega), Int.toNat_natCast, List.take_length, htake,
          ← List.append_assoc, ← List.append_assoc]
        exact ⟨r', hloop, hwritten, hhashed, hend⟩
      · -- the block is more than what is left
        obtain ⟨r', hloop, hwritten, hhashed, hend⟩ :=
          ih ⟨r.got + (fileSize - r.got), r.written ++ b.bytes.take (fileSize - r.got).toNat,
              r.hashed ++ b.bytes.take (fileSize - r.got).toNat⟩
            (show (0 : Int) ≤ r.got + (fileSize - r.got) by omega)
            (show fileSize - (r.got + (fileSize - r.got)) ≤ (stream blocks).length by omega)
        have hnone : (fileSize - (r.got + (fileSize - r.got))).toNat = 0 := by omega
        dsimp only at hwritten hhashed
        rw [hnone, List.take_zero, List.append_nil] at hwritten hhashed
        have htake : (stream (b :: blocks)).take (fileSize - r.got).toNat =
            b.bytes.take (fileSize - r.got).toNat := by
          rw [stream_cons, List.take_append_of_le_length (by omega)]
        rw [Int.min_eq_right hle, if_neg (by omega), htake]
        exact ⟨r', hloop, hwritten, hhashed, hend⟩
    · rw [if_neg hmore, show (fileSize - r.got).toNat = 0 by omega, List.take_zero,
        List.append_nil, List.append_nil]
      exact ⟨r, rfl, rfl, rfl, by omega⟩

/-- While 2 GiB or more are left the loop does not come to the end of the file: on the way it
would have to take a block with an `int` below 0 left. -/
theorem receiveLoop_of_le {fileSize : Int} : ∀ (blocks : List Block) (r r' : Received),
    2 ^ 31 ≤ fileSize - r.got → receiveLoop fileSize blocks r = some r' → r'.got < fileSize := by
  intro blocks
  induction blocks with
  | nil =>
    intro r r' hleft h
    obtain rfl := Option.some.inj h
    omega
  | cons b blocks ih =>
    intro r r' hleft h
    have hblock : b.bytes.length ≤ 4096 := b.inside
    rw [receiveLoop, if_pos (by omega)] at h
    split at h
    · cases h
    · next hn =>
      rw [blockPart] at hn h
      by_cases hnext : fileSize - r.got < 2 ^ 32
      · have hwrap := toInt32_le_sub hleft
        omega
      · exact ih _ r' (by dsimp only; omega) h

/-- **An upload is stored as announced** if and only if it is smaller than 2 GiB. -/
theorem stores_iff (fileSize : Int) (blocks : List Block)
    (h : fileSize ≤ (stream blocks).length) : Stores fileSize blocks ↔ fileSize < 2 ^ 31 := by
  constructor
  · rintro ⟨r, hr, -, -, hend⟩
    by_contra hlarge
    have hlt := receiveLoop_of_le blocks ⟨0, [], []⟩ r (by dsimp only; omega) hr
    omega
  · intro hsize
    obtain ⟨r, hr, hwritten, hhashed, hend⟩ :=
      receiveLoop_of_lt hsize blocks ⟨0, [], []⟩ le_rfl (by simpa using h)
    refine ⟨r, hr, ?_, ?_, hend⟩
    · simpa using hwritten
    · simpa using hhashed

/-- Three bytes in two blocks, of which two are announced. -/
theorem stores_two : Stores 2 [⟨[1], by decide, by decide⟩, ⟨[2, 3], by decide, by decide⟩] :=
  (stores_iff 2 _ (by decide)).mpr (by decide)

def fullBlock : Block :=
  ⟨List.replicate 4096 0, by rw [List.length_replicate]; omega, by rw [List.length_replicate]⟩

theorem length_stream_replicate (n : Nat) :
    (stream (List.replicate n fullBlock)).length = n * 4096 := by
  induction n with
  | zero => rfl
  | succ n ih =>
    rw [List.replicate_succ, stream_cons, List.length_append, ih, fullBlock,
      List.length_replicate]
    omega

/-- A file of 2 GiB that comes whole is not stored. -/
theorem two_gib_not_stored : ∃ blocks : List Block, (stream blocks).length = 2 ^ 31 ∧
    ¬Stores (2 ^ 31) blocks := by
  refine ⟨List.replicate 524288 fullBlock, ?_, ?_⟩
  · rw [length_stream_replicate]
    norm_num
  · rintro ⟨r, hr, -, -, hend⟩
    have hlt := receiveLoop_of_le _ ⟨0, [], []⟩ r (by decide) hr
    omega

end DWindow.ReportServer
