import DWindow.Lib.Blocks
import DWindow.Lib.ByteFile
import DWindow.Lib.CString
import DWindow.Lib.ByteOrder

/-!
# Writing an encrypted file

`encode_file` of `E3DWriter.cpp`.  An E3D file is a tree of leaves, each with an
eight-character code and the size of what it holds, followed by the encrypted
data: the source in blocks of `655360` bytes, the last one padded with zeros.

The cipher of `RIJNDAEL.CPP` is a parameter: it maps a key and a sixteen-byte
block to a sixteen-byte block, and `AESCryptor.Inverts` is the property of it
that the round trip rests on.  Of the four kinds of leaf, `encode_file` never
builds the one that copies from a file.
-/

namespace DWindow.E3D

open Blocks CString LittleEndian

/-- `AESCryptor`: its two directions on sixteen-byte blocks, under a key. -/
structure AESCryptor where
  encrypt : List UInt8 → List UInt8 → List UInt8
  decrypt : List UInt8 → List UInt8 → List UInt8
  encrypt_length : ∀ key b, b.length = 16 → (encrypt key b).length = 16
  decrypt_length : ∀ key b, b.length = 16 → (decrypt key b).length = 16

/-- Decrypting with the key undoes encrypting with it. -/
def AESCryptor.Inverts (aes : AESCryptor) (key : List UInt8) : Prop :=
  ∀ b, b.length = 16 → aes.decrypt key (aes.encrypt key b) = b

/-- `str2int64`: the first eight characters as a little-endian integer. -/
def str2int64 (str : List Char) : Nat := ofLE ((ascii str).take 8)

def eightccRoot : Nat := str2int64 ['m', 'y', '1', '2', 'd', 'o', 'o', 'm']
def eightccFilesize : Nat := str2int64 ['f', 'i', 'l', 'e', 's', 'i', 'z', 'e']
def eightccBlocksize : Nat := str2int64 ['b', 'l', 'o', 'c', 'k', 's', 'i', 'z', 'e']
def eightccLayout : Nat := str2int64 ['l', 'a', 'y', 'o', 'u', 't']
def eightccSrchash : Nat := str2int64 ['s', 'r', 'c', 'h', 'a', 's', 'h']
def eightccKeyhint : Nat := str2int64 ['k', 'e', 'y', 'h', 'i', 'n', 't']
def eightccRemux : Nat := str2int64 ['r', 'e', 'm', 'u', 'x']

inductive My12doomLeaf where
  | notSet (leaf8cc : Nat)
  | memory (leaf8cc : Nat) (data : List UInt8)
  | childs (leaf8cc : Nat) (childSize : Nat) (leaves : List My12doomLeaf)

namespace My12doomLeaf

/-- `m_leaf8cc`. -/
def leaf8cc : My12doomLeaf → Nat
  | notSet cc => cc
  | memory cc _ => cc
  | childs cc _ _ => cc

/-- `m_child_size`. -/
def childSize : My12doomLeaf → Nat
  | notSet _ => 0
  | memory _ data => data.length
  | childs _ size _ => size

def addLeaf : My12doomLeaf → My12doomLeaf → My12doomLeaf
  | notSet cc, leaf => childs cc (16 + leaf.childSize) [leaf]
  | memory cc data, _ => memory cc data
  | childs cc size leaves, leaf => childs cc (size + (16 + leaf.childSize)) (leaves ++ [leaf])

mutual

/-- `WriteTo`: the bytes a leaf writes. -/
def writeTo : My12doomLeaf → List UInt8
  | notSet cc => toLE 8 cc ++ toLE 8 0
  | memory cc data => toLE 8 cc ++ toLE 8 data.length ++ data
  | childs cc size leaves => toLE 8 cc ++ toLE 8 size ++ writeLeaves leaves

def writeLeaves : List My12doomLeaf → List UInt8
  | [] => []
  | leaf :: leaves => leaf.writeTo ++ writeLeaves leaves

end

end My12doomLeaf

def E3D_BLOCK_SIZE : Nat := 16

def E3D_ENCODING_BLOCK_SIZE : Nat := 655360

/-- Zero bytes behind `bs` up to length `n`. -/
def padTo (n : Nat) (bs : List UInt8) : List UInt8 := bs ++ List.replicate (n - bs.length) 0

/-- `s_key_hint`: a known block and its encryption. -/
def keyHint (aes : AESCryptor) (key : List UInt8) : List UInt8 :=
  let plain := padTo 16 (ascii ['t', 'e', 's', 't', ' ', 'd', 'a', 't', 'a'])
  plain ++ aes.encrypt key plain

def remuxSig : List UInt8 :=
  padTo 192 (ascii ['m', 'y', '1', '2', 'd', 'o', 'o', 'm', '\'', 's', ' ', 'm', 'v', 'c', ' ',
    'i', 'n', 't', 'e', 'r', 'l', 'a', 'c', 'e', 'r'])

/-- The tree that `encode_file` writes in front of the data. -/
def headerRoot (aes : AESCryptor) (key : List UInt8) (fileSize : Nat) (sourceHash : List UInt8) :
    My12doomLeaf :=
  (((((((My12doomLeaf.notSet eightccRoot).addLeaf
    (.memory eightccFilesize (toLE 8 fileSize))).addLeaf
    (.memory eightccBlocksize (toLE 8 E3D_BLOCK_SIZE))).addLeaf
    (.memory eightccLayout (toLE 8 0))).addLeaf
    (.memory eightccSrchash sourceHash)).addLeaf
    (.memory eightccKeyhint (keyHint aes key))).addLeaf
    (.memory eightccRemux remuxSig))

/-- A progress callback: whether it lets the work go on. -/
abbrev Progress := Nat → Int → Int → Bool

/-- `cb` is absent or answers `S_OK`. -/
def goesOn (cb : Option Progress) (type : Nat) (para1 para2 : Int) : Bool :=
  match cb with
  | none => true
  | some f => f type para1 para2

/-- The encrypting loop, with `byteLeft` bytes of `hin` to go. -/
def encodeLoop (aes : AESCryptor) (key : List UInt8) (cb : Option Progress) (fileSize : Nat)
    (hin hout : ByteFile) (byteLeft : Nat) : ByteFile :=
  if 0 < byteLeft then
    let got := hin.readBytes E3D_ENCODING_BLOCK_SIZE
    let tmp := mapBlocks 16 (aes.encrypt key) (E3D_ENCODING_BLOCK_SIZE / 16)
      (padTo E3D_ENCODING_BLOCK_SIZE got)
    let hout := hout.write tmp
    if got.length < E3D_ENCODING_BLOCK_SIZE then hout
    else if goesOn cb 1 (fileSize - byteLeft) fileSize then
      encodeLoop aes key cb fileSize (hin.afterRead E3D_ENCODING_BLOCK_SIZE) hout
        (byteLeft - E3D_ENCODING_BLOCK_SIZE)
    else hout
  else hout
termination_by byteLeft
decreasing_by
  rw [E3D_ENCODING_BLOCK_SIZE]
  omega

/-- `encode_file`: the content of `out` for the content of `in`. -/
def encodeFile (aes : AESCryptor) (source key sourceHash : List UInt8) (cb : Option Progress) :
    List UInt8 :=
  let hout := ByteFile.empty.write (headerRoot aes key source.length sourceHash).writeTo
  if goesOn cb 0 0 0 then
    (encodeLoop aes key cb source.length ⟨source, 0⟩ hout source.length).data
  else hout.data

/-! ## What comes out -/

theorem goesOn_of_forall {cb : Option Progress}
    (h : ∀ f ∈ cb, ∀ type para1 para2, f type para1 para2 = true) (type : Nat)
    (para1 para2 : Int) : goesOn cb type para1 para2 = true := by
  cases cb with
  | none => rfl
  | some f => exact h f rfl type para1 para2

theorem length_padTo {n : Nat} {bs : List UInt8} (h : bs.length ≤ n) : (padTo n bs).length = n := by
  rw [padTo, List.length_append, List.length_replicate]
  omega

theorem keepsLength_encrypt (aes : AESCryptor) (key : List UInt8) :
    KeepsLength 16 (aes.encrypt key) := aes.encrypt_length key

/-- **The data behind the header is the source, padded with zeros to whole blocks
and encrypted block by block.** -/
theorem encodeLoop_data (aes : AESCryptor) (key : List UInt8) {cb : Option Progress}
    (hcb : ∀ f ∈ cb, ∀ type para1 para2, f type para1 para2 = true) (fileSize : Nat) :
    ∀ (byteLeft : Nat) (hin hout : ByteFile), hin.pos + byteLeft = hin.data.length →
      hout.pos = hout.data.length → ∃ k zeros,
        (encodeLoop aes key cb fileSize hin hout byteLeft).data = hout.data ++
          mapBlocks 16 (aes.encrypt key) k (hin.data.drop hin.pos ++ List.replicate zeros 0) ∧
        byteLeft + zeros = k * 16 := by
  intro byteLeft
  induction byteLeft using Nat.strong_induction_on with
  | _ byteLeft ih =>
    intro hin hout hpos hend
    by_cases h0 : 0 < byteLeft
    · have hrest : (hin.data.drop hin.pos).length = byteLeft := by
        rw [List.length_drop]
        omega
      have hlen : (hin.readBytes E3D_ENCODING_BLOCK_SIZE).length =
          min E3D_ENCODING_BLOCK_SIZE byteLeft := by
        rw [ByteFile.readBytes, List.length_take, hrest]
      rw [encodeLoop, if_pos h0]
      dsimp only
      rw [goesOn_of_forall hcb, if_pos rfl]
      by_cases hshort : byteLeft < E3D_ENCODING_BLOCK_SIZE
      · -- the last block, padded
        rw [if_pos (by omega)]
        refine ⟨E3D_ENCODING_BLOCK_SIZE / 16, E3D_ENCODING_BLOCK_SIZE - byteLeft, ?_, ?_⟩
        · rw [ByteFile.write_data_of_end hend, padTo, hlen, ByteFile.readBytes,
            List.take_of_length_le (by omega), min_eq_right hshort.le]
        · rw [E3D_ENCODING_BLOCK_SIZE] at hshort ⊢
          omega
      · rw [if_neg (by omega)]
        have hfull : (hin.readBytes E3D_ENCODING_BLOCK_SIZE).length =
            E3D_ENCODING_BLOCK_SIZE := by omega
        have hpad : padTo E3D_ENCODING_BLOCK_SIZE (hin.readBytes E3D_ENCODING_BLOCK_SIZE) =
            hin.readBytes E3D_ENCODING_BLOCK_SIZE := by
          rw [padTo, hfull, Nat.sub_self, List.replicate_zero, List.append_nil]
        have hafter : (hin.afterRead E3D_ENCODING_BLOCK_SIZE).pos =
            hin.pos + E3D_ENCODING_BLOCK_SIZE := ByteFile.afterRead_pos_of_le (by omega)
        rw [hpad]
        obtain ⟨k, zeros, hdata, hk⟩ := ih (byteLeft - E3D_ENCODING_BLOCK_SIZE)
          (by rw [E3D_ENCODING_BLOCK_SIZE]; omega) (hin.afterRead E3D_ENCODING_BLOCK_SIZE)
          (hout.write (mapBlocks 16 (aes.encrypt key) (E3D_ENCODING_BLOCK_SIZE / 16)
            (hin.readBytes E3D_ENCODING_BLOCK_SIZE)))
          (by rw [hafter, ByteFile.afterRead_data]; omega)
          (by rw [ByteFile.write_pos, ByteFile.write_data_of_end hend, List.length_append, hend])
        refine ⟨E3D_ENCODING_BLOCK_SIZE / 16 + k, zeros, ?_, ?_⟩
        · rw [hdata, ByteFile.write_data_of_end hend, List.append_assoc,
            ← mapBlocks_append _ k _ _ (by rw [hfull, E3D_ENCODING_BLOCK_SIZE]), hafter,
            ByteFile.afterRead_data, ByteFile.readBytes, ← List.append_assoc,
            ← List.drop_drop, List.take_append_drop]
        · rw [E3D_ENCODING_BLOCK_SIZE] at hshort hk ⊢
          omega
    · refine ⟨0, 0, ?_, by omega⟩
      rw [encodeLoop, if_neg h0, List.drop_of_length_le (by omega)]
      simp [mapBlocks]

end DWindow.E3D
