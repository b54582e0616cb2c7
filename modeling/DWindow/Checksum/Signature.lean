import DWindow.Checksum.Rsa
import DWindow.Checksum.Sha1
import DWindow.Lib.PublicKey
import DWindow.Lib.Scanf
import Mathlib.NumberTheory.LucasLehmer

/-!
# Signatures

A signature is a power of a checksum under a private key, and `verify_signature` of
`video_checksum.cpp` raises it to 65537 and compares.  What it accepts is one residue
(`verifySignature_iff`).

`remux_publish` writes the signature of a video into its head, behind the start code, where the
checksum does not look; so the video is still the one that was signed (`verifyFile_publish`).
-/

namespace DWindow.Checksum

open Blocks Buffer CString LittleEndian Scanf Words

/-! ## Powers of 128 bytes -/

/-- `e` behind `BigNumberSetEqualdw(e, 65537, 32)`. -/
def publicExponent : List DWORD := 65537 :: List.replicate 31 0

/-- `RSA(out, in, e, n, 32)` for an array `out` of 32 words. -/
def rsa (input e n : List DWORD) : List DWORD :=
  match RSA (fun _ => true) 32 ⟨List.replicate 32 0, input, e, n⟩ with
  | some (_, b) => b.out
  | none => List.replicate 32 0

/-- `RSA_dwindow_public` and `RSA_dwindow_network_public`, with `dwindow_n` and
`dwindow_network_n`. -/
def rsaPublic (n : List DWORD) (input : List UInt8) : List UInt8 :=
  bytes (rsa (words 32 input) publicExponent n)

/-- `RSA_dwindow_private` and `RSA_dwindow_network_private`. -/
def rsaPrivate (d n : List DWORD) (input : List UInt8) : List UInt8 :=
  bytes (rsa (words 32 input) d n)

/-- A private key `d` of the modulus `n`, which is larger than a checksum. -/
structure SigningKey (n d : List DWORD) : Prop where
  length_n : n.length = 32
  length_d : d.length = 32
  two_le : 2 ≤ value d
  large : 2 ^ 160 ≤ value n
  pair : KeyPair (value n) 65537 (value d)

theorem value_publicExponent : value publicExponent = 65537 := by
  rw [publicExponent, value_cons, value_replicate, Nat.mul_zero]
  rfl

/-- **A power** of 32 words. -/
theorem rsa_power {input e n : List DWORD} (hinput : input.length = 32) (he : e.length = 32)
    (hn : n.length = 32) (hn0 : 0 < value n) (he2 : 2 ≤ value e) :
    (rsa input e n).length = 32 ∧ value (rsa input e n) = value input ^ value e % value n := by
  have hsize : bigNumberSizeof e 32 ≠ 0 := by
    rw [← he]
    exact bigNumberSizeof_pos (by omega)
  obtain ⟨c, hc, hone, hbits⟩ := bitsLeft_start he hsize
  have hcpos : 0 < c := by
    apply Nat.pos_of_ne_zero
    rintro rfl
    rw [pow_zero, Nat.div_one] at hone
    omega
  obtain ⟨out, hloop, hlen, hvalue, hlt⟩ := rsaLoop_eq (hinput.trans hn.symm)
    (he.trans hn.symm) hn0 (32 * 32) hc.le (by rw [hn]; exact hc) hbits (hinput.trans hn.symm)
    (by rw [hone, pow_one])
  rw [Nat.mod_eq_of_lt (hlt (Or.inl hcpos))] at hvalue
  have hout : rsa input e n = out := by
    rw [rsa, RSA, if_neg (by decide), if_neg (by decide), if_neg hsize,
      List.take_of_length_le hinput.le, List.take_of_length_le hn.le, hloop, Option.map_some]
    dsimp only
    rw [List.take_of_length_le (by omega), List.drop_of_length_le List.length_replicate.le,
      List.append_nil]
  rw [hout]
  exact ⟨hlen.trans hn, hvalue⟩

section

variable {n d : List DWORD} {input : List UInt8}

theorem rsaPublic_eq (hn : n.length = 32) (hn0 : 0 < value n) (hinput : input.length = 128) :
    (rsaPublic n input).length = 128 ∧
      ofLE (rsaPublic n input) = ofLE input ^ 65537 % value n := by
  have he : publicExponent.length = 32 := rfl
  have hvalue := value_publicExponent
  obtain ⟨hlen, hpow⟩ := rsa_power (length_words 32 input) he hn hn0 (by omega)
  rw [rsaPublic, length_bytes, hlen, ofLE_bytes, hpow, hvalue, value_words hinput]
  exact ⟨rfl, rfl⟩

theorem rsaPrivate_eq (h : SigningKey n d) (hinput : input.length = 128) :
    (rsaPrivate d n input).length = 128 ∧
      ofLE (rsaPrivate d n input) = ofLE input ^ value d % value n := by
  obtain ⟨hlen, hpow⟩ := rsa_power (length_words 32 input) h.length_d h.length_n
    h.pair.modulus_pos h.two_le
  rw [rsaPrivate, length_bytes, hlen, ofLE_bytes, hpow, value_words hinput]
  exact ⟨rfl, rfl⟩

/-- **The public key undoes the private one**, below the modulus. -/
theorem rsaPublic_rsaPrivate (h : SigningKey n d) (hinput : input.length = 128)
    (hlt : ofLE input < value n) : rsaPublic n (rsaPrivate d n input) = input := by
  obtain ⟨hlen, hpow⟩ := rsaPrivate_eq h hinput
  obtain ⟨hlen', hpow'⟩ := rsaPublic_eq h.length_n h.pair.modulus_pos hlen
  apply (ofLE_inj (hlen'.trans hinput.symm)).mp
  rw [hpow', hpow, h.pair.symm.pow_mod_pow hlt]

/-- **The private key undoes the public one**. -/
theorem rsaPrivate_rsaPublic (h : SigningKey n d) (hinput : input.length = 128)
    (hlt : ofLE input < value n) : rsaPrivate d n (rsaPublic n input) = input := by
  obtain ⟨hlen, hpow⟩ := rsaPublic_eq h.length_n h.pair.modulus_pos hinput
  obtain ⟨hlen', hpow'⟩ := rsaPrivate_eq h hlen
  apply (ofLE_inj (hlen'.trans hinput.symm)).mp
  rw [hpow', hpow, h.pair.pow_mod_pow hlt]

end

/-! ## A checksum -/

/-- `m`: the 20 bytes of a checksum, and zeros. -/
def padChecksum (checksum : List UInt8) : List UInt8 := checksum ++ List.replicate 108 0

def verifySignature (checksum signature : List UInt8) (publicKey : List DWORD) : Bool :=
  let m := words 32 (padChecksum checksum)
  let m1 := rsa (words 32 signature) publicExponent publicKey
  (List.range 32).all fun i => m.getD i 0 == m1.getD i 0

/-- `publish_signature` of `remux_publish`. -/
def publishSignature (checksum : List UInt8) (d n : List DWORD) : List UInt8 :=
  rsaPrivate d n (padChecksum checksum)

section

variable {n d : List DWORD} {checksum signature : List UInt8}

theorem ofLE_padChecksum (checksum : List UInt8) : ofLE (padChecksum checksum) = ofLE checksum := by
  rw [padChecksum, ofLE_append, ofLE_replicate_zero, Nat.mul_zero, Nat.add_zero]

theorem length_padChecksum (h : checksum.length = 20) : (padChecksum checksum).length = 128 := by
  rw [padChecksum, List.length_append, List.length_replicate, h]

theorem ofLE_checksum_lt (h : SigningKey n d) (hchecksum : checksum.length = 20) :
    ofLE checksum < value n := by
  have hlt := ofLE_lt checksum
  rw [hchecksum] at hlt
  exact lt_of_lt_of_le hlt h.large

theorem all_range_eq {α : Type*} [BEq α] [LawfulBEq α] {k : ℕ} {as bs : List α} {a : α}
    (has : as.length = k) (hbs : bs.length = k) :
    ((List.range k).all fun i => as.getD i a == bs.getD i a) = true ↔ as = bs := by
  rw [List.all_eq_true]
  simp only [List.mem_range, beq_iff_eq]
  constructor
  · intro h
    refine List.ext_getElem (has.trans hbs.symm) fun i hi hi' => ?_
    have hget := h i (by omega)
    rwa [List.getD_eq_getElem _ _ hi, List.getD_eq_getElem _ _ hi'] at hget
  · rintro rfl i _
    rfl

theorem verifySignature_eq (hn : n.length = 32) (hn0 : 0 < value n)
    (hchecksum : checksum.length = 20) (hsignature : signature.length = 128) :
    verifySignature checksum signature n = true ↔
      ofLE signature ^ 65537 % value n = ofLE checksum := by
  have hvalue := value_publicExponent
  obtain ⟨hlen, hpow⟩ := rsa_power (length_words 32 signature) (show publicExponent.length = 32
    from rfl) hn hn0 (by omega)
  rw [verifySignature, all_range_eq (length_words _ _) hlen]
  have hm : value (words 32 (padChecksum checksum)) = ofLE checksum := by
    rw [value_words (length_padChecksum hchecksum), ofLE_padChecksum]
  rw [← hm, ← value_words (k := 32) hsignature, ← hvalue, ← hpow]
  constructor
  · intro h
    rw [h]
  · intro h
    exact (eq_of_value_eq (hlen.trans (length_words _ _).symm) h).symm

/-- **What the private key makes of a checksum** is accepted. -/
theorem verifySignature_publish (h : SigningKey n d) (hchecksum : checksum.length = 20) :
    verifySignature checksum (publishSignature checksum d n) n = true := by
  obtain ⟨hlen, hpow⟩ := rsaPrivate_eq h (length_padChecksum hchecksum)
  rw [publishSignature, verifySignature_eq h.length_n h.pair.modulus_pos hchecksum hlen, hpow,
    ofLE_padChecksum, h.pair.symm.pow_mod_pow (ofLE_checksum_lt h hchecksum)]

/-- **What is accepted** for a checksum is one residue, the power under the private key. -/
theorem verifySignature_iff (h : SigningKey n d) (hchecksum : checksum.length = 20)
    (hsignature : signature.length = 128) : verifySignature checksum signature n = true ↔
      ofLE signature % value n = ofLE (publishSignature checksum d n) := by
  obtain ⟨-, hpow⟩ := rsaPrivate_eq h (length_padChecksum hchecksum)
  rw [verifySignature_eq h.length_n h.pair.modulus_pos hchecksum hsignature, publishSignature,
    hpow, ofLE_padChecksum, h.pair.pow_mod_eq_iff (ofLE_checksum_lt h hchecksum)]

end

/-! ## A key of 1022 bits -/

def mersenneN : List DWORD :=
  [0x80000001, 0xdfffffff, 0x0dffffff, 0x80fff800, 0x404003ff, 0x0fe00100, 0xf8ffff90, 0xff8003f7,
    0xffdffdfd, 0x000fff80, 0x00000038, 0x00000004, 0x80000001, 0xffffffff, 0xffffffff, 0xffffffff,
    0xffffffff, 0xffffffff, 0x7fffffff, 0x3fffffff, 0x10000000, 0xf9000000, 0x3f8003ff, 0xdfdffe00,
    0xf80fff7f, 0x03800037, 0x003ffe04, 0x80100101, 0xfff8003f, 0xffffffe3, 0x7ffffffd, 0x3fffffff]

def mersenneD : List DWORD :=
  [0x50c62a47, 0xabe8e338, 0xeeb6ba94, 0xed9afea1, 0x800c7f8c, 0xd880c995, 0xbc03b91c, 0x1a715045,
    0x1dbc2147, 0x5129d705, 0x37eb7aa1, 0x55559fd3, 0x5555aaaa, 0x5555aaaa, 0x5555aaaa, 0x5555aaaa,
    0x5555aaaa, 0x5555aaaa, 0xd555aaaa, 0x8123e018, 0x6a5b31dc, 0x19a7bc05, 0x59eeab02, 0x35524ac7,
    0x5f353845, 0x26547c63, 0xceb91699, 0x4de66258, 0x410af4e9, 0xc75a8c02, 0x000002b5, 0x00000000]

theorem keyPair_mersenne : KeyPair (value mersenneN) 65537 (value mersenneD) where
  primes := by
    refine ⟨[mersenne 607, mersenne 127, mersenne 107, mersenne 89, mersenne 61, mersenne 31],
      by decide +kernel, ?_, by decide +kernel⟩
    simp only [List.forall_mem_cons]
    refine ⟨⟨?_, ?_⟩, ⟨?_, ?_⟩, ⟨?_, ?_⟩, ⟨?_, ?_⟩, ⟨?_, ?_⟩, ⟨?_, ?_⟩,
      fun p hp => absurd hp List.not_mem_nil⟩
    case refine_1 => exact lucas_lehmer_sufficiency _ (by norm_num) (by norm_num)
    case refine_3 => exact lucas_lehmer_sufficiency _ (by norm_num) (by norm_num)
    case refine_5 => exact lucas_lehmer_sufficiency _ (by norm_num) (by norm_num)
    case refine_7 => exact lucas_lehmer_sufficiency _ (by norm_num) (by norm_num)
    case refine_9 => exact lucas_lehmer_sufficiency _ (by norm_num) (by norm_num)
    case refine_11 => exact lucas_lehmer_sufficiency _ (by norm_num) (by norm_num)
    all_goals decide +kernel
  pos := by decide

theorem signingKey_mersenne : SigningKey mersenneN mersenneD :=
  ⟨rfl, rfl, by decide, by decide, keyPair_mersenne⟩

/-- Bytes that are no signature. -/
theorem verifySignature_iff_mersenne : verifySignature (List.replicate 20 1)
    (List.replicate 128 2) mersenneN = true ↔ ofLE (List.replicate 128 2) % value mersenneN =
      ofLE (publishSignature (List.replicate 20 1) mersenneD mersenneN) :=
  verifySignature_iff signingKey_mersenne List.length_replicate List.length_replicate

/-! ## A video -/

/-- What stands in memory that is not initialized. -/
structure Memory where
  heap : List UInt8
  stack : List UInt8

def checkSize : Nat := 65536

/-- The nine characters that `find_startcode` looks for. -/
def startcode : List UInt8 := ascii "my12doom".toList ++ [0x27]

/-- `find_startcode`: the place behind the start code, in what `fread` leaves in the buffer. -/
def findStartcode (mem : Memory) (file : List UInt8) : Option Nat :=
  let buf := writeAt mem.heap 0 (file.take checkSize)
  ((List.range' 0 (checkSize - 8)).find? fun i => window buf i 9 == startcode).map (· + 26)

/-- `sha1` behind `video_checksum`, which leaves it as it is where the file is empty. -/
def videoChecksum (mem : Memory) (file : List UInt8) : List UInt8 :=
  match hashInput file with
  | some data => SHA1Hash data
  | none => mem.stack.take 20

/-- `signature` behind `fread`. -/
def readSignature (mem : Memory) (file : List UInt8) (pos : Nat) : List UInt8 :=
  (writeAt mem.stack 0 (readAt file pos 128)).take 128

def verifyFile (n : List DWORD) (mem : Memory) (file : List UInt8) : Int :=
  match findStartcode mem file, hashInput file with
  | some pos, some data =>
    let signature := readSignature mem file pos
    if (List.range 32).all fun i => (words 32 signature).getD i 0 == 0 then 0
    else if verifySignature (SHA1Hash data) signature n then 2 else 1
  | _, _ => -1

/-- `fwrite` behind `fseek`. -/
def writeFile (file : List UInt8) (pos : Nat) (data : List UInt8) : List UInt8 :=
  writeAt (file ++ List.replicate (pos - file.length) 0) pos data

/-- `OnBnClickedButton2`; where there is no start code, the `fseek` to -1 fails. -/
def publish (n d : List DWORD) (mem : Memory) (file : List UInt8) : List UInt8 :=
  let sha1 := videoChecksum mem file
  let signature := publishSignature sha1 d n
  if verifySignature sha1 signature n then
    writeFile file ((findStartcode mem file).getD 0) signature
  else file

theorem length_SHA1Hash (data : List UInt8) : (SHA1Hash data).length = 20 := by
  rw [SHA1Hash, SHA1_STATETYPE.finish, digest, List.length_map, List.length_range]

theorem window_buffer {mem : Memory} {file : List UInt8} {i : Nat} (hi : i + 9 ≤ file.length)
    (hcheck : i + 9 ≤ checkSize) :
    window (writeAt mem.heap 0 (file.take checkSize)) i 9 = (file.take (i + 9)).drop i := by
  have hlen : i + 9 ≤ (file.take checkSize).length := by
    rw [List.length_take]
    omega
  have hbuf : (writeAt mem.heap 0 (file.take checkSize)).take (i + 9) = file.take (i + 9) := by
    rw [writeAt, List.take_zero, List.nil_append, List.take_append_of_le_length hlen,
      List.take_take, min_eq_left hcheck]
  rw [← hbuf, List.drop_take, Nat.add_sub_cancel_left, window]

/-- **The start code is found again** where the file is another only behind it. -/
theorem findStartcode_of_take {mem : Memory} {file other : List UInt8} {pos : Nat}
    (hpos : findStartcode mem file = some pos) (hlen : other.length = file.length)
    (hsame : other.take pos = file.take pos) (hend : pos ≤ file.length) (mem' : Memory) :
    findStartcode mem' other = some pos := by
  rw [findStartcode, Option.map_eq_some_iff] at hpos ⊢
  obtain ⟨i, hfind, rfl⟩ := hpos
  rw [List.find?_range'_eq_some] at hfind
  obtain ⟨hi, hmem, hbefore⟩ := hfind
  have hcheck : i < 0 + (checkSize - 8) := (List.mem_range'_1.mp hmem).2
  have hwindow : ∀ j ≤ i, window (writeAt mem'.heap 0 (other.take checkSize)) j 9 =
      window (writeAt mem.heap 0 (file.take checkSize)) j 9 := by
    intro j hj
    have hprefix : other.take (j + 9) = file.take (j + 9) := by
      have h := congrArg (List.take (j + 9)) hsame
      rwa [List.take_take, List.take_take, min_eq_left (by omega)] at h
    rw [window_buffer (by omega) (by omega), window_buffer (by omega) (by omega), hprefix]
  refine ⟨i, List.find?_range'_eq_some.mpr ⟨?_, hmem, fun j h0 hj => ?_⟩, rfl⟩
  · rwa [hwindow i (Nat.le_refl i)]
  · rw [hwindow j (Nat.le_of_lt hj)]
    exact hbefore j h0 hj

/-- **The checksum does not look at the head.** -/
theorem hashInput_of_drop {file other : List UInt8} (hlen : other.length = file.length)
    (hsame : other.drop 65536 = file.drop 65536) : hashInput other = hashInput file := by
  have hread : ∀ offset m : Nat, 65536 ≤ offset → readAt other offset m = readAt file offset m := by
    intro offset m hoffset
    have hsum : 65536 + (offset - 65536) = offset := Nat.add_sub_cancel' hoffset
    have hdrop := congrArg (List.drop (offset - 65536)) hsame
    rw [List.drop_drop, List.drop_drop, hsum] at hdrop
    rw [readAt, readAt, hdrop]
  rw [hashInput, hashInput, hlen, hsame]
  by_cases hsmall : file.length < minDataSize
  · rw [if_pos hsmall, if_pos hsmall]
  · have hdata : sampleData other = sampleData file := by
      rw [sampleData, sampleData, hlen]
      refine List.foldl_ext _ _ _ fun data s hs => ?_
      have hoffset : 65536 ≤ s.offset := by
        rw [samples, List.mem_cons, List.mem_map] at hs
        rcases hs with rfl | ⟨i, hi, rfl⟩
        · exact Nat.le_refl _
        · rw [List.mem_range'_1] at hi
          have hsize := minDataSize_eq
          have hblock : 65536 ≤ file.length / 40 := by omega
          exact hblock.trans (Nat.le_mul_of_pos_right _ hi.1)
      rw [readSample, readSample, hread _ _ hoffset]
    rw [if_neg hsmall, if_neg hsmall, hdata]

section

variable {n d : List DWORD} {mem : Memory} {file : List UInt8} {pos : Nat}

/-- The words of a signature are zero where its number is. -/
theorem all_zero_iff {signature : List UInt8} (h : signature.length = 128) :
    ((List.range 32).all fun i => (words 32 signature).getD i 0 == 0) = true ↔
      ofLE signature = 0 := by
  have hdefault : ∀ i, (List.replicate 32 (0 : DWORD)).getD i 0 = 0 := fun i => by
    rw [List.getD_eq_getElem?_getD, List.getElem?_getD_replicate_default_eq]
  have hzeros := all_range_eq (a := 0) (length_words 32 signature)
    (List.length_replicate (n := 32) (a := (0 : DWORD)))
  simp only [hdefault] at hzeros
  rw [hzeros, ← value_words (k := 32) h]
  constructor
  · intro he
    rw [he, value_replicate]
  · intro he
    exact eq_of_value_eq ((length_words _ _).trans List.length_replicate.symm)
      (he.trans (value_replicate 32).symm)

theorem length_videoChecksum (hfile : file.length ≠ 0) : (videoChecksum mem file).length = 20 := by
  rw [videoChecksum, hashInput, if_neg hfile]
  by_cases hsmall : file.length < minDataSize
  · rw [if_pos hsmall]
    exact length_SHA1Hash _
  · rw [if_neg hsmall]
    exact length_SHA1Hash _

/-- **What is written**: the file is another in the place of the signature only. -/
theorem publish_eq (h : SigningKey n d) (hpos : findStartcode mem file = some pos)
    (hlen : pos + 128 ≤ file.length) : publish n d mem file =
      writeAt file pos (publishSignature (videoChecksum mem file) d n) := by
  have hchecksum : (videoChecksum mem file).length = 20 := length_videoChecksum (by omega)
  have hgap : pos - file.length = 0 := by omega
  rw [publish, if_pos (verifySignature_publish h hchecksum), hpos, Option.getD_some, writeFile,
    hgap, List.replicate_zero, List.append_nil]

/-- The signature is zero where the checksum is. -/
theorem publishSignature_eq_zero (h : SigningKey n d) {checksum : List UInt8}
    (hchecksum : checksum.length = 20) :
    ofLE (publishSignature checksum d n) = 0 ↔ checksum = List.replicate 20 0 := by
  obtain ⟨-, hpow⟩ := rsaPrivate_eq h (length_padChecksum hchecksum)
  have hback := h.pair.symm.pow_mod_pow (ofLE_checksum_lt h hchecksum)
  have hzero := ofLE_inj (hchecksum.trans (List.length_replicate (n := 20) (a := (0 : UInt8))).symm)
  rw [ofLE_replicate_zero] at hzero
  rw [← hzero, publishSignature, hpow, ofLE_padChecksum]
  constructor
  · intro hroot
    rw [← hback, hroot, Nat.zero_pow (by decide), Nat.zero_mod]
  · intro hroot
    have hd := h.two_le
    rw [hroot, Nat.zero_pow (by omega), Nat.zero_mod]

/-- **A video that is signed is one that verifies**: the start code is found again, the checksum
is the one that was signed, and the signature is read back.  Only the signature of the checksum
zero looks like none. -/
theorem verifyFile_publish (h : SigningKey n d) (hpos : findStartcode mem file = some pos)
    (hhead : pos + 128 ≤ 65536) (hlen : pos + 128 ≤ file.length) (mem' : Memory) :
    findStartcode mem' (publish n d mem file) = some pos ∧
      hashInput (publish n d mem file) = hashInput file ∧
      readSignature mem' (publish n d mem file) pos =
        publishSignature (videoChecksum mem file) d n ∧
      verifyFile n mem' (publish n d mem file) =
        if videoChecksum mem file = List.replicate 20 0 then 0 else 2 := by
  have hchecksum : (videoChecksum mem file).length = 20 := length_videoChecksum (by omega)
  obtain ⟨hsize, -⟩ := rsaPrivate_eq h (length_padChecksum hchecksum)
  have haccepted := verifySignature_publish h hchecksum
  have hzero := publishSignature_eq_zero h hchecksum
  rw [publish_eq h hpos hlen]
  rw [← publishSignature] at hsize
  generalize publishSignature (videoChecksum mem file) d n = signature at hsize haccepted hzero ⊢
  have hlength : (writeAt file pos signature).length = file.length := length_writeAt (by omega)
  have hfound := findStartcode_of_take hpos hlength
    (take_writeAt (Nat.le_refl pos) (by omega) signature) (by omega) mem'
  have hdrop : (writeAt file pos signature).drop 65536 = file.drop 65536 :=
    drop_writeAt (by omega) (by omega)
  have hinput := hashInput_of_drop hlength hdrop
  have hback : readSignature mem' (writeAt file pos signature) pos = signature := by
    have htake : (file.take pos).length = pos := by
      rw [List.length_take]
      omega
    have hread : readAt (writeAt file pos signature) pos 128 = signature := by
      rw [readAt, writeAt, List.append_assoc, List.drop_left' htake, List.take_left' hsize]
    rw [readSignature, hread, writeAt, List.take_zero, List.nil_append, List.take_left' hsize]
  refine ⟨hfound, hinput, hback, ?_⟩
  obtain ⟨data, hdata⟩ : ∃ data, hashInput file = some data := by
    rw [hashInput, if_neg (by omega)]
    split <;> exact ⟨_, rfl⟩
  have hsha : videoChecksum mem file = SHA1Hash data := by rw [videoChecksum, hdata]
  rw [hsha] at haccepted hzero ⊢
  rw [verifyFile, hfound, hinput, hdata]
  dsimp only
  rw [hback]
  by_cases hzeros : SHA1Hash data = List.replicate 20 0
  · rw [if_pos ((all_zero_iff hsize).mpr (hzero.mpr hzeros)), if_pos hzeros]
  · rw [if_neg (fun hall => hzeros (hzero.mp ((all_zero_iff hsize).mp hall))),
      if_pos haccepted, if_neg hzeros]

end

def signable : List UInt8 := startcode ++ List.replicate 200 0

theorem verifyFile_publish_signable :
    let signed := publish mersenneN mersenneD ⟨[], []⟩ signable
    findStartcode ⟨[], []⟩ signed = some 26 ∧ hashInput signed = hashInput signable ∧
      readSignature ⟨[], []⟩ signed 26 =
        publishSignature (videoChecksum ⟨[], []⟩ signable) mersenneD mersenneN ∧
      verifyFile mersenneN ⟨[], []⟩ signed =
        if videoChecksum ⟨[], []⟩ signable = List.replicate 20 0 then 0 else 2 :=
  verifyFile_publish signingKey_mersenne
    (show findStartcode ⟨[], []⟩ signable = some 26 by decide) (by decide)
    (by decide +kernel) ⟨[], []⟩

/-! ## A license and an update -/

/-- `dwindow_license`. -/
structure License where
  id : List DWORD
  signature : List DWORD
deriving DecidableEq

def isValidLicense (n : List DWORD) (license : License) : Bool :=
  let m := rsa license.signature publicExponent n
  (List.range 32).all fun i => license.id.getD i 0 == m.getD i 0

/-- `decrypt_license`: the license, and whether it is valid. -/
def decryptLicense (n msg : List DWORD) : License × Bool :=
  let license := ⟨rsa msg publicExponent n, msg⟩
  (license, isValidLicense n license)

/-- **Every message is a license**: the number is computed from the signature, and is then
compared with what is computed from the signature. -/
theorem decryptLicense_valid (n msg : List DWORD) : (decryptLicense n msg).2 = true := by
  simp only [decryptLicense, isValidLicense, beq_self_eq_true, List.all_eq_true, implies_true]

/-- `verify_update_signature`, of the bytes of the package. -/
def verifyUpdateSignature (n : List DWORD) (package : List UInt8) : Bool :=
  verifySignature (SHA1Hash (package.drop 128)) (package.take 128) n

theorem verifyUpdateSignature_publish {n d : List DWORD} (h : SigningKey n d) (body : List UInt8) :
    verifyUpdateSignature n (publishSignature (SHA1Hash body) d n ++ body) = true := by
  have hsize : (publishSignature (SHA1Hash body) d n).length = 128 :=
    (rsaPrivate_eq h (length_padChecksum (length_SHA1Hash body))).1
  rw [verifyUpdateSignature, List.drop_left' hsize, List.take_left' hsize]
  exact verifySignature_publish h (length_SHA1Hash body)

/-- `veryfy_file_sha1`. -/
def verifyFileSha1 (file checksum : List UInt8) : Bool := sha1File file == checksum

theorem verifyFileSha1_iff {file checksum : List UInt8} :
    verifyFileSha1 file checksum = true ↔ checksum = sha1 file := by
  rw [verifyFileSha1, sha1File_eq, beq_iff_eq, eq_comm]

/-! ## A script -/

/-- `leading` of a `lua_signature`. -/
def luaLeading : List UInt8 := [0xef, 0xbb, 0xbf] ++ ascii "-- signature=\"".toList

/-- `ending` of a `lua_signature`. -/
def luaEnding : List UInt8 := ascii "\"\r\n".toList

/-- The comparisons of `leading` and `ending`. -/
def hasSignature (text : List UInt8) : Bool :=
  276 ≤ text.length && text.take 17 == luaLeading && window text 273 3 == luaEnding

/-- A `lua_signature` with its 256 digits. -/
def luaSignature (signature : List UInt8) : List UInt8 :=
  luaLeading ++ hexText signature ++ luaEnding

/-- The `main` of `lua_sign`: what stands in the file behind it, where an old signature is
replaced.  It is `none` where an array of a negative size is asked for. -/
def luaSign (n d : List DWORD) (file : List UInt8) : Option (List UInt8) :=
  let data :=
    if hasSignature file then some (file.drop 276)
    else if file.length < 3 then none
    else some (file.drop 3)
  data.map fun data => luaSignature (rsaPrivate d n (padChecksum (SHA1Hash data))) ++ data

/-- What `load_signed_string` and `execute_signed_luafile` check; `stack` is the array
`signature` before the digits are read. -/
def checkSigned (n : List DWORD) (stack text : List UInt8) : Except String Unit :=
  if hasSignature text then
    let sha1 := SHA1Hash (text.drop 276)
    let signature := rsaPublic n ((scanBytes 128 (text.drop 17) stack).take 128)
    if sha1 == signature.take 20 then .ok () else .error "invalid signature found"
  else .error "no signature found"

/-- `load_signed_string`: the text for `luaL_loadstring`. -/
def loadSignedString (n : List DWORD) (stack text : List UInt8) : Except String (List UInt8) :=
  (checkSigned n stack text).map fun _ => text.drop 3

/-- `execute_signed_luafile`: the file for `luaL_loadfile`. -/
def executeSignedLuafile (n : List DWORD) (stack : List UInt8) (file : Option (List UInt8)) :
    Except String (List UInt8) :=
  match file with
  | none => .error "open file failed"
  | some file => (checkSigned n stack file).map fun _ => file

section

variable {n d : List DWORD} {signature : List UInt8}

theorem length_luaSignature (h : signature.length = 128) :
    (luaSignature signature).length = 276 := by
  rw [luaSignature, List.length_append, List.length_append, length_hexText, h]
  rfl

/-- **The header is seen.** -/
theorem hasSignature_luaSignature (h : signature.length = 128) (body : List UInt8) :
    hasSignature (luaSignature signature ++ body) = true := by
  have hlen := length_luaSignature h
  have hleading : (luaSignature signature ++ body).take 17 = luaLeading := by
    rw [luaSignature, List.append_assoc, List.append_assoc]
    exact List.take_left' rfl
  have hending : window (luaSignature signature ++ body) 273 3 = luaEnding := by
    have hfront : (luaLeading ++ hexText signature).length = 273 := by
      rw [List.length_append, length_hexText, h]
      rfl
    rw [window, luaSignature, List.append_assoc _ luaEnding, List.drop_left' hfront]
    exact List.take_left' rfl
  have hall : 276 ≤ (luaSignature signature ++ body).length := by
    rw [List.length_append]
    omega
  rw [hasSignature, hleading, hending, decide_eq_true hall]
  rfl

theorem scanBytes_luaSignature (h : signature.length = 128) {stack : List UInt8}
    (hstack : stack.length = 136) (body : List UInt8) :
    (scanBytes 128 ((luaSignature signature ++ body).drop 17) stack).take 128 = signature := by
  have hdrop : (luaSignature signature ++ body).drop 17 =
      hexText signature ++ (luaEnding ++ body) := by
    rw [luaSignature, List.append_assoc, List.append_assoc]
    exact List.drop_left' rfl
  have hroom : signature.length + 3 ≤ stack.length := by omega
  have hread := (scanBytes_hexText (luaEnding ++ body) h.ge hroom).2
  rw [hdrop, hread, List.take_of_length_le h.le]

/-- **What is accepted behind a signature** is what has the checksum that was signed. -/
theorem checkSigned_append (h : SigningKey n d) {stack : List UInt8} (hstack : stack.length = 136)
    (data body : List UInt8) :
    checkSigned n stack
        (luaSignature (rsaPrivate d n (padChecksum (SHA1Hash data))) ++ body) =
      if SHA1Hash body = SHA1Hash data then .ok () else .error "invalid signature found" := by
  have hchecksum := length_padChecksum (length_SHA1Hash data)
  have hlt : ofLE (padChecksum (SHA1Hash data)) < value n := by
    rw [ofLE_padChecksum]
    exact ofLE_checksum_lt h (length_SHA1Hash data)
  have hsize := (rsaPrivate_eq h hchecksum).1
  rw [checkSigned, hasSignature_luaSignature hsize body, if_pos rfl,
    List.drop_left' (length_luaSignature hsize), scanBytes_luaSignature hsize hstack body,
    rsaPublic_rsaPrivate h hchecksum hlt, padChecksum]
  dsimp only
  rw [List.take_left' (length_SHA1Hash data)]
  simp only [beq_iff_eq]

theorem executeSignedLuafile_luaSign (h : SigningKey n d) {stack file signed : List UInt8}
    (hstack : stack.length = 136) (hsigned : luaSign n d file = some signed) :
    executeSignedLuafile n stack (some signed) = .ok signed := by
  obtain ⟨data, -, rfl⟩ := Option.map_eq_some_iff.mp hsigned
  rw [executeSignedLuafile, checkSigned_append h hstack, if_pos rfl]
  rfl

/-- **A script that is signed**: signing it again leaves it as it is, it is loaded, and with any
other text behind the signature it is loaded only if the text has the same checksum. -/
theorem checkSigned_luaSign (h : SigningKey n d) {stack file signed : List UInt8}
    (hstack : stack.length = 136) (hsigned : luaSign n d file = some signed) :
    luaSign n d signed = some signed ∧ loadSignedString n stack signed = .ok (signed.drop 3) ∧
      ∀ body, checkSigned n stack (signed.take 276 ++ body) =
        if SHA1Hash body = SHA1Hash (signed.drop 276) then .ok ()
        else .error "invalid signature found" := by
  obtain ⟨data, -, rfl⟩ := Option.map_eq_some_iff.mp hsigned
  have hsize := (rsaPrivate_eq h (length_padChecksum (length_SHA1Hash data))).1
  have hlen := length_luaSignature hsize
  rw [List.take_left' hlen, List.drop_left' hlen]
  refine ⟨?_, ?_, checkSigned_append h hstack data⟩
  · rw [luaSign, hasSignature_luaSignature hsize data, if_pos rfl, List.drop_left' hlen,
      Option.map_some]
  · rw [loadSignedString, checkSigned_append h hstack, if_pos rfl]
    rfl

end

/-- A script of a line, behind the mark of UTF-8. -/
theorem checkSigned_luaSign_return :
    checkSigned mersenneN (List.replicate 136 0)
        ((luaSignature (rsaPrivate mersenneD mersenneN (padChecksum (SHA1Hash [114]))) ++
          [114]).take 276 ++ [115]) =
      if SHA1Hash [115] = SHA1Hash
          ((luaSignature (rsaPrivate mersenneD mersenneN (padChecksum (SHA1Hash [114]))) ++
            [114]).drop 276) then .ok ()
      else .error "invalid signature found" :=
  (checkSigned_luaSign signingKey_mersenne List.length_replicate
    (show luaSign mersenneN mersenneD [0xef, 0xbb, 0xbf, 114] = some _ from rfl)).2.2 [115]

end DWindow.Checksum
