import DWindow.Checksum.Signature
import DWindow.E3D.Rijndael
import DWindow.Lib.Fallible
import DWindow.License.Mytime

/-!
# Activation

The client of `login.cpp` sends a name, the hash of a password, a time and a random key: 128
bytes, raised to a public power and written as digits.  The server of `phpcrypt` undoes that
(`decodeClientRequest_request`) and answers with 128 bytes of its own, raised to a private power
and encrypted under the random key.  The player keeps what it decrypts, and raises it to a public
power wherever it checks its time and its edition.

So what the server issues is what the player finds: `activation`, and by its editions
`checkPasskey_activation`.  The keys and the cipher are those of `Checksum.Signature` and
`E3D.Rijndael`.
-/

namespace DWindow.License

open Blocks Buffer Checksum CString E3D LittleEndian Scanf Words

/-! ## The messages -/

/-- `dwindow_message_uncrypt`. -/
structure ClientMessage where
  passkey : List UInt8
  requestedHash : List UInt8
  randomAESKey : List UInt8
  passwordUncrypted : List UInt8
  clientTime : Int
  clientRev : Nat
  reserved : List UInt8
  zero : UInt8

namespace ClientMessage

/-- The fields have their sizes, and the last byte is zero. -/
structure Fits (m : ClientMessage) : Prop where
  passkey : m.passkey.length = 32
  requestedHash : m.requestedHash.length = 20
  randomAESKey : m.randomAESKey.length = 32
  passwordUncrypted : m.passwordUncrypted.length = 20
  clientTime : -2 ^ 63 ≤ m.clientTime ∧ m.clientTime < 2 ^ 63
  clientRev : m.clientRev < 2 ^ 16
  reserved : m.reserved.length = 13
  zero : m.zero = 0

/-- The 128 bytes. -/
def bytes (m : ClientMessage) : List UInt8 :=
  [m.passkey, m.requestedHash, m.randomAESKey, m.passwordUncrypted, timeBytes m.clientTime,
    toLE 2 m.clientRev, m.reserved, [m.zero]].flatten

def read (bs : List UInt8) : ClientMessage where
  passkey := window bs 0 32
  requestedHash := window bs 32 20
  randomAESKey := window bs 52 32
  passwordUncrypted := window bs 84 20
  clientTime := readTime (window bs 104 8)
  clientRev := ofLE (window bs 112 2)
  reserved := window bs 114 13
  zero := (window bs 127 1).headD 0

end ClientMessage

/-- `dwindow_passkey_big`, of which 128 bytes are encrypted; its own `zero` stands behind them. -/
structure PasskeyBig where
  passkey : List UInt8
  passkey2 : List UInt8
  psAesKey : List UInt8
  timeStart : Int
  timeEnd : Int
  maxBarUser : Nat
  usertype : UInt8
  padding : UInt8
  userRights : Nat
  reserved : List UInt8

namespace PasskeyBig

/-- The fields have their sizes, and the last bytes are zero. -/
structure Fits (m : PasskeyBig) : Prop where
  passkey : m.passkey.length = 32
  passkey2 : m.passkey2.length = 32
  psAesKey : m.psAesKey.length = 32
  timeStart : -2 ^ 63 ≤ m.timeStart ∧ m.timeStart < 2 ^ 63
  timeEnd : -2 ^ 63 ≤ m.timeEnd ∧ m.timeEnd < 2 ^ 63
  maxBarUser : m.maxBarUser < 2 ^ 16
  userRights : m.userRights < 2 ^ 32
  reserved : m.reserved = List.replicate 8 0

/-- The 128 bytes. -/
def bytes (m : PasskeyBig) : List UInt8 :=
  [m.passkey, m.passkey2, m.psAesKey, timeBytes m.timeStart, timeBytes m.timeEnd,
    toLE 2 m.maxBarUser, [m.usertype], [m.padding], toLE 4 m.userRights, m.reserved].flatten

def read (bs : List UInt8) : PasskeyBig where
  passkey := window bs 0 32
  passkey2 := window bs 32 32
  psAesKey := window bs 64 32
  timeStart := readTime (window bs 96 8)
  timeEnd := readTime (window bs 104 8)
  maxBarUser := ofLE (window bs 112 2)
  usertype := (window bs 114 1).headD 0
  padding := (window bs 115 1).headD 0
  userRights := ofLE (window bs 116 4)
  reserved := window bs 120 8

end PasskeyBig

/-! ## The client -/

/-- What is read at a login: the arrays of the dialog, of which `password` ends at its zero, the
clock, `rand`, and `my12doom_rev`. -/
structure LoginForm where
  username : List UInt8
  password : List UInt8
  time : Int
  rand : Nat → UInt8
  rev : Nat
  length_username : username.length = 512
  time_lo : -2 ^ 63 ≤ time
  time_hi : time < 2 ^ 63
  rev_lt : rev < 2 ^ 16

/-- The message of `register_download_thread`. -/
def LoginForm.message (form : LoginForm) : ClientMessage where
  passkey := form.username.take 32
  requestedHash := SHA1Hash form.password
  randomAESKey := (List.range 32).map form.rand
  passwordUncrypted := padTo 20 (form.password.take 19)
  clientTime := form.time
  clientRev := form.rev
  reserved := List.replicate 13 0
  zero := 0

def LoginForm.request (netN : List DWORD) (form : LoginForm) : List UInt8 :=
  hexText (rsaPublic netN form.message.bytes)

/-! ## The server -/

def tableStr2num (c : UInt8) : Int :=
  if 48 ≤ c.toNat ∧ c.toNat ≤ 57 then c.toNat - 48
  else if 65 ≤ c.toNat ∧ c.toNat ≤ 70 then c.toNat - 55
  else -1

/-- `bstr2binary`; `none` is `E_FAIL`. -/
def bstr2binary (str : List UInt8) (outsize : Nat) : Option (List UInt8) :=
  if str.length ≠ outsize * 2 then none
  else (List.range outsize).mapM fun i =>
    let high := tableStr2num (str.getD (i * 2) 0)
    let low := tableStr2num (str.getD (i * 2 + 1) 0)
    if high < 0 ∨ low < 0 then none else some (UInt8.ofNat (16 * high + low).toNat)

def decodeClientRequest (netD netN : List DWORD) (input : List UInt8) : Option ClientMessage :=
  (bstr2binary input 128).map fun data => .read (rsaPrivate netD netN data)

/-- `trial_m1` and `trial_m2`, the passkeys of a trial. -/
def trialM1 : List UInt8 := List.replicate 32 0xff
def trialM2 : List UInt8 := List.replicate 32 0

/-- What the server knows and decides: whether `free.php` or `gen_key.php` answers, the key of the
shaders, the passkey that is drawn, the times, the rights, and what stands in memory. -/
structure Issue where
  trial : Bool
  psAesKey : List UInt8
  passkey : List UInt8
  timeStart : Int
  timeEnd : Int
  maxBarUser : Int
  usertype : Int
  padding : UInt8
  heap : List UInt8
  length_psAesKey : psAesKey.length = 32
  length_passkey : passkey.length = 32
  timeStart_lo : -2 ^ 31 ≤ timeStart
  timeStart_hi : timeStart < 2 ^ 31
  timeEnd_lo : -2 ^ 31 ≤ timeEnd
  timeEnd_hi : timeEnd < 2 ^ 31

/-- What `generate_passkey_big` puts together. -/
def Issue.big (issue : Issue) (pk : List UInt8) (trial : Bool) : PasskeyBig where
  passkey := if trial then trialM1 else pk
  passkey2 := if trial then trialM2 else pk
  psAesKey := issue.psAesKey
  timeStart := issue.timeStart
  timeEnd := issue.timeEnd
  maxBarUser := if trial then 0 else (issue.maxBarUser % 2 ^ 16).toNat
  usertype := if trial then 0 else UInt8.ofNat (issue.usertype % 2 ^ 8).toNat
  padding := issue.padding
  userRights := 0
  reserved := List.replicate 8 0

/-- `genkey4` for a passkey of digits. -/
def Issue.genkey4 (issue : Issue) (d n : List DWORD) (passkey : List UInt8) : List UInt8 :=
  match bstr2binary passkey 32 with
  | some pk => hexText (rsaPrivate d n (issue.big pk false).bytes)
  | none => []

/-- `gen_freekey`, where `pk` is what stands in memory. -/
def Issue.genFreekey (issue : Issue) (d n : List DWORD) (pk : List UInt8) : List UInt8 :=
  hexText (rsaPrivate d n (issue.big pk true).bytes)

def Issue.code (issue : Issue) (d n : List DWORD) : List UInt8 :=
  if issue.trial then issue.genFreekey d n issue.heap
  else issue.genkey4 d n (hexText issue.passkey)

/-- `Ccrypt::AES`; behind the data the last block is what stands in memory. -/
def cryptAES (aes : AESCryptor) (heap data key : List UInt8) : List UInt8 :=
  let size := data.length / 2
  let blockCount := size / 16 + if size % 16 = 0 then 0 else 1
  match bstr2binary data size, bstr2binary key 32 with
  | some binData, some binKey =>
    hexText (mapBlocks 16 (aes.encrypt binKey) blockCount
      ((writeAt heap 0 binData).take (blockCount * 16)))
  | _, _ => []

/-- The answer to a request, where the server issues: `return_key` is the third part of what
`decode_message` makes of it. -/
def Issue.answer (issue : Issue) (aes : AESCryptor) (netD netN d n : List DWORD)
    (request : List UInt8) : List UInt8 :=
  match decodeClientRequest netD netN request with
  | some m => cryptAES aes issue.heap (issue.code d n) (hexText m.randomAESKey)
  | none => ascii "ERROR:INVALID ARGUMENT".toList

/-! ## The answer -/

/-- `g_passkey_big` behind a login; `none` where the activation failed. -/
def LoginForm.receive (form : LoginForm) (aes : AESCryptor) (stack downloaded : List UInt8) :
    Option (List UInt8) :=
  if downloaded.length = 256 then
    let newKey := (scanBytes 128 downloaded stack).take 128
    some (mapBlocks 16 (aes.decrypt form.message.randomAESKey) 8 newKey)
  else none

/-! ## The checks -/

/-- The two values of `mytime` that are compared, with `time_start` and with `time_end`. -/
structure Readings where
  first : Int
  second : Int

/-- What the checks of `global_funcs.h` have in common: whether the passkeys belong together, the
time, and the answer.  It is `none`, or the answer with the `g_passkey` that is set. -/
def checkBig (together answer : PasskeyBig → Bool) (n : List DWORD) (big : List UInt8)
    (r : Readings) : Option (Bool × List UInt8) :=
  let m1 := PasskeyBig.read (rsaPublic n big)
  if !together m1 then none
  else if m1.timeStart > r.first ∨ r.second > m1.timeEnd then none
  else some (answer m1, m1.passkey)

/-- `is_actived`: the passkeys are compared where neither is that of a trial. -/
def actived (m : PasskeyBig) : Bool :=
  !(m.passkey != trialM1 && m.passkey2 != trialM2) || m.passkey == m.passkey2

def isActived : List DWORD → List UInt8 → Readings → Option (Bool × List UInt8) :=
  checkBig actived fun _ => true

/-- `is_payed_version`. -/
def payed (m : PasskeyBig) : Bool :=
  !(m.passkey == trialM1 && m.passkey2 == trialM2) && m.passkey == m.passkey2

def isPayedVersion : List DWORD → List UInt8 → Readings → Option (Bool × List UInt8) :=
  checkBig payed fun _ => true

/-- `is_pro_version`, for `USERTYPE_NORMAL` and `USERTYPE_VSTAR`. -/
def isProVersion : List DWORD → List UInt8 → Readings → Option (Bool × List UInt8) :=
  checkBig payed fun m => m.usertype == 0 || m.usertype == 204

/-- `is_theeater_version`, for `USERTYPE_THEATER`. -/
def theeater (m : PasskeyBig) : Bool :=
  !(m.passkey == trialM1 || m.passkey2 == trialM2) && m.passkey == m.passkey2

def isTheeaterVersion : List DWORD → List UInt8 → Readings → Option (Bool × List UInt8) :=
  checkBig theeater fun m => m.usertype == 1

/-- `is_bar_version`, for `USERTYPE_BAR`: the passkeys have to be those of a trial and the same. -/
def bar (m : PasskeyBig) : Bool :=
  !(m.passkey != trialM1 || m.passkey2 != trialM2) && m.passkey == m.passkey2

def isBarVersion : List DWORD → List UInt8 → Readings → Option (Bool × List UInt8) :=
  checkBig bar fun m => m.usertype == 3

def answers (result : Option (Bool × List UInt8)) : Bool := result.any fun r => r.1

/-- `nologin`, `dwindow_free`, `dwindow_jz` and `dwindow_pro` of a build. -/
structure Edition where
  nologin : Bool
  free : Bool
  jz : Bool
  pro : Bool

/-- `check_passkey`, where the check number `i` reads the clock as `rs i`. -/
def checkPasskey (edition : Edition) (n : List DWORD) (big : List UInt8) (rs : Nat → Readings) :
    Bool :=
  if !answers (isActived n big (rs 0)) then false
  else if answers (isBarVersion n big (rs 1)) then true
  else if answers (isTheeaterVersion n big (rs 2)) then true
  else if edition.nologin then true
  else if edition.free then true
  else if edition.jz && answers (isPayedVersion n big (rs 3)) then true
  else if edition.pro && answers (isProVersion n big (rs 4)) then true
  else false

/-! ## What is written is read -/

theorem length_timeBytes (t : Int) : (timeBytes t).length = 8 := length_toLE 8 _

theorem readTime_bytes {t : Int} (h : -2 ^ 63 ≤ t ∧ t < 2 ^ 63) : readTime (timeBytes t) = t := by
  have hread := readTime_timeBytes h.1 h.2 []
  rwa [List.append_nil] at hread

/-- **The server reads the message that the client wrote.** -/
theorem ClientMessage.read_bytes {m : ClientMessage} (h : m.Fits) : read m.bytes = m := by
  have hlengths : [m.passkey, m.requestedHash, m.randomAESKey, m.passwordUncrypted,
      timeBytes m.clientTime, toLE 2 m.clientRev, m.reserved, [m.zero]].map List.length =
      [32, 20, 32, 20, 8, 2, 13, 1] := by
    simp [h.passkey, h.requestedHash, h.randomAESKey, h.passwordUncrypted, h.reserved,
      length_timeBytes]
  have hfield := window_field hlengths
  have hpasskey : window m.bytes 0 32 = m.passkey := hfield 0
  have hhash : window m.bytes 32 20 = m.requestedHash := hfield 1
  have hkey : window m.bytes 52 32 = m.randomAESKey := hfield 2
  have hpassword : window m.bytes 84 20 = m.passwordUncrypted := hfield 3
  have htime : window m.bytes 104 8 = timeBytes m.clientTime := hfield 4
  have hrev : window m.bytes 112 2 = toLE 2 m.clientRev := hfield 5
  have hreserved : window m.bytes 114 13 = m.reserved := hfield 6
  have hzero : window m.bytes 127 1 = [m.zero] := hfield 7
  rw [read, hpasskey, hhash, hkey, hpassword, htime, hrev, hreserved, hzero,
    readTime_bytes h.clientTime, ofLE_toLE_of_lt h.clientRev]
  rfl

/-- **The player reads what the server put together.** -/
theorem PasskeyBig.read_bytes {m : PasskeyBig} (h : m.Fits) : read m.bytes = m := by
  have hlengths : [m.passkey, m.passkey2, m.psAesKey, timeBytes m.timeStart, timeBytes m.timeEnd,
      toLE 2 m.maxBarUser, [m.usertype], [m.padding], toLE 4 m.userRights,
      m.reserved].map List.length = [32, 32, 32, 8, 8, 2, 1, 1, 4, 8] := by
    simp [h.passkey, h.passkey2, h.psAesKey, h.reserved, length_timeBytes]
  have hfield := window_field hlengths
  have hpasskey : window m.bytes 0 32 = m.passkey := hfield 0
  have hpasskey2 : window m.bytes 32 32 = m.passkey2 := hfield 1
  have hkey : window m.bytes 64 32 = m.psAesKey := hfield 2
  have hstart : window m.bytes 96 8 = timeBytes m.timeStart := hfield 3
  have hend : window m.bytes 104 8 = timeBytes m.timeEnd := hfield 4
  have hbar : window m.bytes 112 2 = toLE 2 m.maxBarUser := hfield 5
  have htype : window m.bytes 114 1 = [m.usertype] := hfield 6
  have hpadding : window m.bytes 115 1 = [m.padding] := hfield 7
  have hrights : window m.bytes 116 4 = toLE 4 m.userRights := hfield 8
  have hreserved : window m.bytes 120 8 = m.reserved := hfield 9
  rw [read, hpasskey, hpasskey2, hkey, hstart, hend, hbar, htype, hpadding, hrights, hreserved,
    readTime_bytes h.timeStart, readTime_bytes h.timeEnd, ofLE_toLE_of_lt h.maxBarUser,
    ofLE_toLE_of_lt h.userRights]
  rfl

theorem ClientMessage.length_bytes {m : ClientMessage} (h : m.Fits) : m.bytes.length = 128 := by
  simp [bytes, h.passkey, h.requestedHash, h.randomAESKey, h.passwordUncrypted, h.reserved,
    length_timeBytes]

theorem PasskeyBig.length_bytes {m : PasskeyBig} (h : m.Fits) : m.bytes.length = 128 := by
  simp [bytes, h.passkey, h.passkey2, h.psAesKey, h.reserved, length_timeBytes]

theorem ofLE_lt_of_zeros {bs : List UInt8} {k : Nat} (h : bs.length + k = 128) (hk : 1 ≤ k) :
    ofLE (bs ++ List.replicate k 0) < 2 ^ 1016 := by
  have hpow : (2 : Nat) ^ 1016 = 256 ^ 127 := by rw [show (256 : Nat) = 2 ^ 8 from rfl, ← pow_mul]
  rw [ofLE_append, ofLE_replicate_zero, Nat.mul_zero, Nat.add_zero, hpow]
  exact lt_of_lt_of_le (ofLE_lt bs) (Nat.pow_le_pow_right (by decide) (by omega))

/-- **The last byte keeps the message** below the modulus. -/
theorem ClientMessage.ofLE_bytes_lt {m : ClientMessage} (h : m.Fits) :
    ofLE m.bytes < 2 ^ 1016 := by
  have hlen := length_bytes h
  have hsplit : m.bytes = [m.passkey, m.requestedHash, m.randomAESKey, m.passwordUncrypted,
      timeBytes m.clientTime, toLE 2 m.clientRev, m.reserved].flatten ++ List.replicate 1 0 := by
    rw [bytes, h.zero]
    simp
  rw [hsplit] at hlen ⊢
  rw [List.length_append, List.length_replicate] at hlen
  exact ofLE_lt_of_zeros hlen (Nat.le_refl 1)

/-- The bytes that are reserved keep the answer below the modulus. -/
theorem PasskeyBig.ofLE_bytes_lt {m : PasskeyBig} (h : m.Fits) : ofLE m.bytes < 2 ^ 1016 := by
  have hlen := length_bytes h
  have hsplit : m.bytes = [m.passkey, m.passkey2, m.psAesKey, timeBytes m.timeStart,
      timeBytes m.timeEnd, toLE 2 m.maxBarUser, [m.usertype], [m.padding],
      toLE 4 m.userRights].flatten ++ List.replicate 8 0 := by
    rw [bytes, h.reserved]
    simp
  rw [hsplit] at hlen ⊢
  rw [List.length_append, List.length_replicate] at hlen
  exact ofLE_lt_of_zeros hlen (by decide)

theorem tableStr2num_hexDigit : ∀ d < 16, tableStr2num (hexDigit d) = d := by decide

/-- **`bstr2binary` undoes `binary2bstr`.** -/
theorem bstr2binary_hexText (bs : List UInt8) :
    bstr2binary (hexText bs) bs.length = some bs := by
  have hlen : ¬ (hexText bs).length ≠ bs.length * 2 := by
    rw [length_hexText, Nat.mul_comm]
    exact fun h => h rfl
  have hbytes : (List.range bs.length).map (fun i => bs.getD i 0) = bs := by
    refine List.ext_getElem (by simp) fun i hi hi' => ?_
    rw [List.getElem_map, List.getElem_range, List.getD_eq_getElem _ _ hi']
  rw [bstr2binary, if_neg hlen]
  refine (Fallible.mapM_eq_some_map (g := fun i => bs.getD i 0) fun i hi => ?_).trans
    (congrArg some hbytes)
  rw [List.mem_range] at hi
  have hb : bs[i].toNat < 256 := bs[i].toNat_lt
  have hdrop : (hexText bs).drop (2 * i) = hexDigit (bs[i].toNat / 16) ::
      hexDigit (bs[i].toNat % 16) :: hexText (bs.drop (i + 1)) := by
    rw [drop_hexText, List.drop_eq_getElem_cons hi]
    rfl
  have hhigh : (hexText bs).getD (i * 2) 0 = hexDigit (bs[i].toNat / 16) := by
    have h : ((hexText bs).drop (2 * i))[0]? = (hexText bs)[2 * i + 0]? := List.getElem?_drop
    rw [hdrop] at h
    rw [List.getD_eq_getElem?_getD, Nat.mul_comm i 2, ← Nat.add_zero (2 * i), ← h]
    rfl
  have hlow : (hexText bs).getD (i * 2 + 1) 0 = hexDigit (bs[i].toNat % 16) := by
    have h : ((hexText bs).drop (2 * i))[1]? = (hexText bs)[2 * i + 1]? := List.getElem?_drop
    rw [hdrop] at h
    rw [List.getD_eq_getElem?_getD, Nat.mul_comm i 2, ← h]
    rfl
  have hvalue : 16 * ((bs[i].toNat / 16 : Nat) : Int) + ((bs[i].toNat % 16 : Nat) : Int) =
      bs[i].toNat := by
    omega
  rw [hhigh, hlow, tableStr2num_hexDigit _ (by omega), tableStr2num_hexDigit _ (by omega)]
  dsimp only
  rw [if_neg (by omega), hvalue, Int.toNat_natCast, UInt8.ofNat_toNat,
    List.getD_eq_getElem _ _ hi]

/-! ## The request -/

theorem LoginForm.fits (form : LoginForm) : form.message.Fits where
  passkey := by
    rw [LoginForm.message, List.length_take, form.length_username]
    rfl
  requestedHash := length_SHA1Hash _
  randomAESKey := by rw [LoginForm.message, List.length_map, List.length_range]
  passwordUncrypted := by
    rw [LoginForm.message, padTo, List.length_append, List.length_replicate, List.length_take]
    omega
  clientTime := ⟨form.time_lo, form.time_hi⟩
  clientRev := form.rev_lt
  reserved := List.length_replicate
  zero := rfl

section

variable {netN netD n d : List DWORD}

/-- **The server reads what the client filled in**, whatever that is. -/
theorem decode_request (hnet : SigningKey netN netD) (hlarge : 2 ^ 1016 ≤ value netN)
    (form : LoginForm) : decodeClientRequest netD netN (form.request netN) = some form.message := by
  have hlen := ClientMessage.length_bytes form.fits
  have hlt := lt_of_lt_of_le (ClientMessage.ofLE_bytes_lt form.fits) hlarge
  have hsize := (rsaPublic_eq hnet.length_n hnet.pair.modulus_pos hlen).1
  have hdigits := bstr2binary_hexText (rsaPublic netN form.message.bytes)
  rw [hsize] at hdigits
  rw [decodeClientRequest, LoginForm.request, hdigits, Option.map_some,
    rsaPrivate_rsaPublic hnet hlen hlt, ClientMessage.read_bytes form.fits]

/-! ## The activation code -/

def Issue.issued (issue : Issue) : PasskeyBig := issue.big issue.passkey issue.trial

theorem Issue.issued_trial {issue : Issue} (h : issue.trial = true) :
    issue.issued.passkey = trialM1 ∧ issue.issued.passkey2 = trialM2 := by
  rw [Issue.issued, Issue.big, h]
  exact ⟨rfl, rfl⟩

theorem Issue.issued_user {issue : Issue} (h : issue.trial = false) :
    issue.issued.passkey = issue.passkey ∧ issue.issued.passkey2 = issue.passkey := by
  rw [Issue.issued, Issue.big, h]
  exact ⟨rfl, rfl⟩

theorem Issue.fits (issue : Issue) : issue.issued.Fits where
  passkey := by
    rw [Issue.issued, Issue.big]
    split
    · exact List.length_replicate
    · exact issue.length_passkey
  passkey2 := by
    rw [Issue.issued, Issue.big]
    split
    · exact List.length_replicate
    · exact issue.length_passkey
  psAesKey := issue.length_psAesKey
  timeStart := by
    have hlo := issue.timeStart_lo
    have hhi := issue.timeStart_hi
    dsimp only [Issue.issued, Issue.big]
    omega
  timeEnd := by
    have hlo := issue.timeEnd_lo
    have hhi := issue.timeEnd_hi
    dsimp only [Issue.issued, Issue.big]
    omega
  maxBarUser := by
    dsimp only [Issue.issued, Issue.big]
    split <;> omega
  userRights := Nat.two_pow_pos 32
  reserved := rfl

theorem Issue.code_eq (issue : Issue) :
    issue.code d n = hexText (rsaPrivate d n issue.issued.bytes) := by
  have hdigits := bstr2binary_hexText issue.passkey
  rw [issue.length_passkey] at hdigits
  rw [Issue.code, Issue.issued]
  cases issue.trial with
  | true => rfl
  | false =>
    rw [if_neg Bool.false_ne_true, Issue.genkey4, hdigits]

theorem cryptAES_eq (aes : AESCryptor) (heap : List UInt8) {data key : List UInt8}
    (hdata : data.length = 128) (hkey : key.length = 32) :
    cryptAES aes heap (hexText data) (hexText key) =
      hexText (mapBlocks 16 (aes.encrypt key) 8 data) := by
  have hbin := bstr2binary_hexText data
  have hbinKey := bstr2binary_hexText key
  rw [hdata] at hbin
  rw [hkey] at hbinKey
  have hsize : (hexText data).length / 2 = 128 := by
    rw [length_hexText, hdata]
  have hheap : (writeAt heap 0 data).take (8 * 16) = data := by
    rw [writeAt, List.take_zero, List.nil_append, List.take_left' hdata]
  rw [cryptAES, hsize, hbin, hbinKey,
    show 128 / 16 + (if 128 % 16 = 0 then 0 else 1) = 8 from rfl]
  dsimp only
  rw [hheap]

/-- **The code arrives**: what the client keeps is what the server raised to its private power. -/
theorem receive_answer (hnet : SigningKey netN netD) (hnetLarge : 2 ^ 1016 ≤ value netN)
    (h : SigningKey n d) (issue : Issue) (form : LoginForm) {aes : AESCryptor}
    (haes : ∀ key, aes.Inverts key) {stack : List UInt8} (hstack : stack.length = 256) :
    form.receive aes stack (issue.answer aes netD netN d n (form.request netN)) =
      some (rsaPrivate d n issue.issued.bytes) := by
  have hfits := form.fits
  have hlen := PasskeyBig.length_bytes issue.fits
  have hsize := (rsaPrivate_eq h hlen).1
  rw [Issue.answer, decode_request hnet hnetLarge form]
  dsimp only
  rw [issue.code_eq, cryptAES_eq aes issue.heap hsize hfits.randomAESKey]
  generalize rsaPrivate d n issue.issued.bytes = big at hsize ⊢
  have hblocks : (mapBlocks 16 (aes.encrypt form.message.randomAESKey) 8 big).length = 128 := by
    rw [length_mapBlocks (aes.encrypt_length _) 8 big hsize.ge, hsize]
  have hroom : (mapBlocks 16 (aes.encrypt form.message.randomAESKey) 8 big).length + 3 ≤
      stack.length := by
    omega
  have hdigits := (scanBytes_hexText [] hblocks.ge hroom).2
  rw [List.append_nil, List.take_of_length_le hblocks.le] at hdigits
  rw [LoginForm.receive, if_pos (by rw [length_hexText, hblocks]), hdigits]
  dsimp only
  rw [mapBlocks_inverse (aes.encrypt_length _) (haes _) 8 big hsize.ge]

/-! ## What the player finds -/

theorem checkBig_issued (h : SigningKey n d) (hlarge : 2 ^ 1016 ≤ value n) (issue : Issue)
    (together answer : PasskeyBig → Bool) (r : Readings) :
    checkBig together answer n (rsaPrivate d n issue.issued.bytes) r =
      if together issue.issued = true ∧ issue.timeStart ≤ r.first ∧ r.second ≤ issue.timeEnd then
        some (answer issue.issued, issue.issued.passkey)
      else none := by
  have hfits := issue.fits
  have hlt := lt_of_lt_of_le (PasskeyBig.ofLE_bytes_lt hfits) hlarge
  have hstart : issue.issued.timeStart = issue.timeStart := rfl
  have hend : issue.issued.timeEnd = issue.timeEnd := rfl
  rw [checkBig, rsaPublic_rsaPrivate h (PasskeyBig.length_bytes hfits) hlt,
    PasskeyBig.read_bytes hfits, hstart, hend]
  by_cases htogether : together issue.issued = true
  · simp only [htogether, Bool.not_true, Bool.false_eq_true, if_false, true_and]
    by_cases htime : issue.timeStart ≤ r.first ∧ r.second ≤ issue.timeEnd
    · rw [if_pos htime, if_neg (by omega)]
    · rw [if_neg htime, if_pos (by omega)]
  · simp only [htogether, Bool.not_false, Bool.false_eq_true, if_true, false_and, if_false]

theorem actived_issued (issue : Issue) : actived issue.issued = true := by
  rw [actived, Issue.issued, Issue.big]
  cases issue.trial <;> simp

/-- **An activation**: the server reads what the client filled in; the client keeps a code that
is active exactly between the server's times, with the server's passkey and shader key. -/
theorem activation (hnet : SigningKey netN netD) (hnetLarge : 2 ^ 1016 ≤ value netN)
    (h : SigningKey n d) (hlarge : 2 ^ 1016 ≤ value n) (issue : Issue) (form : LoginForm)
    (c : Rijndael.AESCryptor) {stack : List UInt8} (hstack : stack.length = 256) :
    decodeClientRequest netD netN (form.request netN) = some form.message ∧
      ∃ big, form.receive (Rijndael.aes c) stack
          (issue.answer (Rijndael.aes c) netD netN d n (form.request netN)) = some big ∧
        (∀ r, isActived n big r =
          if issue.timeStart ≤ r.first ∧ r.second ≤ issue.timeEnd then
            some (true, if issue.trial then trialM1 else issue.passkey)
          else none) ∧
        window (rsaPublic n big) 64 32 = issue.psAesKey := by
  have hfits := issue.fits
  have hlt := lt_of_lt_of_le (PasskeyBig.ofLE_bytes_lt hfits) hlarge
  refine ⟨decode_request hnet hnetLarge form, _,
    receive_answer hnet hnetLarge h issue form (Rijndael.inverts c) hstack, fun r => ?_, ?_⟩
  · rw [isActived, checkBig_issued h hlarge issue, actived_issued]
    simp only [true_and]
    rfl
  · rw [rsaPublic_rsaPrivate h (PasskeyBig.length_bytes hfits) hlt]
    exact congrArg PasskeyBig.psAesKey (PasskeyBig.read_bytes hfits)

theorem bar_eq_false (m : PasskeyBig) : bar m = false := by
  have hdiffer : trialM1 ≠ trialM2 := by decide
  rw [bar]
  by_cases h1 : m.passkey = trialM1
  · by_cases h2 : m.passkey2 = trialM2
    · have hne : ¬ m.passkey = m.passkey2 := by rwa [h1, h2]
      simp [hne]
    · simp [h2]
  · simp [h1]

/-- **No code is one of a bar**: the passkeys of a trial are not the same. -/
theorem isBarVersion_eq_none (n : List DWORD) (big : List UInt8) (r : Readings) :
    isBarVersion n big r = none := by
  simp only [isBarVersion, checkBig, bar_eq_false, Bool.not_false, if_true]

theorem checkPasskey_iff (edition : Edition) (n : List DWORD) (big : List UInt8)
    (rs : Nat → Readings) : checkPasskey edition n big rs = true ↔
      answers (isActived n big (rs 0)) = true ∧
        (answers (isBarVersion n big (rs 1)) = true ∨
          answers (isTheeaterVersion n big (rs 2)) = true ∨ edition.nologin = true ∨
          edition.free = true ∨ edition.jz = true ∧ answers (isPayedVersion n big (rs 3)) = true ∨
          edition.pro = true ∧ answers (isProVersion n big (rs 4)) = true) := by
  rw [checkPasskey]
  cases answers (isActived n big (rs 0)) <;> cases answers (isBarVersion n big (rs 1)) <;>
    cases answers (isTheeaterVersion n big (rs 2)) <;> simp

theorem answers_checkBig (h : SigningKey n d) (hlarge : 2 ^ 1016 ≤ value n) (issue : Issue)
    (together answer : PasskeyBig → Bool) {r : Readings}
    (hin : issue.timeStart ≤ r.first ∧ r.second ≤ issue.timeEnd) :
    answers (checkBig together answer n (rsaPrivate d n issue.issued.bytes) r) = true ↔
      together issue.issued = true ∧ answer issue.issued = true := by
  rw [checkBig_issued h hlarge issue]
  by_cases htogether : together issue.issued = true
  · rw [if_pos ⟨htogether, hin⟩]
    simp [answers, htogether]
  · rw [if_neg fun hi => htogether hi.1]
    simp [answers, htogether]

/-- The builds that let in what is issued, while it is active. -/
def Edition.Admits (edition : Edition) (issue : Issue) : Prop :=
  edition.nologin = true ∨ edition.free = true ∨ issue.trial = false ∧
    (issue.issued.usertype = 1 ∧ issue.passkey ≠ trialM1 ∧ issue.passkey ≠ trialM2 ∨
      edition.jz = true ∨
      edition.pro = true ∧ (issue.issued.usertype = 0 ∨ issue.issued.usertype = 204))

theorem Edition.admits_iff (edition : Edition) (issue : Issue) : edition.Admits issue ↔
    theeater issue.issued = true ∧ (issue.issued.usertype == 1) = true ∨ edition.nologin = true ∨
      edition.free = true ∨ edition.jz = true ∧ payed issue.issued = true ∨ edition.pro = true ∧
        payed issue.issued = true ∧
          (issue.issued.usertype == 0 || issue.issued.usertype == 204) = true := by
  have hdiffer : trialM1 ≠ trialM2 := by decide
  cases htrial : issue.trial with
  | true =>
    obtain ⟨hpasskey, hpasskey2⟩ := Issue.issued_trial htrial
    simp [Edition.Admits, theeater, payed, hpasskey, hpasskey2, htrial]
  | false =>
    obtain ⟨hpasskey, hpasskey2⟩ := Issue.issued_user htrial
    have hpayed : payed issue.issued = true := by
      rw [payed, hpasskey, hpasskey2]
      by_cases h1 : issue.passkey = trialM1
      · simp [h1, hdiffer]
      · simp [h1]
    simp only [Edition.Admits, theeater, hpayed, hpasskey, hpasskey2, htrial, Bool.and_eq_true,
      Bool.not_eq_true', Bool.or_eq_false_iff, Bool.or_eq_true, beq_iff_eq, beq_eq_false_iff_ne,
      true_and, and_true]
    tauto

/-- **What an activation opens**: outside of the server's times no build, and within them a trial
only the builds without a login and the free ones, a user's passkey the paid one as well and by
its user type the professional one or every build. -/
theorem checkPasskey_activation (hnet : SigningKey netN netD) (hnetLarge : 2 ^ 1016 ≤ value netN)
    (h : SigningKey n d) (hlarge : 2 ^ 1016 ≤ value n) (issue : Issue) (form : LoginForm)
    (c : Rijndael.AESCryptor) {stack : List UInt8} (hstack : stack.length = 256) :
    ∃ big, form.receive (Rijndael.aes c) stack
        (issue.answer (Rijndael.aes c) netD netN d n (form.request netN)) = some big ∧
      ∀ (edition : Edition) (rs : Nat → Readings),
        (¬ (issue.timeStart ≤ (rs 0).first ∧ (rs 0).second ≤ issue.timeEnd) →
          checkPasskey edition n big rs = false) ∧
        ((∀ i, issue.timeStart ≤ (rs i).first ∧ (rs i).second ≤ issue.timeEnd) →
          (checkPasskey edition n big rs = true ↔ edition.Admits issue)) := by
  refine ⟨_, receive_answer hnet hnetLarge h issue form (Rijndael.inverts c) hstack,
    fun edition rs => ⟨fun hout => ?_, fun hin => ?_⟩⟩
  · rw [checkPasskey, isActived, checkBig_issued h hlarge issue]
    simp only [hout, and_false, if_false]
    rfl
  · have hactive := answers_checkBig h hlarge issue actived (fun _ => true) (hin 0)
    have htheater := answers_checkBig h hlarge issue theeater (fun m => m.usertype == 1) (hin 2)
    have hpayed := answers_checkBig h hlarge issue payed (fun _ => true) (hin 3)
    have hpro := answers_checkBig h hlarge issue payed
      (fun m => m.usertype == 0 || m.usertype == 204) (hin 4)
    rw [checkPasskey_iff, isBarVersion_eq_none, isActived, isTheeaterVersion, isPayedVersion,
      isProVersion, hactive, htheater, hpayed, hpro, Edition.admits_iff, actived_issued]
    simp only [answers, Option.any_none, Bool.false_eq_true, false_or, true_and, and_true]

end

/-! ## A login of a day -/

def shortForm : LoginForm where
  username := List.replicate 512 65
  password := [98, 111]
  time := 1400000000
  rand := fun i => UInt8.ofNat i
  rev := 3000
  length_username := List.length_replicate
  time_lo := by decide
  time_hi := by decide
  rev_lt := by decide

def dayIssue : Issue where
  trial := false
  psAesKey := List.replicate 32 7
  passkey := List.replicate 32 9
  timeStart := 1400000000
  timeEnd := 1400086400
  maxBarUser := 1
  usertype := 0
  padding := 0
  heap := []
  length_psAesKey := List.length_replicate
  length_passkey := List.length_replicate
  timeStart_lo := by decide
  timeStart_hi := by decide
  timeEnd_lo := by decide
  timeEnd_hi := by decide

theorem activation_day :
    decodeClientRequest mersenneD mersenneN (shortForm.request mersenneN) =
        some shortForm.message ∧
      ∃ big, shortForm.receive (Rijndael.aes Rijndael.untouched) (List.replicate 256 0)
          (dayIssue.answer (Rijndael.aes Rijndael.untouched) mersenneD mersenneN mersenneD
            mersenneN (shortForm.request mersenneN)) = some big ∧
        (∀ r, isActived mersenneN big r =
          if dayIssue.timeStart ≤ r.first ∧ r.second ≤ dayIssue.timeEnd then
            some (true, if dayIssue.trial then trialM1 else dayIssue.passkey)
          else none) ∧
        window (rsaPublic mersenneN big) 64 32 = dayIssue.psAesKey :=
  activation signingKey_mersenne (by decide +kernel) signingKey_mersenne (by decide +kernel)
    dayIssue shortForm Rijndael.untouched List.length_replicate

theorem checkPasskey_activation_day :
    ∃ big, shortForm.receive (Rijndael.aes Rijndael.untouched) (List.replicate 256 0)
        (dayIssue.answer (Rijndael.aes Rijndael.untouched) mersenneD mersenneN mersenneD
          mersenneN (shortForm.request mersenneN)) = some big ∧
      checkPasskey ⟨false, false, false, true⟩ mersenneN big (fun _ => ⟨1400000000, 1400000001⟩) =
        true := by
  obtain ⟨big, hreceive, hcheck⟩ := checkPasskey_activation signingKey_mersenne
    (by decide +kernel) signingKey_mersenne (by decide +kernel) dayIssue shortForm
    Rijndael.untouched List.length_replicate
  exact ⟨big, hreceive, ((hcheck ⟨false, false, false, true⟩ _).2 (fun _ => by decide)).mpr
    (Or.inr (Or.inr ⟨rfl, Or.inr (Or.inr ⟨rfl, Or.inl rfl⟩)⟩))⟩

end DWindow.License
