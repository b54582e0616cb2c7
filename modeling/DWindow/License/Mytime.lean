import DWindow.E3D.RoundTrip
import DWindow.Lib.CInt

/-!
# The clock against rollback

`mytime` of `global_funcs.cpp` returns the system's time and keeps it, encrypted, in a setting;
once the clock is behind what was kept, the time is `0xffffffff` from then on.  So what a call
returns is what the next one finds (`mytime_remembers`), which returns no less
(`le_mytime`), and the times of a history never decrease: `returned_pairwise`.

The cipher is that of `E3D.Writer`; the setting in the registry is its bytes, if there is one.
-/

namespace DWindow.License

open Blocks CInt CString LittleEndian E3D

/-- `key`, of which the first 32 bytes are used. -/
def keyWord : List UInt8 := ascii "DWindow's Kernel Corrupted.".toList ++ List.replicate 5 0

/-- The `__time64_t` at the front of a buffer. -/
def readTime (e : List UInt8) : Int := toInt64 (ofLE (e.take 8))

/-- The bytes of a `__time64_t`. -/
def timeBytes (t : Int) : List UInt8 := toLE 8 (t % 2 ^ 64).toNat

/-- What is read at a call: the system's clock, again for a reset, and `rand`. -/
structure Reading where
  clock : Int
  clockAgain : Int
  rand : Nat → UInt8

section

variable (aes : AESCryptor)

/-- The time that the setting holds, if it has 128 bytes. -/
def storedTime (setting : Option (List UInt8)) : Option Int :=
  match setting with
  | some e => if e.length = 128 then some (readTime (mapBlocks 16 (aes.decrypt keyWord) 8 e))
    else none
  | none => none

/-- The setting that holds a time: the other bytes of the buffer are noise. -/
def timeSetting (t : Int) (rand : Nat → UInt8) : List UInt8 :=
  mapBlocks 16 (aes.encrypt keyWord) 8 (timeBytes t ++ ((List.range 128).map rand).drop 8)

/-- `mytime`: the time, and the setting behind it. -/
def mytime (setting : Option (List UInt8)) (reset : Bool) (r : Reading) :
    Int × Option (List UInt8) :=
  let currentTime := match storedTime aes setting with
    | some kept => if r.clock < kept then 0xffffffff else r.clock
    | none => r.clock
  let currentTime := if reset then r.clockAgain else currentTime
  (currentTime, some (timeSetting aes currentTime r.rand))

/-- The times that calls of `mytime(false)` return. -/
def returned (setting : Option (List UInt8)) : List Reading → List Int
  | [] => []
  | r :: rs => (mytime aes setting false r).1 :: returned (mytime aes setting false r).2 rs

variable {aes}

theorem readTime_timeBytes {t : Int} (hlo : -2 ^ 63 ≤ t) (hhi : t < 2 ^ 63) (rest : List UInt8) :
    readTime (timeBytes t ++ rest) = t := by
  have hlength : (timeBytes t).length = 8 := length_toLE 8 _
  have hwrap : (((t % 2 ^ 64).toNat : Nat) : Int) = t % 2 ^ 64 := by omega
  have hmod : toInt64 (t % 2 ^ 64) = toInt64 t := Int.emod_bmod t (2 ^ 64)
  rw [readTime, List.take_left' hlength, timeBytes, ofLE_toLE_of_lt (by omega), hwrap, hmod,
    toInt64_of_lt hlo hhi]

/-- **The setting holds the time** that was encrypted. -/
theorem storedTime_timeSetting (hinv : aes.Inverts keyWord) {t : Int} (hlo : -2 ^ 63 ≤ t)
    (hhi : t < 2 ^ 63) (rand : Nat → UInt8) :
    storedTime aes (some (timeSetting aes t rand)) = some t := by
  have hbuffer : (timeBytes t ++ ((List.range 128).map rand).drop 8).length = 128 := by
    rw [List.length_append, timeBytes, length_toLE, List.length_drop, List.length_map,
      List.length_range]
  have hkeeps : KeepsLength 16 (aes.encrypt keyWord) := aes.encrypt_length keyWord
  have hlength : (timeSetting aes t rand).length = 128 := by
    rw [timeSetting, length_mapBlocks hkeeps 8 _ (by omega), hbuffer]
  rw [storedTime, if_pos hlength, timeSetting,
    mapBlocks_inverse hkeeps hinv 8 _ (by omega), readTime_timeBytes hlo hhi]

/-- What a call returns on a clock below 2^32 is no later than `0xffffffff`. -/
theorem mytime_range (setting : Option (List UInt8)) {r : Reading}
    (h : -2 ^ 63 ≤ r.clock ∧ r.clock < 2 ^ 32) :
    -2 ^ 63 ≤ (mytime aes setting false r).1 ∧ (mytime aes setting false r).1 ≤ 0xffffffff := by
  rw [mytime]
  cases storedTime aes setting with
  | none =>
    dsimp only
    rw [if_neg Bool.false_ne_true]
    omega
  | some kept =>
    dsimp only
    rw [if_neg Bool.false_ne_true]
    split
    · omega
    · omega

/-- **What is returned is kept.** -/
theorem mytime_remembers (hinv : aes.Inverts keyWord) (setting : Option (List UInt8)) {r : Reading}
    (h : -2 ^ 63 ≤ r.clock ∧ r.clock < 2 ^ 32) :
    storedTime aes (mytime aes setting false r).2 = some (mytime aes setting false r).1 := by
  have hrange : -2 ^ 63 ≤ (mytime aes setting false r).1 ∧
      (mytime aes setting false r).1 ≤ 0xffffffff := mytime_range setting h
  obtain ⟨hlo, hhi⟩ := hrange
  exact storedTime_timeSetting hinv hlo (by omega) r.rand

/-- **A call returns no less than what was kept.** -/
theorem le_mytime {setting : Option (List UInt8)} {kept : Int}
    (hkept : storedTime aes setting = some kept) (hle : kept ≤ 0xffffffff) (r : Reading) :
    kept ≤ (mytime aes setting false r).1 := by
  rw [mytime, hkept]
  dsimp only
  rw [if_neg Bool.false_ne_true]
  split
  · exact hle
  · omega

theorem le_returned (hinv : aes.Inverts keyWord) : ∀ (rs : List Reading)
    (setting : Option (List UInt8)) (kept : Int),
    (∀ r ∈ rs, -2 ^ 63 ≤ r.clock ∧ r.clock < 2 ^ 32) → storedTime aes setting = some kept →
    kept ≤ 0xffffffff → ∀ t ∈ returned aes setting rs, kept ≤ t := by
  intro rs
  induction rs with
  | nil => intro setting kept _ _ _ t ht; exact absurd ht List.not_mem_nil
  | cons r rs ih =>
    intro setting kept hclock hkept hle t ht
    have hr := hclock r List.mem_cons_self
    have hfirst := le_mytime hkept hle r
    rcases List.mem_cons.mp ht with rfl | ht
    · exact hfirst
    · have hlater := ih _ _ (fun r' hr' => hclock r' (List.mem_cons_of_mem _ hr'))
        (mytime_remembers hinv setting hr) (mytime_range setting hr).2 t ht
      omega

end

/-- **The clock never runs backwards**, whatever the system's clock does and whatever setting
there is at first. -/
theorem returned_pairwise (aes : AESCryptor) (hinv : aes.Inverts keyWord)
    (setting : Option (List UInt8)) (rs : List Reading)
    (hclock : ∀ r ∈ rs, -2 ^ 63 ≤ r.clock ∧ r.clock < 2 ^ 32) :
    (returned aes setting rs).Pairwise (· ≤ ·) := by
  induction rs generalizing setting with
  | nil => exact List.Pairwise.nil
  | cons r rs ih =>
    have hr := hclock r List.mem_cons_self
    have hrest : ∀ r' ∈ rs, -2 ^ 63 ≤ r'.clock ∧ r'.clock < 2 ^ 32 :=
      fun r' hr' => hclock r' (List.mem_cons_of_mem _ hr')
    rw [returned]
    refine List.Pairwise.cons ?_ (ih _ hrest)
    exact le_returned hinv rs _ _ hrest (mytime_remembers hinv setting hr)
      (mytime_range setting hr).2

/-- The blocks of two settings without noise, and what AES makes of them under the key. -/
def clockBlocks : List (List UInt8 × List UInt8) :=
  [([232, 3, 0, 0, 0, 0, 0, 0, 0, 0, 0, 0, 0, 0, 0, 0],
      [221, 74, 55, 89, 244, 158, 252, 123, 28, 26, 60, 19, 197, 17, 212, 104]),
    ([255, 255, 255, 255, 0, 0, 0, 0, 0, 0, 0, 0, 0, 0, 0, 0],
      [77, 153, 66, 177, 62, 50, 214, 25, 253, 5, 19, 198, 188, 182, 215, 122]),
    ([0, 0, 0, 0, 0, 0, 0, 0, 0, 0, 0, 0, 0, 0, 0, 0],
      [184, 229, 54, 113, 89, 27, 109, 101, 172, 84, 230, 111, 215, 180, 63, 221])]

/-- A cipher that agrees with AES on these blocks. -/
def clockCipher : AESCryptor where
  encrypt _ b := exchange clockBlocks b
  decrypt _ b := (exchange clockBlocks).symm b
  encrypt_length _ b hb := (length_exchange clockBlocks (by decide) b hb).1
  decrypt_length _ b hb := (length_exchange clockBlocks (by decide) b hb).2

/-- A clock that is set back from 1000 to 500. -/
def setBack : List Reading := [⟨1000, 1000, fun _ => 0⟩, ⟨500, 500, fun _ => 0⟩]

theorem returned_pairwise_set_back :
    returned clockCipher none setBack = [1000, 0xffffffff] ∧
      (returned clockCipher none setBack).Pairwise (· ≤ ·) :=
  ⟨by decide +kernel,
    returned_pairwise clockCipher (fun b _ => Equiv.symm_apply_apply _ b) none setBack (by decide)⟩

end DWindow.License
