import DWindow.Lib.Buffer
import DWindow.Lib.CString
import DWindow.Lib.Decimal
import DWindow.Lib.ByteOrder

/-!
# Formats of `swscanf`

A format is a list of directives.  `scanf` lists the numbers that are assigned until the text
does not match any more; how many there are is what the function returns.

`scanHex2` is `%02X` of `sscanf`.  Bytes that `%02X` of `sprintf` writes are read back by a loop
that stores a number of four bytes at each place: `scanBytes_hexText`.
-/

namespace Scanf

open Decimal

/-- `%d`, `%x` and a character that has to stand there. -/
inductive Directive
  | int
  | hex
  | literal (c : UInt16)
deriving DecidableEq, Repr

def hexValue (c : UInt16) : Option Nat :=
  if 48 ≤ c ∧ c ≤ 57 then some (c.toNat - 48)
  else if 97 ≤ c ∧ c ≤ 102 then some (c.toNat - 87)
  else if 65 ≤ c ∧ c ≤ 70 then some (c.toNat - 55)
  else none

/-- The hexadecimal digits in front, with the value of those before them, and what follows. -/
def hexDigits (n : Nat) : List UInt16 → Nat × List UInt16
  | [] => (n, [])
  | c :: cs =>
    match hexValue c with
    | some d => hexDigits (16 * n + d) cs
    | none => (n, c :: cs)

/-- `0x` in front is skipped when a digit follows. -/
def skipPrefix : List UInt16 → List UInt16
  | 48 :: x :: c :: cs =>
    if (x = 120 ∨ x = 88) ∧ (hexValue c).isSome then c :: cs else 48 :: x :: c :: cs
  | str => str

/-- `%x`: the number in front, behind white space, with a sign and `0x`, and what follows. -/
def scanHex (str : List UInt16) : Option (Int × List UInt16) :=
  let (negative, rest) := scanSign (str.dropWhile isSpace)
  let digits := skipPrefix rest
  if (digits.head?.bind hexValue).isNone then none
  else
    let (n, after) := hexDigits 0 digits
    some (if negative then -(n : Int) else n, after)

def scanf : List Directive → List UInt16 → List Int
  | [], _ => []
  | .literal c :: format, str => if str.head? = some c then scanf format str.tail else []
  | .int :: format, str =>
    match scanInt str with
    | some (n, rest) => n :: scanf format rest
    | none => []
  | .hex :: format, str =>
    match scanHex str with
    | some (n, rest) => n :: scanf format rest
    | none => []

/-! ## Two digits -/

def hexDigitValue (c : UInt8) : Option Nat := hexValue c.toUInt16

/-- `%02X`: behind white space two characters, of which a sign is one.  A lone digit is a
number, and `0x` is none. -/
def scanHex2 (str : List UInt8) : Option Int :=
  match str.dropWhile CString.isSpace with
  | [] => none
  | c :: rest =>
    if c = 45 then rest.head?.bind hexDigitValue |>.map fun d => -(d : Int)
    else if c = 43 then rest.head?.bind hexDigitValue |>.map fun d => (d : Int)
    else if c = 48 ∧ (rest.head? = some 120 ∨ rest.head? = some 88) then none
    else
      match hexDigitValue c, rest.head?.bind hexDigitValue with
      | some h, some l => some (16 * h + l : Nat)
      | some h, none => some (h : Nat)
      | none, _ => none

theorem hexDigit_read : ∀ d < 16, hexDigitValue (CString.hexDigit d) = some d ∧
    CString.isSpace (CString.hexDigit d) = false ∧ CString.hexDigit d ≠ 45 ∧
    CString.hexDigit d ≠ 43 ∧ CString.hexDigit d ≠ 120 ∧ CString.hexDigit d ≠ 88 := by
  decide

/-- **What is written is read.** -/
theorem scanHex2_hexByte (b : UInt8) (rest : List UInt8) :
    scanHex2 (CString.hexByte b ++ rest) = some (b.toNat : Int) := by
  have hb : b.toNat < 256 := b.toNat_lt
  obtain ⟨hhigh, hspace, hminus, hplus, -⟩ := hexDigit_read (b.toNat / 16) (by omega)
  obtain ⟨hlow, -, -, -, hx, hX⟩ := hexDigit_read (b.toNat % 16) (by omega)
  have hsplit : 16 * (b.toNat / 16) + b.toNat % 16 = b.toNat := Nat.div_add_mod _ _
  have hdrop : (CString.hexByte b ++ rest).dropWhile CString.isSpace =
      CString.hexDigit (b.toNat / 16) :: CString.hexDigit (b.toNat % 16) :: rest := by
    rw [CString.hexByte, List.cons_append, List.dropWhile_cons, hspace]
    rfl
  have hprefix : ¬ (CString.hexDigit (b.toNat / 16) = 48 ∧
      ((CString.hexDigit (b.toNat % 16) :: rest).head? = some 120 ∨
        (CString.hexDigit (b.toNat % 16) :: rest).head? = some 88)) := by
    simp [hx, hX]
  rw [scanHex2, hdrop]
  dsimp only
  rw [if_neg hminus, if_neg hplus, if_neg hprefix, List.head?_cons, Option.bind_some, hhigh, hlow]
  dsimp only
  rw [hsplit]

/-! ## Bytes as text -/

open Buffer LittleEndian

/-- The loop that writes `%02X` for each byte. -/
def hexText (bs : List UInt8) : List UInt8 := bs.flatMap CString.hexByte

@[simp] theorem length_hexText (bs : List UInt8) : (hexText bs).length = 2 * bs.length := by
  induction bs with
  | nil => rfl
  | cons b bs ih =>
    rw [hexText] at ih
    rw [hexText, List.flatMap_cons, List.length_append, ih, List.length_cons]
    simp only [CString.hexByte, List.length_cons, List.length_nil]
    omega

theorem drop_hexText : ∀ (bs : List UInt8) (i : Nat),
    (hexText bs).drop (2 * i) = hexText (bs.drop i) := by
  intro bs
  induction bs with
  | nil => intro i; rw [List.drop_nil]; exact List.drop_nil
  | cons b bs ih =>
    intro i
    cases i with
    | zero => rfl
    | succ i => exact ih i

/-- A round of the loop: the number takes four bytes. -/
def scanRound (str buf : List UInt8) (i : Nat) : List UInt8 :=
  match scanHex2 (str.drop (2 * i)) with
  | some v => writeAt buf i (toLE 4 (v % 2 ^ 32).toNat)
  | none => buf

/-- The loop that reads `count` bytes into a buffer. -/
def scanBytes (count : Nat) (str buf : List UInt8) : List UInt8 :=
  (List.range count).foldl (scanRound str) buf

/-- **Bytes that are written are read.** -/
theorem scanBytes_hexText {bs buf : List UInt8} (rest : List UInt8) : ∀ {count : Nat},
    count ≤ bs.length → bs.length + 3 ≤ buf.length →
    (scanBytes count (hexText bs ++ rest) buf).length = buf.length ∧
      (scanBytes count (hexText bs ++ rest) buf).take count = bs.take count := by
  intro count
  induction count with
  | zero => intro _ _; exact ⟨rfl, by rw [List.take_zero, List.take_zero]⟩
  | succ count ih =>
    intro hcount hbuf
    obtain ⟨hlen, htake⟩ := ih (by omega) hbuf
    have hstr : (hexText bs ++ rest).drop (2 * count) =
        CString.hexByte bs[count] ++ (hexText (bs.drop (count + 1)) ++ rest) := by
      rw [List.drop_append_of_le_length (by rw [length_hexText]; omega), drop_hexText,
        List.drop_eq_getElem_cons (by omega), hexText, List.flatMap_cons, List.append_assoc]
      rfl
    have hbyte : toLE 4 ((bs[count].toNat : Int) % 2 ^ 32).toNat = bs[count] :: [0, 0, 0] := by
      have hb : bs[count].toNat < 256 := bs[count].toNat_lt
      have hmod : ((bs[count].toNat : Int) % 2 ^ 32).toNat = bs[count].toNat := by omega
      have hhigh : bs[count].toNat / 256 = 0 := by omega
      rw [hmod, toLE, hhigh, UInt8.ofNat_toNat, toLE_zero]
      rfl
    have hround : scanBytes (count + 1) (hexText bs ++ rest) buf =
        writeAt (scanBytes count (hexText bs ++ rest) buf) count (bs[count] :: [0, 0, 0]) := by
      rw [scanBytes, List.range_succ, List.foldl_append, ← scanBytes, List.foldl_cons,
        List.foldl_nil, scanRound, hstr, scanHex2_hexByte]
      dsimp only
      rw [hbyte]
    have hsucc : bs.take (count + 1) = bs.take count ++ [bs[count]] :=
      List.take_succ_eq_append_getElem (by omega)
    have hfront : (bs.take count ++ [bs[count]]).length = count + 1 := by
      rw [List.length_append, List.length_take, List.length_singleton]
      omega
    rw [hround, length_writeAt (by simp only [List.length_cons, List.length_nil]; omega), hlen,
      hsucc]
    refine ⟨rfl, ?_⟩
    rw [writeAt, htake, ← List.singleton_append, ← List.append_assoc, List.append_assoc _ [0, 0, 0],
      List.take_left' hfront]

end Scanf
