import Mathlib.Data.List.Basic

/-!
# C strings

A C string is its bytes in front of the terminating zero.  `token` is one `%s`
of `sscanf`.
-/

namespace CString

def ascii (str : List Char) : List UInt8 := str.map (fun c => UInt8.ofNat c.toNat)

def isSpace (c : UInt8) : Bool := c == 32 || (9 ≤ c && c ≤ 13)

/-- One `%s`: the characters up to the next white space, and what follows them. -/
def token (str : List UInt8) : Option (List UInt8 × List UInt8) :=
  match str.dropWhile isSpace with
  | [] => none
  | c :: cs => some (((c :: cs).takeWhile (fun c => !isSpace c)),
      (c :: cs).dropWhile (fun c => !isSpace c))

def hexDigit (d : Nat) : UInt8 := UInt8.ofNat (if d < 10 then 48 + d else 55 + d)

/-- `%02X` of a byte. -/
def hexByte (b : UInt8) : List UInt8 := [hexDigit (b.toNat / 16), hexDigit (b.toNat % 16)]

/-- `%d` of a non-negative number. -/
def decimal (n : Nat) : List UInt8 := ascii (Nat.toDigits 10 n)

end CString
