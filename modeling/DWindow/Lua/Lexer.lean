import DWindow.Lib.CString
import DWindow.Lib.Decimal

/-!
# The tokens of Lua

`llex.c` of the Lua that is part of the program cuts a chunk into tokens.  Of the numerals only
those made of decimal digits are tokens here: no other one is written by the program, and none
stands for an integer that these do not.  The counting of lines is left out.

A text between two double quotes in which backslashes, carriage returns and line feeds are
escaped is read back if and only if there is no double quote in it: `readString_escaped_iff`.
-/

namespace DWindow.Lua

open CString

/-! ## Characters -/

/-- `currIsNewline`. -/
def isNewline (c : UInt8) : Bool := c = 10 || c = 13

def lislalpha (c : UInt8) : Bool := (65 ≤ c && c ≤ 90) || (97 ≤ c && c ≤ 122) || c = 95

def lisdigit (c : UInt8) : Bool := 48 ≤ c && c ≤ 57

def lislalnum (c : UInt8) : Bool := lislalpha c || lisdigit c

def lisxdigit (c : UInt8) : Bool := lisdigit c || (65 ≤ c && c ≤ 70) || (97 ≤ c && c ≤ 102)

def lisspace (c : UInt8) : Bool := c = 32 || (9 ≤ c && c ≤ 13)

/-- `luaO_hexavalue`. -/
def hexavalue (c : UInt8) : UInt8 := if lisdigit c then c - 48 else (c ||| 32) - 97 + 10

/-- `inclinenumber`: the line break in front, which may have two characters. -/
def inclinenumber : List UInt8 → List UInt8
  | a :: b :: rest => if isNewline b ∧ b ≠ a then rest else b :: rest
  | _ => []

/-! ## Strings -/

/-- `skip_sep` behind the bracket `s`: the number of `=`, if `s` comes again. -/
def skipSep (s : UInt8) (text : List UInt8) : Int × List UInt8 :=
  let count := (text.takeWhile (· = 61)).length
  let rest := text.dropWhile (· = 61)
  (if rest.head? = some s then count else -count - 1, rest)

/-- The loop of `read_long_string`, which takes so many turns at most: the text of the string,
and what stands behind it. -/
def longString (sep : Int) : Nat → List UInt8 → Option (List UInt8 × List UInt8)
  | 0, _ => none
  | _ + 1, [] => none
  | n + 1, c :: rest =>
    if c = 93 then
      if (skipSep 93 rest).1 = sep then some ([], (skipSep 93 rest).2.tail)
      else (longString sep n (skipSep 93 rest).2).map fun r =>
        (93 :: rest.takeWhile (· = 61) ++ r.1, r.2)
    else if isNewline c then
      (longString sep n (inclinenumber (c :: rest))).map fun r => (10 :: r.1, r.2)
    else (longString sep n rest).map fun r => (c :: r.1, r.2)

/-- `read_long_string` at the second bracket. -/
def readLongString (sep : Int) (text : List UInt8) : Option (List UInt8 × List UInt8) :=
  let inside := text.tail
  let inside := if inside.head?.any isNewline then inclinenumber inside else inside
  longString sep (inside.length + 1) inside

def letterEscape : UInt8 → Option UInt8
  | 97 => some 7
  | 98 => some 8
  | 102 => some 12
  | 110 => some 10
  | 114 => some 13
  | 116 => some 9
  | 118 => some 11
  | _ => none

def readhexaesc : List UInt8 → Option (List UInt8 × List UInt8)
  | a :: b :: rest =>
    if lisxdigit a ∧ lisxdigit b then some ([hexavalue a * 16 + hexavalue b], rest) else none
  | _ => none

def readdecesc (text : List UInt8) : Option (List UInt8 × List UInt8) :=
  let digits := (text.takeWhile lisdigit).take 3
  let r := Decimal.value (digits.map UInt8.toUInt16)
  if 255 < r then none else some ([UInt8.ofNat r], text.drop digits.length)

/-- An escape sequence behind its backslash: what it stands for, and what follows. -/
def escape : List UInt8 → Option (List UInt8 × List UInt8)
  | [] => some ([], [])
  | c :: rest =>
    match letterEscape c with
    | some d => some ([d], rest)
    | none =>
      if c = 120 then readhexaesc rest
      else if isNewline c then some ([10], inclinenumber (c :: rest))
      else if c = 92 ∨ c = 34 ∨ c = 39 then some ([c], rest)
      else if c = 122 then some ([], rest.dropWhile lisspace)
      else if lisdigit c then readdecesc (c :: rest)
      else none

/-- The loop of `read_string`, which takes so many turns at most. -/
def readString (del : UInt8) : Nat → List UInt8 → Option (List UInt8 × List UInt8)
  | 0, _ => none
  | _ + 1, [] => none
  | n + 1, c :: rest =>
    if c = del then some ([], rest)
    else if isNewline c then none
    else if c = 92 then
      (escape rest).bind fun e => (readString del n e.2).map fun r => (e.1 ++ r.1, r.2)
    else (readString del n rest).map fun r => (c :: r.1, r.2)

/-! ## Tokens -/

/-- A token; `op` is one of two or three characters. -/
inductive Token
  | name (s : List UInt8)
  | reserved (s : List UInt8)
  | string (s : List UInt8)
  | number (n : Nat)
  | char (c : UInt8)
  | op (s : List UInt8)
deriving DecidableEq

/-- The words of `luaX_tokens`. -/
def reservedWords : List (List UInt8) :=
  ["and", "break", "do", "else", "elseif", "end", "false", "for", "function", "goto", "if", "in",
    "local", "nil", "not", "or", "repeat", "return", "then", "true", "until", "while"].map
    fun s => ascii s.toList

def nameToken (s : List UInt8) : Token := if s ∈ reservedWords then .reserved s else .name s

/-- `read_numeral`, for the numerals that are made of decimal digits. -/
def readNumeral (text : List UInt8) : Option (Token × List UInt8) :=
  let digits := text.takeWhile lisdigit
  let rest := text.dropWhile lisdigit
  if rest.head?.any fun c => lisxdigit c || c = 46 || c = 120 || c = 88 then none
  else some (.number (Decimal.value (digits.map UInt8.toUInt16)), rest)

def skipComment : List UInt8 → Option (List UInt8)
  | 91 :: rest =>
    if 0 ≤ (skipSep 91 rest).1 then
      (readLongString (skipSep 91 rest).1 (skipSep 91 rest).2).map Prod.snd
    else some ((skipSep 91 rest).2.dropWhile fun c => !isNewline c)
  | text => some (text.dropWhile fun c => !isNewline c)

/-- A character that may be followed by another one to make a token of both. -/
def oneOrTwo (c d : UInt8) (rest : List UInt8) : Token × List UInt8 :=
  if rest.head? = some d then (.op [c, d], rest.tail) else (.char c, rest)

/-- What stands at a dot: `.`, `..`, `...` or a number. -/
def dots : List UInt8 → Option (Token × List UInt8)
  | 46 :: 46 :: rest => some (.op [46, 46, 46], rest)
  | 46 :: rest => some (.op [46, 46], rest)
  | rest => if rest.head?.any lisdigit then none else some (.char 46, rest)

/-- A token that begins with `c`, which is no space and no hyphen. -/
def readToken (c : UInt8) (rest : List UInt8) : Option (Token × List UInt8) :=
  if c = 91 then
    if 0 ≤ (skipSep 91 rest).1 then
      (readLongString (skipSep 91 rest).1 (skipSep 91 rest).2).map fun r => (.string r.1, r.2)
    else if (skipSep 91 rest).1 = -1 then some (.char 91, rest)
    else none
  else if c = 61 ∨ c = 60 ∨ c = 62 ∨ c = 126 then some (oneOrTwo c 61 rest)
  else if c = 58 then some (oneOrTwo 58 58 rest)
  else if c = 34 ∨ c = 39 then
    (readString c (rest.length + 1) rest).map fun r => (.string r.1, r.2)
  else if c = 46 then dots rest
  else if lisdigit c then readNumeral (c :: rest)
  else if lislalpha c then
    some (nameToken (c :: rest.takeWhile lislalnum), rest.dropWhile lislalnum)
  else some (.char c, rest)

/-- `llex`, which takes so many turns at most: nothing at the end of the chunk, or the next
token and what stands behind it. -/
def llex : Nat → List UInt8 → Option (Option (Token × List UInt8))
  | 0, _ => none
  | _ + 1, [] => some none
  | n + 1, c :: rest =>
    if isNewline c then llex n (inclinenumber (c :: rest))
    else if c = 32 ∨ c = 12 ∨ c = 9 ∨ c = 11 then llex n rest
    else if c = 45 then
      if rest.head? = some 45 then (skipComment rest.tail).bind (llex n)
      else some (some (.char 45, rest))
    else (readToken c rest).map some

def tokens : Nat → List UInt8 → Option (List Token)
  | 0, _ => none
  | n + 1, text =>
    (llex (text.length + 1) text).bind fun
      | none => some []
      | some (t, rest) => (tokens n rest).map (t :: ·)

/-- A chunk is cut into these tokens. -/
def Reads (text : List UInt8) (ts : List Token) : Prop := ∃ n, tokens n text = some ts

/-! ## Reading token by token -/

variable {c : UInt8} {rest rest' text : List UInt8} {t : Token} {ts ts' : List Token}

theorem llex_space (hc : c = 32 ∨ c = 12 ∨ c = 9 ∨ c = 11) (n : Nat) (rest : List UInt8) :
    llex (n + 1) (c :: rest) = llex n rest := by
  have hline : isNewline c = false := by
    rcases hc with rfl | rfl | rfl | rfl <;> rfl
  rw [llex, hline, if_neg Bool.false_ne_true, if_pos hc]

theorem Reads.space (hc : c = 32 ∨ c = 12 ∨ c = 9 ∨ c = 11) (h : Reads rest ts) :
    Reads (c :: rest) ts := by
  obtain ⟨n, hn⟩ := h
  refine ⟨n, ?_⟩
  cases n with
  | zero => exact absurd hn (Option.some_ne_none ts ∘ Eq.symm)
  | succ n => rwa [tokens, List.length_cons, llex_space hc]

theorem reads_nil : Reads [] [] := ⟨1, rfl⟩

theorem Reads.newline (h : Reads text ts) (hhead : ∀ c ∈ text.head?, isNewline c = false) :
    Reads (10 :: text) ts := by
  obtain ⟨n, hn⟩ := h
  refine ⟨n, ?_⟩
  have hskip : inclinenumber (10 :: text) = text := by
    cases text with
    | nil => rfl
    | cons c rest => rw [inclinenumber, hhead c rfl, if_neg fun h => Bool.false_ne_true h.1]
  cases n with
  | zero => exact absurd hn (Option.some_ne_none ts ∘ Eq.symm)
  | succ n =>
    have hlex : llex ((10 :: text).length + 1) (10 :: text) = llex (text.length + 1) text := by
      rw [List.length_cons, llex, if_pos (by decide : isNewline 10 = true), hskip]
    rwa [tokens, hlex]

theorem Reads.token (htoken : readToken c rest = some (t, rest')) (hline : isNewline c = false)
    (hspace : ¬(c = 32 ∨ c = 12 ∨ c = 9 ∨ c = 11)) (hminus : c ≠ 45) (h : Reads rest' ts) :
    Reads (c :: rest) (t :: ts) := by
  obtain ⟨n, hn⟩ := h
  refine ⟨n + 1, ?_⟩
  rw [tokens, llex, hline, if_neg Bool.false_ne_true, if_neg hspace, if_neg hminus, htoken]
  exact congrArg (Option.map (t :: ·)) hn

theorem Reads.minus (hrest : rest.head? ≠ some 45) (h : Reads rest ts) :
    Reads (45 :: rest) (.char 45 :: ts) := by
  obtain ⟨n, hn⟩ := h
  refine ⟨n + 1, ?_⟩
  rw [tokens, llex, if_neg (by decide), if_neg (by decide), if_pos rfl, if_neg hrest]
  exact congrArg (Option.map (.char 45 :: ·)) hn

theorem Reads.char (hc : c ∈ [123, 125, 93, 44, 40, 41]) (h : Reads rest ts) :
    Reads (c :: rest) (.char c :: ts) := by
  have hmem : c = 123 ∨ c = 125 ∨ c = 93 ∨ c = 44 ∨ c = 40 ∨ c = 41 := by
    simpa using hc
  rcases hmem with rfl | rfl | rfl | rfl | rfl | rfl <;>
    exact Reads.token (by simp [readToken, lisdigit, lislalpha]) rfl (by decide) (by decide) h

theorem Reads.equals (hrest : rest.head? ≠ some 61) (h : Reads rest ts) :
    Reads (61 :: rest) (.char 61 :: ts) := by
  refine Reads.token ?_ rfl (by decide) (by decide) h
  rw [readToken, if_neg (by decide), if_pos (Or.inl rfl), oneOrTwo, if_neg hrest]

theorem Reads.bracket (hc : c ≠ 61) (hbracket : c ≠ 91) (h : Reads (c :: rest) ts) :
    Reads (91 :: c :: rest) (.char 91 :: ts) := by
  refine Reads.token ?_ rfl (by decide) (by decide) h
  have hsep : (skipSep 91 (c :: rest)).1 = -1 := by
    simp [skipSep, hc, hbracket]
  rw [readToken, if_pos rfl, hsep, if_neg (by decide), if_pos rfl]

theorem span_append {p : UInt8 → Bool} {s : List UInt8} (hs : ∀ d ∈ s, p d = true)
    (hrest : ∀ d ∈ rest.head?, p d = false) :
    (s ++ rest).takeWhile p = s ∧ (s ++ rest).dropWhile p = rest := by
  rw [List.takeWhile_append_of_pos hs, List.dropWhile_append_of_pos hs]
  cases rest with
  | nil => simp
  | cons d rest =>
    have hd : p d = false := hrest d rfl
    simp [hd]

/-- A name or a reserved word, in front of something else. -/
theorem Reads.word {s : List UInt8} (hc : lislalpha c = true) (hs : ∀ d ∈ s, lislalnum d = true)
    (hrest : ∀ d ∈ rest.head?, lislalnum d = false) (h : Reads rest ts) :
    Reads (c :: (s ++ rest)) (nameToken (c :: s) :: ts) := by
  obtain ⟨htake, hdrop⟩ := span_append hs hrest
  have hother : ∀ d, lislalpha d = false → c ≠ d := fun d hd hcd => by
    rw [hcd, hd] at hc
    exact Bool.false_ne_true hc
  have hdigit : lisdigit c = false := by
    by_contra hdigit
    simp only [lislalpha, lisdigit, Bool.or_eq_true, Bool.and_eq_true, decide_eq_true_eq,
      Bool.not_eq_false, UInt8.le_iff_toNat_le] at hc hdigit
    rcases hc with (⟨h1, -⟩ | ⟨h1, -⟩) | rfl
    · exact absurd (h1.trans hdigit.2) (by decide)
    · exact absurd (h1.trans hdigit.2) (by decide)
    · exact absurd hdigit.2 (by decide)
  refine Reads.token ?_ ?_ ?_ (hother 45 rfl) h
  · rw [readToken, if_neg (hother 91 rfl), if_neg, if_neg (hother 58 rfl), if_neg,
      if_neg (hother 46 rfl), hdigit, if_neg Bool.false_ne_true, if_pos hc, htake, hdrop]
    · rintro (h1 | h1)
      · exact hother 34 rfl h1
      · exact hother 39 rfl h1
    · rintro (h1 | h1 | h1 | h1)
      · exact hother 61 rfl h1
      · exact hother 60 rfl h1
      · exact hother 62 rfl h1
      · exact hother 126 rfl h1
  · simp [isNewline, hother 10 rfl, hother 13 rfl]
  · simp [hother 32 rfl, hother 12 rfl, hother 9 rfl, hother 11 rfl]

/-- A numeral, in front of something that does not belong to numerals. -/
theorem Reads.numeral {s : List UInt8} (hc : lisdigit c = true) (hs : ∀ d ∈ s, lisdigit d = true)
    (hrest : ∀ d ∈ rest.head?, (lisxdigit d || d = 46 || d = 120 || d = 88) = false)
    (h : Reads rest ts) :
    Reads (c :: (s ++ rest)) (.number (Decimal.value ((c :: s).map UInt8.toUInt16)) :: ts) := by
  have hother : ∀ d, lisdigit d = false → c ≠ d := fun d hd hcd => by
    rw [hcd, hd] at hc
    exact Bool.false_ne_true hc
  have hall : ∀ d ∈ c :: s, lisdigit d = true := by
    intro d hd
    rcases List.mem_cons.mp hd with rfl | hd
    · exact hc
    · exact hs d hd
  have hstop : ∀ d ∈ rest.head?, lisdigit d = false := fun d hd => by
    have := hrest d hd
    simp only [lisxdigit, Bool.or_eq_false_iff] at this
    exact this.1.1.1.1.1
  obtain ⟨htake, hdrop⟩ := span_append hall hstop
  have hend : (rest.head?.any fun c => lisxdigit c || c = 46 || c = 120 || c = 88) = false := by
    cases hhead : rest.head? with
    | none => rfl
    | some d => exact hrest d hhead
  refine Reads.token ?_ ?_ ?_ (hother 45 rfl) h
  · rw [readToken, if_neg (hother 91 rfl), if_neg, if_neg (hother 58 rfl), if_neg,
      if_neg (hother 46 rfl), if_pos hc, readNumeral, ← List.cons_append, htake, hdrop, hend,
      if_neg Bool.false_ne_true]
    · rintro (h1 | h1)
      · exact hother 34 rfl h1
      · exact hother 39 rfl h1
    · rintro (h1 | h1 | h1 | h1)
      · exact hother 61 rfl h1
      · exact hother 60 rfl h1
      · exact hother 62 rfl h1
      · exact hother 126 rfl h1
  · simp [isNewline, hother 10 rfl, hother 13 rfl]
  · simp [hother 32 rfl, hother 12 rfl, hother 9 rfl, hother 11 rfl]

/-! ## Strings -/

/-- A character between double quotes, as it is written. -/
def escapeChar (c : UInt8) : List UInt8 :=
  if c = 92 then [92, 92] else if c = 13 then [92, 114] else if c = 10 then [92, 110] else [c]

theorem length_escapeChar_pos (c : UInt8) : 0 < (escapeChar c).length := by
  unfold escapeChar
  split_ifs <;> exact Nat.succ_pos _

/-- **Escaped strings are read back**, if there is no double quote in them. -/
theorem readString_escaped {s : List UInt8} (hs : 34 ∉ s) (rest : List UInt8) :
    ∀ n, (s.flatMap escapeChar).length < n →
      readString 34 n (s.flatMap escapeChar ++ 34 :: rest) = some (s, rest) := by
  induction s with
  | nil =>
    intro n hn
    cases n with
    | zero => exact absurd hn (Nat.not_lt_zero _)
    | succ n => simp [readString]
  | cons c s ih =>
    intro n hn
    have hc : c ≠ 34 := fun h => hs (h ▸ List.mem_cons_self)
    have hrest := ih fun h => hs (List.mem_cons_of_mem c h)
    rw [List.flatMap_cons, List.length_append] at hn
    rw [List.flatMap_cons, List.append_assoc]
    cases n with
    | zero => exact absurd hn (Nat.not_lt_zero _)
    | succ n =>
      have hlt : (s.flatMap escapeChar).length < n := by
        have := length_escapeChar_pos c
        omega
      by_cases h92 : c = 92
      · subst h92
        simp [escapeChar, readString, isNewline, escape, letterEscape, hrest n hlt]
      by_cases h13 : c = 13
      · subst h13
        simp [escapeChar, readString, isNewline, escape, letterEscape, hrest n hlt]
      by_cases h10 : c = 10
      · subst h10
        simp [escapeChar, readString, isNewline, escape, letterEscape, hrest n hlt]
      simp [escapeChar, readString, isNewline, h92, h13, h10, hc, hrest n hlt]

/-- **No other string is read back**: a double quote ends it. -/
theorem readString_escaped_iff (s rest : List UInt8) {n : Nat}
    (hn : (s.flatMap escapeChar).length < n) :
    readString 34 n (s.flatMap escapeChar ++ 34 :: rest) = some (s, rest) ↔ 34 ∉ s := by
  refine ⟨fun h hmem => ?_, fun hs => readString_escaped hs rest n hn⟩
  obtain ⟨u, w, rfl, hu⟩ := List.eq_append_cons_of_mem hmem
  have hquote : escapeChar 34 = [34] := by decide
  have hfirst : (u.flatMap escapeChar).length < n := by
    rw [List.flatMap_append, List.length_append] at hn
    exact lt_of_le_of_lt (Nat.le_add_right _ _) hn
  rw [List.flatMap_append, List.flatMap_cons, hquote, List.append_assoc, List.append_assoc,
    List.singleton_append, readString_escaped hu _ n hfirst] at h
  have hlength := congrArg (fun r => r.1.length) (Option.some.inj h)
  simp only [List.length_append, List.length_cons] at hlength
  omega

theorem Reads.string {s : List UInt8} (hs : 34 ∉ s) (h : Reads rest ts) :
    Reads (34 :: (s.flatMap escapeChar ++ 34 :: rest)) (.string s :: ts) := by
  refine Reads.token ?_ rfl (by decide) (by decide) h
  rw [readToken, if_neg (by decide), if_neg (by decide), if_neg (by decide), if_pos (Or.inl rfl),
    readString_escaped hs rest _ (by rw [List.length_append, List.length_cons]; omega)]
  rfl

/-! ## One result -/

theorem Reads.unique (h : Reads text ts) (h' : Reads text ts') : ts = ts' := by
  obtain ⟨n, hn⟩ := h
  obtain ⟨m, hm⟩ := h'
  induction n generalizing text ts ts' m with
  | zero => exact absurd hn (Option.some_ne_none ts ∘ Eq.symm)
  | succ n ih =>
    cases m with
    | zero => exact absurd hm (Option.some_ne_none ts' ∘ Eq.symm)
    | succ m =>
      rw [tokens] at hn hm
      obtain ⟨r, hr, hn⟩ := Option.bind_eq_some_iff.mp hn
      rw [hr, Option.bind_some] at hm
      cases r with
      | none => exact (Option.some.inj hn).symm.trans (Option.some.inj hm)
      | some r =>
        obtain ⟨us, hus, rfl⟩ := Option.map_eq_some_iff.mp hn
        obtain ⟨us', hus', rfl⟩ := Option.map_eq_some_iff.mp hm
        rw [ih hus m hus']

end DWindow.Lua
