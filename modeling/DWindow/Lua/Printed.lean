import Mathlib.Data.List.TakeWhile
import DWindow.Lua.SaveSettings

/-!
# The tokens of saved settings

What the lexer makes of the text that `format_table` writes, if no string has a double quote, a
zero or the end of a text file in it.
-/

namespace DWindow.Lua

open CString

/-! ## Strings in a table -/

def Key.All (p : List UInt8 → Prop) : Key → Prop
  | .string s => p s
  | .number _ => True

mutual

def Value.All (p : List UInt8 → Prop) : Value → Prop
  | .string s => p s
  | .boolean _ => True
  | .number _ => True
  | .table fields => fields.All p

/-- All strings of a table, keys and values, in all its tables. -/
def Fields.All (p : List UInt8 → Prop) : Fields → Prop
  | .nil => True
  | .cons k v rest => k.All p ∧ v.All p ∧ rest.All p

end

/-! ## Tokens -/

def Key.tokens : Key → List Token
  | .string s => [.char 91, .string s, .char 93, .char 61]
  | .number _ => []

mutual

def Value.tokens : Value → List Token
  | .string s => [.string s]
  | .boolean true => [.reserved (ascii "true".toList)]
  | .boolean false => [.reserved (ascii "false".toList)]
  | .number n => (if n.1 < 0 then [.char 45] else []) ++ [.number n.1.natAbs]
  | .table fields => .char 123 :: (fields.tokens ++ [.char 125])

def Fields.tokens : Fields → List Token
  | .nil => []
  | .cons k v rest => k.tokens ++ (v.tokens ++ .char 44 :: rest.tokens)

end

/-! ## Characters that are in no text of the printer's own -/

theorem escaped_eq (s : List UInt8) : escaped s = s.flatMap escapeChar := by
  rw [escaped, gsub, gsub, gsub, List.flatMap_assoc, List.flatMap_assoc]
  refine List.flatMap_congr fun c _ => ?_
  unfold escapeChar
  split_ifs with h92 h13 h10
  · rfl
  · rw [List.flatMap_singleton, if_pos h13]
    rfl
  · rw [List.flatMap_singleton, if_neg h13, List.flatMap_singleton, if_pos h10]
  · rw [List.flatMap_singleton, if_neg h13, List.flatMap_singleton, if_neg h10]

theorem not_mem_escaped {c : UInt8} {s : List UInt8} (hc : c ∉ [92, 114, 110]) (hs : c ∉ s) :
    c ∉ escaped s := by
  rw [escaped_eq, List.mem_flatMap]
  rintro ⟨d, hd, hmem⟩
  unfold escapeChar at hmem
  split_ifs at hmem <;> simp_all

theorem mem_of_mem_formatS {c : UInt8} {s : List UInt8} (h : c ∈ formatS s) : c ∈ s := by
  unfold formatS at h
  split_ifs at h
  · exact (List.takeWhile_sublist _).mem h
  · exact h

theorem takeWhile_ne_zero {s : List UInt8} (h : 0 ∉ s) : s.takeWhile (· ≠ 0) = s :=
  List.takeWhile_eq_self_iff.mpr fun _ hc => decide_eq_true fun h0 => h (h0 ▸ hc)

theorem formatS_eq {s : List UInt8} (h : 0 ∉ s) : formatS s = s := by
  unfold formatS
  split_ifs
  · exact takeWhile_ne_zero h
  · rfl

theorem concat_cons (x : List UInt8) (xs : List (List UInt8)) (sep : List UInt8) :
    concat (x :: xs) sep = x ++ xs.flatMap (sep ++ ·) := by
  induction xs generalizing x with
  | nil => simp [concat]
  | cons y ys ih =>
    have hstep : concat (x :: y :: ys) sep = x ++ (sep ++ concat (y :: ys) sep) := by
      simp [concat]
    rw [hstep, ih, List.flatMap_cons, List.append_assoc]

/-! ### Numbers -/

theorem digit_toUInt8 {c : UInt16} (h : Decimal.isDigit c = true) :
    lisdigit c.toUInt8 = true ∧ c.toUInt8.toUInt16 = c := by
  have hall : ∀ n < 58, 48 ≤ n →
      lisdigit (UInt16.ofNat n).toUInt8 = true ∧
        (UInt16.ofNat n).toUInt8.toUInt16 = UInt16.ofNat n := by decide
  simp only [Decimal.isDigit, Bool.and_eq_true, decide_eq_true_eq, UInt16.le_iff_toNat_le] at h
  have hc : UInt16.ofNat c.toNat = c := UInt16.ofNat_toNat
  rw [← hc]
  exact hall c.toNat (Nat.lt_succ_of_le h.2) h.1

theorem digits_of_decimal (n : Nat) : ∃ c s, (Decimal.decimal n).map UInt16.toUInt8 = c :: s ∧
    lisdigit c = true ∧ (∀ d ∈ s, lisdigit d = true) ∧
      Decimal.value ((c :: s).map UInt8.toUInt16) = n := by
  have hall : ∀ d ∈ (Decimal.decimal n).map UInt16.toUInt8, lisdigit d = true := by
    intro d hd
    obtain ⟨e, he, rfl⟩ := List.mem_map.mp hd
    exact (digit_toUInt8 (Decimal.isDigit_of_mem_decimal he)).1
  have hback : ((Decimal.decimal n).map UInt16.toUInt8).map UInt8.toUInt16 = Decimal.decimal n := by
    rw [List.map_map]
    refine (List.map_congr_left fun e he => ?_).trans (List.map_id _)
    exact (digit_toUInt8 (Decimal.isDigit_of_mem_decimal he)).2
  cases hmap : (Decimal.decimal n).map UInt16.toUInt8 with
  | nil => exact absurd (List.map_eq_nil_iff.mp hmap) (Decimal.decimal_ne_nil n)
  | cons c s =>
    rw [hmap] at hall hback
    refine ⟨c, s, rfl, hall c List.mem_cons_self,
      fun d hd => hall d (List.mem_cons_of_mem c hd), ?_⟩
    rw [hback, Decimal.value_decimal]

/-! ### The text of a table -/

section Foreign

variable {c : UInt8}

/-- What the program writes itself has no zero and no end of a file in it. -/
theorem not_mem_line (hc : c = 0 ∨ c = 26) {k : Key} {vv : List UInt8} (hk : k.All (c ∉ ·))
    (hvv : c ∉ vv) : c ∉ line k vv := by
  have hvv' : c ∉ formatS vv := fun h => hvv (mem_of_mem_formatS h)
  have hcomma : c ∉ [44] := by rcases hc with rfl | rfl <;> decide
  cases k with
  | number i => exact List.not_mem_append hvv' hcomma
  | string s =>
    have hopen : c ∉ [91, 34] := by rcases hc with rfl | rfl <;> decide
    have hclose : c ∉ [34, 93] := by rcases hc with rfl | rfl <;> decide
    have hequals : c ∉ ascii " = ".toList := by rcases hc with rfl | rfl <;> decide
    have hs : c ∉ escaped s := not_mem_escaped (by rcases hc with rfl | rfl <;> decide) hk
    have hkey : c ∉ formatS ([91, 34] ++ escaped s ++ [34, 93]) := fun h =>
      List.not_mem_append (List.not_mem_append hopen hs) hclose (mem_of_mem_formatS h)
    exact List.not_mem_append (List.not_mem_append (List.not_mem_append hkey hequals) hvv') hcomma

theorem not_mem_tabs (hc : c = 0 ∨ c = 26) (level : Nat) : c ∉ tabs level := fun h => by
  rw [List.eq_of_mem_replicate h] at hc
  exact absurd hc (by decide)

theorem not_mem_tableText (hc : c = 0 ∨ c = 26) (level : Nat) {fields : List (List UInt8)}
    (hfields : ∀ l ∈ fields, c ∉ l) : c ∉ tableText level fields := by
  have hcrlf : c ∉ [13, 10] := by rcases hc with rfl | rfl <;> decide
  have hopen : c ∉ [123] := by rcases hc with rfl | rfl <;> decide
  have hclose : c ∉ [125] := by rcases hc with rfl | rfl <;> decide
  have hlead := not_mem_tabs hc level
  have hlead1 := not_mem_tabs hc (level - 1)
  have hlines : c ∉ fields.flatMap ([13, 10] ++ tabs level ++ ·) := by
    rw [List.mem_flatMap]
    rintro ⟨l, hl, hmem⟩
    exact List.not_mem_append (List.not_mem_append hcrlf hlead) (hfields l hl) hmem
  rw [tableText, concat_cons]
  exact List.not_mem_append (List.not_mem_append (List.not_mem_append (List.not_mem_append hcrlf
    (List.not_mem_append (List.not_mem_append hlead1 hopen) hlines)) hcrlf) hlead1) hclose

mutual

theorem Value.not_mem_text (hc : c = 0 ∨ c = 26) (level : Nat) :
    ∀ v : Value, v.All (c ∉ ·) → c ∉ v.text level
  | .string s, h => by
    have hquote : c ∉ [34] := by rcases hc with rfl | rfl <;> decide
    have hs : c ∉ escaped s := not_mem_escaped (by rcases hc with rfl | rfl <;> decide) h
    exact List.not_mem_append (List.not_mem_append hquote hs) hquote
  | .boolean true, _ => by
    rw [Value.text]
    rcases hc with rfl | rfl <;> decide
  | .boolean false, _ => by
    rw [Value.text]
    rcases hc with rfl | rfl <;> decide
  | .number n, _ => by
    have hsign : c ∉ (if n.1 < 0 then [45] else []) := by
      split_ifs <;> rcases hc with rfl | rfl <;> decide
    refine List.not_mem_append hsign fun hmem => ?_
    obtain ⟨d, hd, rfl⟩ := List.mem_map.mp hmem
    have hdigit := (digit_toUInt8 (Decimal.isDigit_of_mem_decimal hd)).1
    rcases hc with h0 | h26
    · rw [h0] at hdigit
      exact absurd hdigit (by decide)
    · rw [h26] at hdigit
      exact absurd hdigit (by decide)
  | .table fields, h =>
    not_mem_tableText hc (level + 1) (Fields.not_mem_lines hc (level + 1) fields h)

/-- **Characters of the text come from the strings**, those that end a C string or a file. -/
theorem Fields.not_mem_lines (hc : c = 0 ∨ c = 26) (level : Nat) :
    ∀ fields : Fields, fields.All (c ∉ ·) → ∀ l ∈ fields.lines level, c ∉ l
  | .nil, _, _, hl => absurd hl (List.not_mem_nil)
  | .cons k v rest, h, l, hl => by
    rcases List.mem_cons.mp hl with rfl | hl
    · exact not_mem_line hc h.1 (Value.not_mem_text hc level v h.2.1)
    · exact Fields.not_mem_lines hc level rest h.2.2 l hl

end

end Foreign

/-! ## Text mode -/

theorem textMode_append {s : List UInt8} (h13 : 13 ∉ s) (h26 : 26 ∉ s) (rest : List UInt8) :
    textMode (s ++ rest) = s ++ textMode rest := by
  induction s with
  | nil => rfl
  | cons c s ih =>
    rw [List.mem_cons, not_or] at h13 h26
    rw [List.cons_append, textMode, if_neg (Ne.symm h26.1), if_neg fun h => h13.1 h.1.symm,
      ih h13.2 h26.2, List.cons_append]

theorem textMode_crlf (rest : List UInt8) : textMode ([13, 10] ++ rest) = 10 :: textMode rest := by
  rw [List.cons_append, textMode, if_neg (by decide), if_pos ⟨rfl, rfl⟩]
  exact textMode_append (s := [10]) (by decide) (by decide) rest

theorem head_textMode {c : UInt8} {rest : List UInt8} (h : c ∈ (textMode rest).head?) :
    rest.head? = some c ∨ rest.head? = some 13 := by
  cases rest with
  | nil => cases h
  | cons d rest =>
    rw [textMode] at h
    split_ifs at h with h26 h13
    · cases h
    · exact Or.inr (congrArg some h13.1)
    · exact Or.inl h

/-- The tokens of a file that is read in text mode. -/
def FileReads (text : List UInt8) (ts : List Token) : Prop := Reads (textMode text) ts

section FileReads

variable {rest : List UInt8} {ts : List Token}

theorem FileReads.crlf (h : FileReads rest ts)
    (hhead : ∀ c ∈ rest.head?, isNewline c = false) : FileReads ([13, 10] ++ rest) ts := by
  have := Reads.newline h fun c hc => by
    rcases head_textMode hc with hc | hc
    · exact hhead c hc
    · exact absurd (hhead 13 hc) (by decide)
  rwa [FileReads, textMode_crlf]

theorem FileReads.lead (h : FileReads rest ts) (level : Nat) :
    FileReads (tabs level ++ rest) ts := by
  induction level with
  | zero => exact h
  | succ level ih =>
    have := Reads.space (c := 9) (by decide) ih
    rwa [← List.singleton_append, ← textMode_append (by decide) (by decide)] at this

theorem FileReads.char {c : UInt8} (hc : c ∈ [123, 125, 93, 44, 40, 41]) (h : FileReads rest ts) :
    FileReads ([c] ++ rest) (.char c :: ts) := by
  have hmem : c = 123 ∨ c = 125 ∨ c = 93 ∨ c = 44 ∨ c = 40 ∨ c = 41 := by
    simpa using hc
  have hother : ∀ d, d ∉ [123, 125, 93, 44, 40, 41] → d ∉ [c] := fun d hd h =>
    hd (List.mem_singleton.mp h ▸ hc)
  rw [FileReads, textMode_append (hother 13 (by decide)) (hother 26 (by decide))]
  exact Reads.char hc h

theorem not_mem_escaped_cr (s : List UInt8) : 13 ∉ escaped s := by
  rw [escaped_eq, List.mem_flatMap]
  rintro ⟨d, -, hmem⟩
  unfold escapeChar at hmem
  split_ifs at hmem with h92 h13 h10
  · exact absurd hmem (by decide)
  · exact absurd hmem (by decide)
  · exact absurd hmem (by decide)
  · exact h13 (List.mem_singleton.mp hmem).symm

theorem FileReads.string {s : List UInt8} (h34 : 34 ∉ s) (h26 : 26 ∉ s) (h : FileReads rest ts) :
    FileReads ([34] ++ escaped s ++ [34] ++ rest) (.string s :: ts) := by
  have hcr : 13 ∉ [34] ++ escaped s ++ [34] :=
    List.not_mem_append (List.not_mem_append (by decide) (not_mem_escaped_cr s)) (by decide)
  have hsub : 26 ∉ [34] ++ escaped s ++ [34] := List.not_mem_append
    (List.not_mem_append (by decide) (not_mem_escaped (by decide) h26)) (by decide)
  rw [FileReads, textMode_append hcr hsub, escaped_eq, List.append_assoc, List.append_assoc]
  exact Reads.string h34 h

theorem equals_text : ascii " = ".toList = [32, 61, 32] := by decide

theorem FileReads.equals (h : FileReads rest ts) :
    FileReads (ascii " = ".toList ++ rest) (.char 61 :: ts) := by
  have hafter : Reads (32 :: textMode rest) ts := Reads.space (Or.inl rfl) h
  rw [FileReads, equals_text, textMode_append (by decide) (by decide)]
  exact Reads.space (Or.inl rfl) (Reads.equals (fun hhead => by cases hhead) hafter)

theorem FileReads.key {s : List UInt8} (h34 : 34 ∉ s) (h26 : 26 ∉ s) (h : FileReads rest ts) :
    FileReads ([91, 34] ++ escaped s ++ [34, 93] ++ ascii " = ".toList ++ rest)
      ((Key.string s).tokens ++ ts) := by
  have hstring := FileReads.string h34 h26 (FileReads.char (c := 93) (by decide) h.equals)
  have hbracket : FileReads ([91] ++ ([34] ++ escaped s ++ [34] ++ ([93] ++
      (ascii " = ".toList ++ rest)))) (.char 91 :: .string s :: .char 93 :: .char 61 :: ts) := by
    rw [FileReads, textMode_append (s := [91]) (by decide) (by decide)]
    simp only [List.append_assoc] at hstring ⊢
    rw [FileReads, textMode_append (s := [34]) (by decide) (by decide)] at hstring
    rw [textMode_append (s := [34]) (by decide) (by decide)]
    exact Reads.bracket (by decide) (by decide) hstring
  simpa [Key.tokens] using hbracket

/-- A word in front of a comma, a space or a parenthesis. -/
theorem FileReads.word {c e : UInt8} {s : List UInt8} (hc : lislalpha c = true)
    (hs : s.all lislalnum = true) (h13 : 13 ∉ c :: s) (h26 : 26 ∉ c :: s)
    (he : e ∈ [44, 32, 40, 41]) (h : FileReads ([e] ++ rest) ts) :
    FileReads (c :: s ++ ([e] ++ rest)) (nameToken (c :: s) :: ts) := by
  have hmem : e = 44 ∨ e = 32 ∨ e = 40 ∨ e = 41 := by
    simpa using he
  have hsplit : textMode ([e] ++ rest) = e :: textMode rest := by
    rcases hmem with rfl | rfl | rfl | rfl <;> exact textMode_append (by decide) (by decide) rest
  have hend : lislalnum e = false := by
    rcases hmem with rfl | rfl | rfl | rfl <;> rfl
  rw [FileReads, hsplit] at h
  rw [FileReads, textMode_append h13 h26, hsplit]
  exact Reads.word hc (List.all_eq_true.mp hs) (fun d hd => by rwa [← Option.some.inj hd]) h

theorem FileReads.number (n : Number) (h : FileReads ([44] ++ rest) ts) :
    FileReads (numberText n ++ ([44] ++ rest)) ((Value.number n).tokens ++ ts) := by
  obtain ⟨c, s, hdigits, hc, hs, hvalue⟩ := digits_of_decimal n.1.natAbs
  have hother : ∀ d, lisdigit d = false → d ∉ c :: s := by
    intro d hd hmem
    rcases List.mem_cons.mp hmem with rfl | hmem
    · exact Bool.false_ne_true (hd.symm.trans hc)
    · exact Bool.false_ne_true (hd.symm.trans (hs d hmem))
  have hnumeral : FileReads (c :: s ++ ([44] ++ rest)) (.number n.1.natAbs :: ts) := by
    rw [FileReads, textMode_append (by decide) (by decide)] at h
    rw [FileReads, textMode_append (hother 13 rfl) (hother 26 rfl),
      textMode_append (by decide) (by decide), ← hvalue]
    exact Reads.numeral hc hs (fun d hd => by rw [← Option.some.inj hd]; rfl) h
  rw [numberText, hdigits, Value.tokens]
  split_ifs with hneg
  · rw [List.append_assoc, FileReads, textMode_append (by decide) (by decide)]
    refine Reads.minus (fun hhead => ?_) hnumeral
    rcases head_textMode hhead with h45 | h13
    · rw [Option.some.inj h45] at hc
      exact absurd hc (by decide)
    · rw [Option.some.inj h13] at hc
      exact absurd hc (by decide)
  · exact hnumeral

theorem FileReads.brace {c : UInt8} (hc : c ∈ [123, 125]) (level : Nat) (h : FileReads rest ts) :
    FileReads ([13, 10] ++ (tabs level ++ ([c] ++ rest))) (.char c :: ts) := by
  have hmem : c = 123 ∨ c = 125 := by simpa using hc
  refine FileReads.crlf (FileReads.lead (FileReads.char ?_ h) level) fun d hd => ?_
  · rcases hmem with rfl | rfl <;> decide
  · cases level with
    | zero =>
      rw [← Option.some.inj hd]
      rcases hmem with rfl | rfl <;> rfl
    | succ level =>
      rw [← Option.some.inj hd]
      rfl

theorem FileReads.table {fields : List (List UInt8)} {us : List Token} {level : Nat}
    (hfields : ∀ {rest ts}, FileReads rest ts →
      FileReads (fields.flatMap ([13, 10] ++ tabs (level + 1) ++ ·) ++ rest) (us ++ ts))
    (h : FileReads rest ts) :
    FileReads (tableText (level + 1) fields ++ rest) (.char 123 :: (us ++ .char 125 :: ts)) := by
  have hclose : FileReads ([13, 10] ++ (tabs level ++ ([125] ++ rest))) (.char 125 :: ts) :=
    FileReads.brace (by decide) level h
  have hopen := FileReads.brace (c := 123) (by decide) level (hfields hclose)
  rw [tableText, concat_cons, Nat.add_sub_cancel]
  simpa only [List.append_assoc] using hopen

end FileReads

/-- A string that is read as it was. -/
def Clean (s : List UInt8) : Prop := 34 ∉ s ∧ 0 ∉ s ∧ 26 ∉ s

mutual

theorem Value.All.mono {p q : List UInt8 → Prop} (hpq : ∀ s, p s → q s) :
    ∀ v : Value, v.All p → v.All q
  | .string s, h => hpq s h
  | .boolean _, _ => trivial
  | .number _, _ => trivial
  | .table fields, h => Fields.All.mono hpq fields h

theorem Fields.All.mono {p q : List UInt8 → Prop} (hpq : ∀ s, p s → q s) :
    ∀ fields : Fields, fields.All p → fields.All q
  | .nil, _ => trivial
  | .cons (.string s) v rest, h =>
    ⟨hpq s h.1, Value.All.mono hpq v h.2.1, Fields.All.mono hpq rest h.2.2⟩
  | .cons (.number _) v rest, h =>
    ⟨trivial, Value.All.mono hpq v h.2.1, Fields.All.mono hpq rest h.2.2⟩

end

theorem line_eq {k : Key} {vv : List UInt8} (hk : k.All (0 ∉ ·)) (hvv : 0 ∉ vv) :
    line k vv = (match k with
      | .string s => [91, 34] ++ escaped s ++ [34, 93] ++ ascii " = ".toList
      | .number _ => []) ++ (vv ++ [44]) := by
  cases k with
  | number i => rw [line, formatS_eq hvv, List.nil_append]
  | string s =>
    have hkey : 0 ∉ [91, 34] ++ escaped s ++ [34, 93] := List.not_mem_append
      (List.not_mem_append (by decide) (not_mem_escaped (by decide) hk)) (by decide)
    rw [line, formatS_eq hvv, formatS_eq hkey]
    simp only [List.append_assoc]

mutual

theorem Value.fileReads {rest : List UInt8} {ts : List Token} (level : Nat) :
    ∀ v : Value, v.All Clean → FileReads ([44] ++ rest) ts →
      FileReads (v.text level ++ ([44] ++ rest)) (v.tokens ++ ts)
  | .string s, h, hrest => FileReads.string h.1 h.2.2 hrest
  | .boolean true, _, hrest => FileReads.word (c := 116) (s := [114, 117, 101]) (by decide)
      (by decide) (by decide) (by decide) (by decide) hrest
  | .boolean false, _, hrest => FileReads.word (c := 102) (s := [97, 108, 115, 101]) (by decide)
      (by decide) (by decide) (by decide) (by decide) hrest
  | .number n, _, hrest => FileReads.number n hrest
  | .table fields, h, hrest => by
    have := FileReads.table (fun h' => Fields.fileReads level fields h h') hrest
    rw [Value.text, Value.tokens]
    simpa using this

theorem Fields.fileReads {rest : List UInt8} {ts : List Token} (level : Nat) :
    ∀ fields : Fields, fields.All Clean → FileReads rest ts →
      FileReads ((fields.lines (level + 1)).flatMap ([13, 10] ++ tabs (level + 1) ++ ·) ++ rest)
        (fields.tokens ++ ts)
  | .nil, _, hrest => hrest
  | .cons k v fields, h, hrest => by
    have hzero : 0 ∉ v.text (level + 1) := Value.not_mem_text (Or.inl rfl) _ v
      (Value.All.mono (fun s hs => hs.2.1) v h.2.1)
    have hcomma := FileReads.char (c := 44) (by decide) (Fields.fileReads level fields h.2.2 hrest)
    have hvalue := Value.fileReads (level + 1) v h.2.1 hcomma
    rw [Fields.lines, List.flatMap_cons, Fields.tokens]
    cases k with
    | number i =>
      rw [line_eq (k := .number i) trivial hzero]
      have := (FileReads.lead hvalue (level + 1)).crlf fun c hc => by
        rw [← Option.some.inj hc]
        rfl
      simpa [Key.tokens] using this
    | string s =>
      rw [line_eq (k := .string s) h.1.2.1 hzero]
      have hkey := FileReads.key h.1.1 h.1.2.2 hvalue
      have := (FileReads.lead hkey (level + 1)).crlf fun c hc => by
        rw [← Option.some.inj hc]
        rfl
      simpa [Key.tokens] using this

end

theorem FileReads.mergeCall :
    FileReads (ascii "\r\nmerge_table(setting, tmpsetting)\r\n".toList) mergeCall := by
  have hend : FileReads [41, 13, 10] [.char 41] :=
    FileReads.char (by decide) (FileReads.crlf reads_nil (by simp))
  have htmp := FileReads.word (c := 116) (s := [109, 112, 115, 101, 116, 116, 105, 110, 103])
    (by decide) (by decide) (by decide) (by decide) (by decide) hend
  have hspace : FileReads (32 :: ascii "tmpsetting)\r\n".toList) [.name tmpsetting, .char 41] :=
    Reads.space (Or.inl rfl) htmp
  have hcomma := FileReads.char (c := 44) (by decide) hspace
  have hsetting := FileReads.word (c := 115) (s := [101, 116, 116, 105, 110, 103])
    (by decide) (by decide) (by decide) (by decide) (by decide) hcomma
  have hparen := FileReads.char (c := 40) (by decide) hsetting
  have hmerge := FileReads.word (c := 109)
    (s := [101, 114, 103, 101, 95, 116, 97, 98, 108, 101])
    (by decide) (by decide) (by decide) (by decide) (by decide) hparen
  exact FileReads.crlf hmerge fun c hc => by
    rw [← Option.some.inj hc]
    rfl

/-- **The file is read as the assignment of the table and the call of `merge_table`.** -/
theorem saveSettings_reads {t : Fields} (h : t.All Clean) :
    Reads (textMode (writeConfigFile (saveSettings t)))
      (.name tmpsetting :: .char 61 :: (Value.table t).tokens ++ mergeCall) := by
  have hzero : 0 ∉ saveSettings t := by
    have := not_mem_tableText (Or.inl rfl) 1
      (Fields.not_mem_lines (Or.inl rfl) 1 t (Fields.All.mono (fun s hs => hs.2.1) t h))
    exact List.not_mem_append (List.not_mem_append (by decide) this) (by decide)
  have htable := @FileReads.table _ _ _ _ 0 (fun h' => Fields.fileReads 0 t h h')
    FileReads.mergeCall
  have hequals := htable.equals
  rw [equals_text] at hequals
  have hname : FileReads (116 :: [109, 112, 115, 101, 116, 116, 105, 110, 103] ++ ([32] ++
      ([61, 32] ++ (tableText 1 (t.lines 1) ++
        ascii "\r\nmerge_table(setting, tmpsetting)\r\n".toList))))
      (.name tmpsetting :: .char 61 :: .char 123 :: (t.tokens ++ .char 125 :: mergeCall)) :=
    FileReads.word (by decide) (by decide) (by decide) (by decide) (by decide) hequals
  have hassign : ascii "tmpsetting = ".toList
      = 116 :: [109, 112, 115, 101, 116, 116, 105, 110, 103] ++ ([32] ++ [61, 32]) := by decide
  rw [writeConfigFile, takeWhile_ne_zero hzero, saveSettings, formatTable, hassign, Value.tokens,
    List.append_assoc, List.append_assoc, List.append_assoc]
  simpa only [FileReads, List.cons_append, List.append_assoc, List.nil_append] using hname

end DWindow.Lua
