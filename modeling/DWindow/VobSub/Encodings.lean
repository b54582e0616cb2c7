import DWindow.Lib.Fallible
import DWindow.VobSub.Parser

/-!
# Index files in several encodings

An index text is stored in UTF-8 or in UTF-16 of either byte order, each with its mark, and
with line feeds or with carriage returns in front of them.  `alike_iff` says for which texts
the parser gets the same from all six files.
-/

namespace DWindow.VobSub

open CInt WString Scanf Utf

def IsNewline (b : UInt8) : Prop := b = 10 ∨ b = 13

instance (b : UInt8) : Decidable (IsNewline b) := inferInstanceAs (Decidable (_ ∨ _))

/-- A text: its lines, and what follows the last line end.  They have no zeros, line ends and
surrogates, and they fit the buffer for a line. -/
structure IndexText where
  lines : List (List UInt16)
  rest : List UInt16
  isText : ∀ l ∈ rest :: lines, ∀ c ∈ l,
    c ≠ 0 ∧ c ≠ 10 ∧ c ≠ 13 ∧ ¬(0xd800 ≤ c ∧ c ≤ 0xdfff)
  short : ∀ l ∈ rest :: lines, (l.flatMap utf8).length < 1024

inductive Encoding
  | utf8
  | utf16le
  | utf16be
deriving DecidableEq, Repr

inductive LineEnd
  | lf
  | crlf
deriving DecidableEq, Repr

def Encoding.bom : Encoding → List UInt8
  | .utf8 => [0xef, 0xbb, 0xbf]
  | .utf16le => [0xff, 0xfe]
  | .utf16be => [0xfe, 0xff]

def Encoding.encode : Encoding → UInt16 → List UInt8
  | .utf8 => Utf.utf8
  | .utf16le => Utf.utf16le
  | .utf16be => Utf.utf16be

def LineEnd.chars : LineEnd → List UInt16
  | .lf => [10]
  | .crlf => [13, 10]

namespace IndexText

def chars (text : IndexText) (lineEnd : LineEnd) : List UInt16 :=
  text.lines.flatMap (· ++ lineEnd.chars) ++ text.rest

def store (text : IndexText) (encoding : Encoding) (lineEnd : LineEnd) : List UInt8 :=
  encoding.bom ++ (text.chars lineEnd).flatMap encoding.encode

end IndexText

structure Settings where
  palette : List Nat
  customPalette : List Nat
  useCustomColor : Bool
  width : Int
  height : Int
  maxLangId : Int
  subtitles : List Subtitle
deriving DecidableEq, Repr

def VobSubParser.settings (p : VobSubParser) : Settings :=
  ⟨p.mOrgpal, p.mCuspal, p.mUseCustomColor, p.mTotalWidth, p.mTotalHeight, p.mMaxLangId,
    p.mSubtitles⟩

/-- All six files lead any parser to the same settings, whatever the code pages, and of each
every byte is taken once and none behind its end is read. -/
def IndexText.Alike (text : IndexText) : Prop :=
  ∀ (w : World) (p : VobSubParser) (langId : Int), ∃ settings : Settings,
    ∀ encoding lineEnd, ∃ l, loadFile w p langId (text.store encoding lineEnd) = some l ∧
      l.parser.settings = settings ∧ l.first + l.count = (text.store encoding lineEnd).length

/-- A text of which no file has a line: there is no line end and nothing that looks like one
byte by byte, and the first character keeps the files in UTF-16 from being known as such. -/
def IndexText.Untouched (text : IndexText) : Prop :=
  text.lines = [] ∧ (∃ c, text.rest.head? = some c ∧ low c = 0) ∧
    ∀ c ∈ text.rest, ¬IsNewline (low c) ∧ ¬IsNewline (high c)

variable {w : World}

/-! ## Marks -/

theorem store_eq {text : IndexText} {lineEnd : LineEnd} {c : UInt16} {cs : List UInt16}
    (h : text.chars lineEnd = c :: cs) (encoding : Encoding) :
    text.store encoding lineEnd =
      encoding.bom ++ (encoding.encode c ++ cs.flatMap encoding.encode) := by
  rw [IndexText.store, h, List.flatMap_cons]

theorem mark_utf8 (text : IndexText) (lineEnd : LineEnd) :
    mark (text.store .utf8 lineEnd) = some .utf8 := rfl

theorem mark_utf16le {text : IndexText} {lineEnd : LineEnd} {c : UInt16} {cs : List UInt16}
    (h : text.chars lineEnd = c :: cs) : mark (text.store .utf16le lineEnd) =
      some (if low c ≠ 0 then .utf16le else .unknown) := by
  rw [store_eq h]
  rfl

theorem mark_utf16be {text : IndexText} {lineEnd : LineEnd} {c : UInt16} {cs : List UInt16}
    (h : text.chars lineEnd = c :: cs) : mark (text.store .utf16be lineEnd) =
      some (if low c ≠ 0 then .utf16be else .unknown) := by
  rw [store_eq h]
  rfl

theorem length_units : ∀ bytes : List UInt8, (VobSubParser.units bytes).length ≤ bytes.length / 2
  | [] => Nat.zero_le _
  | [_] => Nat.zero_le _
  | _ :: _ :: bytes => by
    rw [VobSubParser.units, List.length_cons, List.length_cons, List.length_cons]
    have ih := length_units bytes
    omega

/-- **A file known as big-endian** is read past its end. -/
theorem loadFile_utf16be (p : VobSubParser) (langId : Int) {data : List UInt8}
    (h : mark data = some .utf16be) (hlength : 2 < data.length) :
    loadFile w p langId data = none := by
  have hpast : (VobSubParser.units (data.drop 2)).length < (data.drop 2).length := by
    have hunits := length_units (data.drop 2)
    rw [List.length_drop] at hunits ⊢
    omega
  rw [loadFile, h, Option.bind_some, VobSubParser.handleData16]
  dsimp only
  rw [if_pos rfl, if_pos hpast]
  rfl

theorem loadFile_unknown (p : VobSubParser) (langId : Int) {data : List UInt8}
    (h : mark data = some .unknown) : loadFile w p langId data =
      ((p.start langId).handleData8 w .acp data).map fun r => ⟨r, 0, data.length⟩ := by
  rw [loadFile, h, Option.bind_some]

theorem loadFile_utf8 (p : VobSubParser) (langId : Int) {data : List UInt8}
    (h : mark data = some .utf8) : loadFile w p langId data =
      ((p.start langId).handleData8 w .utf8 (data.drop 3)).map fun r =>
        ⟨r, 3, (data.drop 3).length⟩ := by
  rw [loadFile, h, Option.bind_some]

/-! ## Bytes without line ends -/

theorem feed8_plain (codePage : CodePage) (p : VobSubParser) (line : List UInt8) {b : UInt8}
    (hb : ¬IsNewline b) : VobSubParser.feed8 w codePage (line, p) b =
      some (if line.length < 1024 then line ++ [b] else [], p) := by
  rw [IsNewline, not_or] at hb
  rw [VobSubParser.feed8]
  by_cases hline : line.length < 1024
  · rw [if_pos ⟨hb.1, hb.2, hline⟩, if_pos hline]
  · rw [if_neg fun h => hline h.2.2, if_neg (not_or.mpr hb), if_neg hline]

/-- **Without line ends nothing is handled.** -/
theorem foldlM_feed8_plain (codePage : CodePage) (p : VobSubParser) : ∀ (bytes line : List UInt8),
    (∀ b ∈ bytes, ¬IsNewline b) → ∃ line',
      bytes.foldlM (VobSubParser.feed8 w codePage) (line, p) = some (line', p) ∧
        (line.length + bytes.length ≤ 1024 → line' = line ++ bytes) := by
  intro bytes
  induction bytes with
  | nil =>
    intro line _
    exact ⟨line, rfl, fun _ => (List.append_nil line).symm⟩
  | cons b bytes ih =>
    intro line h
    rw [List.forall_mem_cons] at h
    obtain ⟨line', hfold, hline'⟩ := ih (if line.length < 1024 then line ++ [b] else []) h.2
    refine ⟨line', ?_, fun hle => ?_⟩
    · rw [List.foldlM_cons, feed8_plain codePage p line h.1, Option.bind_eq_bind, Option.bind_some,
        hfold]
    · rw [List.length_cons] at hle
      have hlt : line.length < 1024 := by omega
      rw [if_pos hlt] at hline'
      rw [hline' (by rw [List.length_append, List.length_singleton]; omega), List.append_assoc,
        List.singleton_append]

theorem handleData8_plain (codePage : CodePage) (p : VobSubParser) {bytes : List UInt8}
    (h : ∀ b ∈ bytes, ¬IsNewline b) : p.handleData8 w codePage bytes = some p := by
  obtain ⟨line', hfold, -⟩ := foldlM_feed8_plain (w := w) codePage p bytes [] h
  rw [VobSubParser.handleData8, hfold]
  rfl

/-- What is left of the bytes in front of a line end: the buffer holds 1024, and the byte
behind them is lost with them. -/
def buffered (bytes : List UInt8) : List UInt8 :=
  if bytes.length < 1024 then bytes else bytes.drop 1025

/-- The line that `handle_line` gets of them. -/
def lineOf (w : World) (codePage : CodePage) (bytes : List UInt8) : List UInt16 :=
  wcstrim 32 (cstr (w.multiByteToWideChar codePage (bytes.takeWhile (· ≠ 0))))

/-- **The first line end.** -/
theorem handleData8_newline (codePage : CodePage) (p : VobSubParser) {bytes : List UInt8}
    {b : UInt8} (rest : List UInt8) (h : ∀ b ∈ bytes, ¬IsNewline b) (hb : IsNewline b)
    (hlength : bytes.length ≤ 2048) :
    p.handleData8 w codePage (bytes ++ b :: rest) =
      if bytes.length = 1024 then none
      else (p.handleLine w (lineOf w codePage (buffered bytes))).bind fun q =>
        q.handleData8 w codePage rest := by
  have hnewline : ∀ line, VobSubParser.feed8 w codePage (line, p) b =
      if line.length < 1024 then
        (p.handleLine w (lineOf w codePage line)).map fun q => ([], q)
      else none := by
    intro line
    have hb' : b = 10 ∨ b = 13 := hb
    rw [VobSubParser.feed8, if_neg fun h => hb'.elim h.1 h.2.1, if_pos hb']
    rfl
  -- what the loop has in the buffer at the line end
  have hbuffer : bytes.foldlM (VobSubParser.feed8 w codePage) ([], p) =
      some (if bytes.length ≤ 1024 then bytes else bytes.drop 1025, p) := by
    by_cases hle : bytes.length ≤ 1024
    · obtain ⟨line', hfold, hline'⟩ := foldlM_feed8_plain (w := w) codePage p bytes [] h
      rw [hfold, hline' (by rw [List.length_nil, Nat.zero_add]; exact hle), if_pos hle,
        List.nil_append]
    · have hsplit : bytes = bytes.take 1024 ++ bytes[1024] :: bytes.drop 1025 := by
        rw [List.getElem_cons_drop, List.take_append_drop]
      obtain ⟨line₁, hfold₁, hline₁⟩ := foldlM_feed8_plain (w := w) codePage p (bytes.take 1024) []
        fun b hb => h b (List.mem_of_mem_take hb)
      obtain ⟨line₂, hfold₂, hline₂⟩ := foldlM_feed8_plain (w := w) codePage p (bytes.drop 1025) []
        fun b hb => h b (List.mem_of_mem_drop hb)
      have hlength₁ : line₁.length = 1024 := by
        rw [hline₁ (by rw [List.length_nil, List.length_take]; omega), List.nil_append,
          List.length_take]
        omega
      rw [if_neg hle]
      nth_rewrite 1 [hsplit]
      rw [List.foldlM_append, hfold₁, Option.bind_eq_bind, Option.bind_some, List.foldlM_cons,
        feed8_plain codePage p line₁ (h _ (List.getElem_mem _)), if_neg (by omega),
        Option.bind_eq_bind, Option.bind_some, hfold₂,
        hline₂ (by rw [List.length_nil, List.length_drop]; omega), List.nil_append]
  rw [VobSubParser.handleData8, List.foldlM_append, hbuffer, Option.bind_eq_bind,
    Option.bind_some, List.foldlM_cons, hnewline, buffered]
  by_cases heq : bytes.length = 1024
  · rw [if_pos heq, if_pos heq.le, if_neg (by omega)]
    rfl
  · rw [if_neg heq]
    by_cases hlt : bytes.length < 1024
    · rw [if_pos hlt, if_pos hlt.le, if_pos hlt]
      cases p.handleLine w (lineOf w codePage bytes) with
      | none => rfl
      | some q => rfl
    · have hgt : ¬bytes.length ≤ 1024 := by omega
      rw [if_neg hlt, if_neg hgt, if_pos (by rw [List.length_drop]; omega)]
      cases p.handleLine w (lineOf w codePage (bytes.drop 1025)) with
      | none => rfl
      | some q => rfl

end DWindow.VobSub
