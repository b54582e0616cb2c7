import Mathlib.Data.Bool.AllAny
import DWindow.Http.Redirect

/-!
# What a server answers

The answer to a request for a file: a status line and header lines, and behind them the file,
from its first byte on (200) or from the byte that the `Range` line of the request asks for
(206).  The server may put the body into a coding, such as chunks, which `httppost` does not
undo, and the connection may end in the middle of it.
-/

namespace DWindow.Http

open CInt CString WString Decimal

/-! ## Requests for a range -/

def World.Converts (w : World) : Prop :=
  ∀ text : List UInt16, (∀ c ∈ text, 0 < c ∧ c < 128) →
    w.w2utf8 text = text.map UInt16.toUInt8 ∧ w.utf82w (text.map UInt16.toUInt8) = text

def HttpPost.addHeader (p : HttpPost) (name value : List UInt16) : HttpPost :=
  { p with mRequestHeaders := p.mRequestHeaders ++ [(name, value)] }

/-- The byte that the `Range` line of a request asks for. -/
def rangeStart (lines : List (List UInt8)) : Option Nat :=
  lines.findSome? fun line =>
    if ascii "Range: bytes=".toList <+: line then
      (scanInt ((line.drop 13).map UInt8.toUInt16)).map fun r => r.1.toNat
    else none

/-! ## Codings -/

/-- A coding of the body whose streams are not empty and never begin with some byte. -/
structure Coding where
  wire : List UInt8 → List UInt8
  never : UInt8
  head_ne : ∀ body, ∃ b ∈ (wire body).head?, b ≠ never

def hex (n : Nat) : List UInt8 :=
  if n = 0 then [hexDigit 0] else (Nat.digits 16 n).reverse.map hexDigit

def chunk (data : List UInt8) : List UInt8 := hex data.length ++ (crlf ++ data ++ crlf)

/-- The body in chunks of these sizes, the rest in one. -/
def chunks : List Nat → List UInt8 → List UInt8
  | [], body => if body = [] then [] else chunk body
  | size :: sizes, body =>
    if body.take size = [] then chunks sizes (body.drop size)
    else chunk (body.take size) ++ chunks sizes (body.drop size)

def chunkedWire (sizes : List Nat) (body : List UInt8) : List UInt8 :=
  chunks sizes body ++ chunk []

theorem hexDigit_ne_zero : ∀ d < 16, hexDigit d ≠ 0 := by decide

theorem head_hex (n : Nat) (rest : List UInt8) : ∃ b ∈ (hex n ++ rest).head?, b ≠ 0 := by
  have hhead : hex n ≠ [] ∧ ∀ b ∈ hex n, b ≠ 0 := by
    rw [hex]
    by_cases hn : n = 0
    · rw [if_pos hn]
      exact ⟨List.cons_ne_nil _ _, List.all_iff_forall_prop.mp (by decide)⟩
    · rw [if_neg hn]
      refine ⟨fun hnil => ?_, fun b hb => ?_⟩
      · rw [List.map_eq_nil_iff, List.reverse_eq_nil_iff] at hnil
        exact Nat.digits_ne_nil_iff_ne_zero.mpr hn hnil
      · obtain ⟨d, hd, rfl⟩ := List.mem_map.mp hb
        exact hexDigit_ne_zero d (Nat.digits_lt_base (by decide) (List.mem_reverse.mp hd))
  obtain ⟨b, l, hbl⟩ := List.exists_cons_of_ne_nil hhead.1
  exact ⟨b, by rw [hbl]; rfl, hhead.2 b (by rw [hbl]; exact List.mem_cons_self ..)⟩

theorem chunkedWire_eq : ∀ (sizes : List Nat) (body : List UInt8),
    ∃ n rest, chunkedWire sizes body = hex n ++ rest := by
  intro sizes
  induction sizes with
  | nil =>
    intro body
    rw [chunkedWire, chunks]
    split
    · exact ⟨_, _, rfl⟩
    · exact ⟨_, _, List.append_assoc ..⟩
  | cons size sizes ih =>
    intro body
    rw [chunkedWire, chunks]
    split
    · exact ih _
    · rw [List.append_assoc]
      exact ⟨_, _, List.append_assoc ..⟩

def chunked (sizes : List Nat) : Coding where
  wire := chunkedWire sizes
  never := 0
  head_ne body := by
    obtain ⟨n, rest, h⟩ := chunkedWire_eq sizes body
    rw [h]
    exact head_hex n rest

/-! ## Answers -/

/-- An answer with the file: 206 or 200, what stands behind the number in the status line,
the header lines, the coding, and how many bytes of the body come before the connection
ends. -/
structure Answer where
  partialContent : Bool
  reason : List UInt8
  fields : List (List UInt8)
  coding : Option Coding
  delivered : Nat
  oneLine : ∀ line ∈ reason :: fields, (10 : UInt8) ∉ line
  notBlank : ∀ line ∈ fields, line ≠ []

namespace Answer

def lines (a : Answer) : List (List UInt8) :=
  (ascii (if a.partialContent then "HTTP/1.1 206 " else "HTTP/1.1 200 ").toList ++ a.reason) ::
    a.fields

theorem oneLine_notBlank (a : Answer) {line : List UInt8} (h : line ∈ a.lines) :
    (10 : UInt8) ∉ line ∧ line ≠ [] := by
  rcases List.mem_cons.mp h with rfl | h
  · have hreason := a.oneLine _ (List.mem_cons_self ..)
    rw [List.mem_append, not_or]
    split
    · exact ⟨⟨by decide, hreason⟩, List.cons_ne_nil _ _⟩
    · exact ⟨⟨by decide, hreason⟩, List.cons_ne_nil _ _⟩
  · exact ⟨a.oneLine _ (List.mem_cons_of_mem _ h), a.notBlank _ h⟩

/-- The byte of the file that the body begins with. -/
def start (a : Answer) (request : List (List UInt8)) : Nat :=
  if a.partialContent then (rangeStart request).getD 0 else 0

def body (a : Answer) (request : List (List UInt8)) (file : List UInt8) : List UInt8 :=
  (match a.coding with
    | none => file.drop (a.start request)
    | some coding => coding.wire (file.drop (a.start request))).take a.delivered

def stream (a : Answer) (request : List (List UInt8)) (file : List UInt8) : List UInt8 :=
  a.lines.flatMap (· ++ crlf) ++ crlf ++ a.body request file

end Answer

/-! ## Reading the header -/

/-- The response code that `send_request` makes of some lines. -/
def codeOf (w : World) (lines : List (List UInt8)) : Int :=
  lines.foldl (fun code line =>
    match parseLine w line with
    | .status c => c.getD code
    | _ => code) 400

theorem foldl_handleLine_code (w : World) : ∀ (lines : List (List UInt8))
    (s : HttpPost × Int × Option (List UInt16)),
    (lines.foldl (HttpPost.handleLine w) s).2.1 = lines.foldl (fun code line =>
      match parseLine w line with
      | .status c => c.getD code
      | _ => code) s.2.1 := by
  intro lines
  induction lines with
  | nil => intro s; rfl
  | cons line lines ih =>
    intro s
    rw [List.foldl_cons, List.foldl_cons, ih, HttpPost.handleLine]
    cases parseLine w line with
    | status c => rfl
    | header name value => rfl
    | other => rfl

theorem parseLine_status (w : World) (a : Answer) :
    parseLine w ((ascii (if a.partialContent then "HTTP/1.1 206 " else "HTTP/1.1 200 ").toList ++
      a.reason) ++ crlf) = .status (some (if a.partialContent then 206 else 200)) := by
  have hcode : ∀ digits : List UInt8, digits = [50, 48, 54] ∨ digits = [50, 48, 48] → ∀ rest,
      parseLine w ([72, 84, 84, 80, 47, 49, 46, 49, 32] ++ (digits ++ 32 :: rest)) =
        .status (some (toInt32 (value (digits.map UInt8.toUInt16)))) := by
    intro digits hdigits rest
    have hdrop : ∀ l : List UInt8, ([72, 84, 84, 80, 47, 49, 46, 49, 32] ++ l).dropWhile (· ≠ 32) =
        32 :: l := fun _ => rfl
    have hscan : ∀ l : List UInt16, scanInt (digits.map UInt8.toUInt16 ++ 32 :: l) =
        some ((value (digits.map UInt8.toUInt16) : Int), 32 :: l) := by
      rcases hdigits with rfl | rfl
      · exact fun _ => rfl
      · exact fun _ => rfl
    have hzero : ∀ b ∈ [72, 84, 84, 80, 47, 49, 46, 49, 32] ++ (digits ++ [32]), b ≠ 0 := by
      rcases hdigits with rfl | rfl
      · exact List.all_iff_forall_prop.mp (by decide)
      · exact List.all_iff_forall_prop.mp (by decide)
    have hsplit : [72, 84, 84, 80, 47, 49, 46, 49, 32] ++ (digits ++ 32 :: rest) =
        ([72, 84, 84, 80, 47, 49, 46, 49, 32] ++ (digits ++ [32])) ++ rest := by simp
    rw [hsplit, parseLine, List.takeWhile_append_of_pos (by simpa using hzero), if_pos ⟨_, rfl⟩,
      List.append_assoc, hdrop]
    dsimp only
    have hspace : UInt8.toUInt16 32 = 32 := by decide
    rw [atoi, List.append_assoc, List.map_append, List.singleton_append, List.map_cons, hspace,
      hscan, Option.map_some, Option.getD_some]
  rw [List.append_assoc]
  cases a.partialContent with
  | true => exact (hcode [50, 48, 54] (.inl rfl) _).trans (congrArg _ (by decide))
  | false => exact (hcode [50, 48, 48] (.inr rfl) _).trans (congrArg _ (by decide))

/-- **The response code is the status**, if no other line begins like a status line. -/
theorem codeOf_lines {w : World} {a : Answer}
    (h : ∀ field ∈ a.fields, ¬ascii "HTTP".toList <+: (field ++ crlf).takeWhile (· ≠ 0)) :
    codeOf w (a.lines.map (· ++ crlf)) = if a.partialContent then 206 else 200 := by
  rw [codeOf, Answer.lines, List.map_cons, List.foldl_cons, parseLine_status]
  dsimp only [Option.getD_some]
  generalize (if a.partialContent = true then (206 : Int) else 200) = code
  generalize a.fields = fields at h
  induction fields with
  | nil => rfl
  | cons field fields ih =>
    rw [List.forall_mem_cons] at h
    rw [List.map_cons, List.foldl_cons]
    have hfield : ∀ c, parseLine w (field ++ crlf) ≠ .status c := by
      intro c hc
      rw [parseLine, if_neg h.1] at hc
      split at hc
      · cases hc
      · cases hc
    cases hparse : parseLine w (field ++ crlf) with
    | status c => exact absurd hparse (hfield c)
    | header name value => exact ih h.2
    | other => exact ih h.2
theorem readHeader_append : ∀ (text line rest : List UInt8), (10 : UInt8) ∉ text →
    line.length ≤ maxResponseSize → readHeader line (text ++ rest) =
      if line.length + text.length ≤ maxResponseSize then readHeader (line ++ text) rest
      else none := by
  intro text
  induction text with
  | nil => intro line rest _ hline; simp [hline]
  | cons c text ih =>
    intro line rest htext hline
    rw [List.mem_cons, not_or] at htext
    have hplain : ¬crlf <:+ line ++ [c] := by
      rintro ⟨t, ht⟩
      have : (10 : UInt8) = c := by simpa [crlf] using congrArg List.getLast? ht
      exact htext.1 this
    rw [List.cons_append, readHeader, if_neg hplain]
    by_cases hfull : maxResponseSize ≤ line.length
    · rw [if_pos hfull, if_neg]
      rw [List.length_cons]
      omega
    · rw [if_neg hfull, ih _ _ htext.2 (by rw [List.length_append, List.length_singleton]; omega)]
      simp only [List.length_append, List.length_cons, List.length_nil, List.append_assoc,
        List.singleton_append, Nat.add_assoc, Nat.add_comm 1]

theorem readHeader_line {text : List UInt8} (htext : (10 : UInt8) ∉ text) (rest : List UInt8) :
    readHeader [] (text ++ crlf ++ rest) = if text.length + 2 < maxResponseSize then
      if text = [] then some ([], rest)
      else (readHeader [] rest).map fun r => ((text ++ crlf) :: r.1, r.2)
    else none := by
  have hreturn : (10 : UInt8) ∉ text ++ [13] := by simpa using htext
  have hend : crlf <:+ text ++ [13] ++ [10] := ⟨text, by simp [crlf]⟩
  have hsplit : text ++ crlf ++ rest = text ++ [13] ++ (10 :: rest) := by simp [crlf]
  rw [hsplit, readHeader_append _ _ _ hreturn (Nat.zero_le _), List.length_nil, Nat.zero_add,
    List.length_append, List.length_singleton, List.nil_append]
  by_cases hfits : text.length + 2 < maxResponseSize
  · rw [if_pos (by omega), if_pos hfits, readHeader, List.length_append, List.length_singleton,
      if_neg (by omega), if_pos hend, if_neg (by omega)]
    by_cases hblank : text = []
    · rw [if_pos hblank, if_pos (by rw [hblank]; rfl)]
    · rw [if_neg hblank, if_neg]
      · simp [crlf]
      · have := List.length_pos_iff.mpr hblank
        omega
  · rw [if_neg hfits]
    by_cases hroom : text.length + 1 ≤ maxResponseSize
    · rw [if_pos hroom, readHeader, List.length_append, List.length_singleton]
      by_cases hfull : maxResponseSize ≤ text.length + 1
      · rw [if_pos hfull]
      · rw [if_neg hfull, if_pos hend, if_pos (by omega)]
    · rw [if_neg hroom]

/-- **A header is read line by line**, if they all fit. -/
theorem readHeader_lines : ∀ (lines : List (List UInt8)) (rest : List UInt8),
    (∀ line ∈ lines, (10 : UInt8) ∉ line ∧ line ≠ []) →
    readHeader [] (lines.flatMap (· ++ crlf) ++ crlf ++ rest) =
      if ∀ line ∈ lines, line.length + 2 < maxResponseSize then
        some (lines.map (· ++ crlf), rest) else none := by
  intro lines
  induction lines with
  | nil =>
    intro rest _
    rw [if_pos (fun _ h => absurd h List.not_mem_nil), List.flatMap_nil]
    exact readHeader_line List.not_mem_nil rest
  | cons line lines ih =>
    intro rest hlines
    rw [List.forall_mem_cons] at hlines
    rw [List.flatMap_cons, List.append_assoc, List.append_assoc, ← List.append_assoc _ crlf rest,
      readHeader_line hlines.1.1, ih rest hlines.2]
    simp only [List.forall_mem_cons]
    by_cases hfits : line.length + 2 < maxResponseSize
    · rw [if_pos hfits, if_neg hlines.1.2]
      by_cases hall : ∀ l ∈ lines, l.length + 2 < maxResponseSize
      · rw [if_pos hall, if_pos ⟨hfits, hall⟩]
        rfl
      · rw [if_neg hall, if_neg (fun h => hall h.2)]
        rfl
    · rw [if_neg hfits, if_neg (fun h => hfits h.1)]

/-! ## A chain of responses -/

/-- The response code of a request that no redirect follows. -/
theorem sendRequest_code {w : World} {p : HttpPost} (hp : p.mLastResponseCode < 0)
    {r : List UInt8} {n : Nat} (hr : IsFinal w r ∨ n = 0) (rs : List (List UInt8)) :
    (p.sendRequest w n (r :: rs)).map Prod.fst =
      (readHeader [] r).map fun x => codeOf w x.1 := by
  have hcode : ((p.sendBody w).receive w r).map (fun s => s.2.1) =
      (readHeader [] r).map fun x => codeOf w x.1 := by
    rw [HttpPost.receive, Option.map_map]
    refine congrArg (Option.map · _) (funext fun x => ?_)
    exact foldl_handleLine_code w x.1 _
  rw [← hcode]
  cases n with
  | zero =>
    rw [HttpPost.sendRequest, if_neg (Int.not_le.mpr hp), List.headD_cons, Option.map_map]
    rfl
  | succ n =>
    rw [HttpPost.sendRequest, if_neg (Int.not_le.mpr hp), List.headD_cons]
    obtain ⟨hnone, hsome⟩ := receive_eq w (p.sendBody w) r
    cases hheaders : responseHeaders w r with
    | none => rw [hnone hheaders]; rfl
    | some headers =>
      obtain ⟨rest, code, -, hreceive⟩ := hsome headers hheaders
      rw [hreceive, (hr.resolve_right (Nat.succ_ne_zero n)) headers hheaders]
      rfl

/-- **A request with no redirect to follow**: it has a result if the header fits, and then the
connection is behind the header and nothing has been read of the content. -/
theorem sendRequest_last {w : World} {p : HttpPost} (hp : p.mLastResponseCode < 0)
    {r : List UInt8} {n : Nat} (hr : IsFinal w r ∨ n = 0) (rs : List (List UInt8)) :
    (readHeader [] r = none → p.sendRequest w n (r :: rs) = none) ∧
    ∀ lines rest, readHeader [] r = some (lines, rest) → ∃ q,
      p.sendRequest w n (r :: rs) = some (codeOf w lines, q) ∧ q.mSock = rest ∧
        q.mContentRead = p.mContentRead := by
  have hcode := sendRequest_code hp hr rs
  obtain ⟨hnone, hsome⟩ := sendRequest_final hp hr rs
  constructor
  · intro h
    exact hnone (by rw [responseHeaders, h]; rfl)
  · intro lines rest h
    have hfits : responseHeaders w r ≠ none := by
      rw [responseHeaders, h]
      exact Option.some_ne_none _
    obtain ⟨rest', code, hrest, hsend⟩ := hsome hfits
    rw [h] at hrest hcode
    obtain rfl := Option.some.inj hrest
    rw [hsend] at hcode ⊢
    obtain rfl := Option.some.inj hcode
    exact ⟨_, rfl, rfl, rfl⟩

theorem foldl_hop_request (w : World) : ∀ (redirects : List (List UInt8)) (p : HttpPost),
    (redirects.foldl (HttpPost.hop w) p).mRequestHeaders = p.mRequestHeaders ∧
    (redirects.foldl (HttpPost.hop w) p).mFormItems = p.mFormItems := by
  intro redirects
  induction redirects with
  | nil => intro p; exact ⟨rfl, rfl⟩
  | cons r rs ih =>
    intro p
    have hheaders : (p.hop w r).mRequestHeaders = p.mRequestHeaders := by
      rw [HttpPost.hop, HttpPost.setURL]
      split
      · rfl
      · rfl
    rw [List.foldl_cons]
    exact ⟨(ih _).1.trans hheaders, (ih _).2.trans (hop_fields w p r).2.1⟩

/-! ## The range that is asked for -/

/-- `"bytes=%lld-"`. -/
def rangeText (pos : Nat) : List UInt16 :=
  wide "bytes=".toList ++ (Decimal.decimal pos ++ wide "-".toList)

theorem rangeText_ascii (pos : Nat) : ∀ c ∈ rangeText pos, 0 < c ∧ c < 128 := by
  intro c hc
  rw [rangeText, List.mem_append, List.mem_append] at hc
  obtain hc | hc | hc := hc
  · exact (List.all_iff_forall_prop (p := fun c : UInt16 => 0 < c ∧ c < 128)).mp (by decide) c hc
  · have hdigit := isDigit_of_mem_decimal hc
    rw [isDigit, Bool.and_eq_true, decide_eq_true_eq, decide_eq_true_eq] at hdigit
    have hlow : (0 : UInt16) < 48 := by decide
    have hhigh : (57 : UInt16) < 128 := by decide
    exact ⟨UInt16.lt_of_lt_of_le hlow hdigit.1, UInt16.lt_of_le_of_lt hdigit.2 hhigh⟩
  · exact (List.all_iff_forall_prop (p := fun c : UInt16 => 0 < c ∧ c < 128)).mp (by decide) c hc

theorem map_toUInt16_toUInt8 {text : List UInt16} (h : ∀ c ∈ text, 0 < c ∧ c < 128) :
    (text.map UInt16.toUInt8).map UInt8.toUInt16 = text := by
  rw [List.map_map]
  refine (List.map_congr_left fun c hc => ?_).trans (List.map_id _)
  have hlt : c.toNat < 128 := (h c hc).2
  refine UInt16.toNat_inj.mp ?_
  simp only [Function.comp_apply, UInt8.toNat_toUInt16, UInt16.toNat_toUInt8, id]
  omega

theorem not_range_append {l m : List UInt8} (h : l.head?.any (· ≠ 82) = true) :
    ¬ascii "Range: bytes=".toList <+: l ++ m := by
  intro hprefix
  cases l with
  | nil => cases h
  | cons b l =>
    have hb : (82 : UInt8) = b := (List.cons_prefix_cons.mp hprefix).1
    subst hb
    simp at h

theorem rangeLine_eq {w : World} (hw : w.Converts) (pos : Nat) :
    w.w2utf8 (wide "Range".toList) ++ ascii ": ".toList ++ w.w2utf8 (rangeText pos) =
      ascii "Range: bytes=".toList ++
        (Decimal.decimal pos ++ wide "-".toList).map UInt16.toUInt8 := by
  rw [(hw _ (List.all_iff_forall_prop.mp (by decide))).1, (hw _ (rangeText_ascii pos)).1,
    rangeText, List.map_append, ← List.append_assoc]
  exact congrArg (· ++ _) (by decide)

theorem rangeStart_append {w : World} (p : HttpPost) (behind : List (List UInt8)) :
    rangeStart (p.fixedLines w ++ behind) = rangeStart
      ((p.mRequestHeaders.map fun h => w.w2utf8 h.1 ++ ascii ": ".toList ++ w.w2utf8 h.2) ++
        behind) := by
  rw [rangeStart, rangeStart, HttpPost.fixedLines, List.append_assoc, List.findSome?_append,
    List.findSome?_eq_none_iff.mpr]
  · rfl
  · intro line hline
    refine if_neg ?_
    simp only [List.mem_cons, List.not_mem_nil, or_false, List.append_assoc] at hline
    obtain rfl | rfl | rfl | rfl | rfl | rfl | rfl | rfl := hline
    · refine not_range_append ?_
      split
      · decide
      · decide
    · exact not_range_append (by decide)
    · decide
    · exact not_range_append (by decide)
    · decide
    · decide
    · decide
    · decide

/-- A request without form items and without a line of its own asks for all. -/
theorem rangeStart_of_nil {w : World} {p : HttpPost} (hitems : p.mFormItems = [])
    (hp : p.mRequestHeaders = []) : rangeStart (p.requestLines w) = none := by
  rw [HttpPost.requestLines, rangeStart_append, hp, hitems]
  rfl

/-- **The server finds the position** that the worker asks for. -/
theorem rangeStart_requestLines {w : World} (hw : w.Converts) {p : HttpPost} {pos : Nat}
    (hp : p.mRequestHeaders = [(wide "Range".toList, rangeText pos)]) :
    rangeStart (p.requestLines w) = some pos := by
  have hpadded : padded 0 pos = Decimal.decimal pos := by
    rw [padded, Nat.zero_sub]
    rfl
  have hnumber : (((ascii "Range: bytes=".toList ++
      (Decimal.decimal pos ++ wide "-".toList).map UInt16.toUInt8).drop 13).map UInt8.toUInt16) =
      padded 0 pos ++ wide "-".toList := by
    rw [List.drop_left' (by decide), hpadded]
    exact map_toUInt16_toUInt8 fun c hc => rangeText_ascii pos c (List.mem_append_right _ hc)
  have hscan : scanInt (padded 0 pos ++ wide "-".toList) = some ((pos : Int), wide "-".toList) :=
    scanInt_padded 0 pos (by rintro _ ⟨⟩; decide)
  rw [HttpPost.requestLines, rangeStart_append, hp, List.map_singleton, rangeLine_eq hw,
    List.singleton_append, rangeStart, List.findSome?_cons, if_pos (List.prefix_append ..),
    hnumber, hscan]
  rfl

end DWindow.Http
