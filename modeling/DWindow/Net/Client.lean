import DWindow.Lib.CInt
import DWindow.Lib.Runs
import DWindow.Net.Auth

/-!
# The client of the network server

`execute_command` reads its reply as a line through a `BufferedReader`, which returns at the
carriage return and skips a line feed in front of the next line.  `shot` reads its reply from the
socket itself: a length of four bytes with one `read`, then the image.  A line feed that the reader
has not read yet is then taken for the first byte of the length, and `read` may get less than four
bytes.
-/

namespace DWindow.Net

open CInt LittleEndian WString Runs

def ERROR_NOT_LOGINED : Int := -9998
def COMMA : UInt16 := 44

/-! ## Java -/

def digit16 (c : UInt16) : Option Nat :=
  if 48 ≤ c ∧ c ≤ 57 then some (c.toNat - 48)
  else if 97 ≤ c ∧ c ≤ 102 then some (c.toNat - 87)
  else if 65 ≤ c ∧ c ≤ 70 then some (c.toNat - 55)
  else none

/-- `Long.valueOf(str, 16)`; `none` is an exception. -/
def valueOf (str : List UInt16) : Option Int :=
  let negative := str.head? = some 45
  let digits := if negative ∨ str.head? = some 43 then str.drop 1 else str
  (digits.mapM digit16).bind fun ds =>
    let n : Int := ds.foldl (fun n d => 16 * n + d) 0
    let n := if negative then -n else n
    if ds = [] ∨ n < -2 ^ 63 ∨ 2 ^ 63 ≤ n then none else some n

/-- The two ends of the connection at the client: what the `BufferedReader` has read ahead, whether
it skips a line feed, and what the server has sent and nobody has read from the socket. -/
structure Reader where
  buf : List UInt8
  skipLF : Bool
  incoming : List UInt8

namespace Reader

/-- `BufferedReader.readLine`, which reads `ahead` more bytes than it needs when it reads any; a
line without an end is lost with an exception.  The bytes of a line are decoded one line at a time,
as a line break is a byte of its own in UTF-8. -/
def readLine (ahead : Nat) (r : Reader) : Option (List UInt8) × Reader :=
  let all := r.buf ++ r.incoming
  let skipped := if r.skipLF ∧ all.head? = some LF then 1 else 0
  match (all.drop skipped).findIdx? fun b => b = LF ∨ b = CR with
  | none => (none, ⟨[], r.skipLF && all.isEmpty, []⟩)
  | some i =>
    let used := skipped + i + 1
    let taken := if used ≤ r.buf.length then r.buf.length else min all.length (used + ahead)
    (some ((all.drop skipped).take i),
      ⟨(all.take taken).drop used, all[skipped + i]? = some CR, all.drop taken⟩)

/-- `read` of the socket into `n` bytes when `there` bytes are there; with nothing to come it ends
in an exception. -/
def read (n there : Nat) (r : Reader) : Option (List UInt8 × Reader) :=
  if r.incoming = [] then none
  else
    let k := min (max 1 there) (min n r.incoming.length)
    some (r.incoming.take k, { r with incoming := r.incoming.drop k })

/-- The loop of `readStream`, in as many rounds as there are bytes to get. -/
def readRounds (there : Nat → Nat) (size : Nat) :
    Nat → List UInt8 → Reader → Option (List UInt8) × Reader
  | 0, out, r => (some out, r)
  | n + 1, out, r =>
    if out.length < size then
      match r.read (min 1024 (size - out.length)) (there n) with
      | none => (none, r)
      | some got => readRounds there size n (out ++ got.1) got.2
    else (some out, r)

/-- `readStream` into an array of `size` bytes. -/
def readStream (there : Nat → Nat) (size : Nat) (r : Reader) : Option (List UInt8) × Reader :=
  readRounds there size size [] r

/-- What `shot` does behind the command: an array of a negative size is an exception, too. -/
def readImage (first : Nat) (there : Nat → Nat) (r : Reader) : Option (List UInt8) × Reader :=
  match r.read 4 first with
  | none => (none, r)
  | some (p, r) =>
    let size := toInt32 (ofLE (p ++ List.replicate (4 - p.length) 0))
    if size < 0 then (none, r) else r.readStream there size.toNat

end Reader

/-! ## Calls -/

/-- What a call returns: a result, or an image or `null`. -/
inductive Reply
  | result (hr : Int) (text : List UInt16)
  | image (data : Option (List UInt8))
deriving DecidableEq

def Out.reply (o : Out) : Reply :=
  if o.hr = S_RAWDATA then .image (some o.image.1) else .result o.hr.toNat o.text.1

/-- UTF-8, at both ends. -/
structure Codec where
  encode : List UInt16 → List UInt8
  decode : List UInt8 → List UInt16

/-- A connection with both ends, what is on the way to the server, and for every call what it has
returned and what the server has answered, if it got the command. -/
structure Link (σ : Type*) where
  conn : Conn σ
  unreceived : List UInt8
  reader : Reader
  mState : Int
  log : List (Reply × Option Reply)

/-- A call, and how the bytes get through: whether the line feed behind the command is `late`, so
that the server gets it with the next command, how far the reader reads ahead, how many bytes the
first `read` of `shot` finds, and how many the others. -/
inductive Call
  | executeCommand (cmd : List UInt8) (late : Bool) (ahead : Nat)
  | shot (late : Bool) (first : Nat) (there : Nat → Nat)

/-- The bytes of `shot`. -/
def SHOT : List UInt8 := CString.ascii "shot".toList

namespace Link

variable {σ : Type*} (s : Server σ) (k : Codec)

def out (l : Link σ) (cmd : List UInt8) : Out :=
  (s.respond l.conn.auth l.conn.player (s.text cmd)).2.2

/-- The client sends a command, and the server receives it and answers. -/
def send (l : Link σ) (cmd : List UInt8) (late : Bool) : Link σ :=
  let bytes := l.unreceived ++ cmd ++ [CR] ++ if late then [] else [LF]
  let conn := s.received l.conn bytes
  let sent := (conn.answers.drop l.conn.answers.length).flatMap Prod.snd
  { l with
    conn
    unreceived := if late then [LF] else []
    reader := { l.reader with incoming := l.reader.incoming ++ sent } }

def executeCommand (l : Link σ) (cmd : List UInt8) (late : Bool) (ahead : Nat) : Link σ :=
  if l.mState < 0 ∧ l.mState ≠ ERROR_NOT_LOGINED then
    { l with log := l.log ++ [(.result E_FAIL.toNat [], none)] }
  else
    let produced := some (l.out s cmd).reply
    let l := l.send s cmd late
    let got := l.reader.readLine ahead
    let l := { l with reader := got.2 }
    match got.1 with
    | none => { l with mState := -2, log := l.log ++ [(.result E_FAIL.toNat [], produced)] }
    | some line =>
      let str := k.decode line
      let split := (Cut.cut [COMMA] str).getD (str, [])
      match valueOf split.1 with
      | none =>
        { l with mState := -2, log := l.log ++ [(.result E_FAIL.toNat split.2, produced)] }
      | some hr => { l with log := l.log ++ [(.result hr split.2, produced)] }

def shot (l : Link σ) (late : Bool) (first : Nat) (there : Nat → Nat) : Link σ :=
  let produced := some (l.out s SHOT).reply
  let l := l.send s SHOT late
  let got := l.reader.readImage first there
  { l with
    reader := got.2
    mState := if got.1 = none then -3 else l.mState
    log := l.log ++ [(.image got.1, produced)] }

def step (l : Link σ) : Call → Link σ
  | .executeCommand cmd late ahead => l.executeCommand s k cmd late ahead
  | .shot late first there => l.shot s late first there

/-- **Every call has returned what the server has answered to its command.** -/
def Matched (l : Link σ) : Prop := ∀ call ∈ l.log, call.2 = some call.1

instance (l : Link σ) : Decidable l.Matched :=
  inferInstanceAs (Decidable (∀ call ∈ l.log, call.2 = some call.1))

end Link

/-- A command without carriage return, line feed and backspace, shorter than 1000 bytes. -/
structure Plain (cmd : List UInt8) : Prop where
  plain : ∀ b ∈ cmd, b ≠ CR ∧ b ≠ LF ∧ b ≠ BACKSPACE
  length : cmd.length < 1000

def Call.Valid : Call → Prop
  | .executeCommand cmd _ _ => Plain cmd
  | .shot _ _ _ => True

/-- Surrogates stand in pairs. -/
def paired : List UInt16 → Bool
  | [] => true
  | [c] => !(0xd800 ≤ c && c < 0xe000)
  | c :: d :: text =>
    if 0xd800 ≤ c && c < 0xdc00 then 0xdc00 ≤ d && d < 0xe000 && paired text
    else !(0xdc00 ≤ c && c < 0xe000) && paired (d :: text)

/-- What is documented of the conversions: in a buffer of 1024000 bytes the server's comes to
UTF-8, a byte below 128 is a character of its own, and Java gets the text back. -/
structure Codec.Lawful {σ : Type*} (k : Codec) (s : Server σ) : Prop where
  toUtf8 : ∀ mem text, (0 : UInt16) ∉ text → (k.encode text).length < 1024000 →
    Server.strOf (s.toUtf8 mem text) = k.encode text
  ascii : ∀ text, ∀ b ∈ k.encode text, b.toNat < 128 → UInt16.ofNat b.toNat ∈ text
  decode : ∀ text, paired text → k.decode (k.encode text) = text

def Out.line (o : Out) : List UInt16 := Hook.hex8 o.hr ++ wide ",".toList ++ o.text.1

/-- The answer to a command is a text in one line that can be converted; the answer to `shot` is an
image, the line feed of the answer before has been read, and four bytes are there. -/
def Link.Fits {σ : Type*} (s : Server σ) (k : Codec) (l : Link σ) : Call → Prop
  | .executeCommand cmd _ _ => (l.out s cmd).hr ≠ S_RAWDATA ∧
      CR.toUInt16 ∉ (l.out s cmd).text.1 ∧ LF.toUInt16 ∉ (l.out s cmd).text.1 ∧
      paired (l.out s cmd).text.1 ∧ (k.encode (l.out s cmd).line).length < 1024000
  | .shot _ first _ => (l.out s SHOT).hr = S_RAWDATA ∧ l.reader.incoming = [] ∧ 4 ≤ first

instance {σ : Type*} (s : Server σ) (k : Codec) (l : Link σ) (call : Call) :
    Decidable (l.Fits s k call) :=
  match call with
  | .executeCommand cmd _ _ => inferInstanceAs (Decidable ((l.out s cmd).hr ≠ S_RAWDATA ∧
      CR.toUInt16 ∉ (l.out s cmd).text.1 ∧ LF.toUInt16 ∉ (l.out s cmd).text.1 ∧
      paired (l.out s cmd).text.1 ∧ (k.encode (l.out s cmd).line).length < 1024000))
  | .shot _ first _ => inferInstanceAs (Decidable ((l.out s SHOT).hr = S_RAWDATA ∧
      l.reader.incoming = [] ∧ 4 ≤ first))

/-! ## A command and its answer -/

section Server

variable {σ : Type*} {s : Server σ} {c : Conn σ} {pre cmd unreceived : List UInt8}

theorem feed_frame (s : Server σ) (c : Conn σ) {b : UInt8} (hb : b ≠ CR) :
    ∃ line p, s.feed c b = { c with line, p } := by
  rw [Server.feed]
  split
  · exact ⟨_, _, rfl⟩
  · split
    · exact ⟨_, _, rfl⟩
    · exact ⟨_, _, rfl⟩

theorem received_frame (s : Server σ) : ∀ (bytes : List UInt8) (c : Conn σ), CR ∉ bytes →
    ∃ line p, s.received c bytes = { c with line, p } := by
  intro bytes
  induction bytes with
  | nil => intro c _; exact ⟨c.line, c.p, rfl⟩
  | cons b bytes ih =>
    intro c h
    rw [List.mem_cons, not_or] at h
    obtain ⟨line, p, hfeed⟩ := feed_frame s c (Ne.symm h.1)
    obtain ⟨line', p', hbytes⟩ := ih (s.feed c b) h.2
    refine ⟨line', p', ?_⟩
    rw [Server.received, List.foldl_cons, ← Server.received, hbytes, hfeed]

theorem lineOf_append (pre : List UInt8) (h : lineOf pre = []) : ∀ cmd : List UInt8,
    (∀ b ∈ cmd, b ≠ CR ∧ b ≠ LF ∧ b ≠ BACKSPACE) → lineOf (pre ++ cmd) = cmd := by
  intro cmd
  induction cmd using List.reverseRecOn with
  | nil => intro _; rw [List.append_nil, h]
  | append_singleton cmd b ih =>
    intro hplain
    obtain ⟨hcr, hlf, hback⟩ := hplain b (List.mem_append_right _ (List.mem_singleton_self b))
    rw [← List.append_assoc, Server.lineOf_concat,
      ih fun x hx => hplain x (List.mem_append_left _ hx), edit, if_neg hback, if_neg hlf,
      if_neg hcr]

theorem Holds.command (h : Server.Holds c pre) (hpre : lineOf pre = []) (s : Server σ) :
    ∀ cmd : List UInt8, (∀ b ∈ cmd, b ≠ CR ∧ b ≠ LF ∧ b ≠ BACKSPACE) → cmd.length < LINE →
      Server.Holds (s.received c cmd) (pre ++ cmd) := by
  intro cmd
  induction cmd using List.reverseRecOn with
  | nil =>
    intro _ _
    rw [List.append_nil]
    exact h
  | append_singleton cmd b ih =>
    intro hplain hlength
    rw [List.length_append, List.length_singleton] at hlength
    have hplain' : ∀ x ∈ cmd, x ≠ CR ∧ x ≠ LF ∧ x ≠ BACKSPACE := fun x hx =>
      hplain x (List.mem_append_left _ hx)
    have hholds := ih hplain' (by omega)
    rw [← List.append_assoc, Server.received_concat]
    refine hholds.feed ?_ s b
    rw [lineOf_append pre hpre cmd hplain']
    omega

/-- The server is behind a line, or a line feed away from it. -/
def Ready (c : Conn σ) (unreceived : List UInt8) : Prop :=
  ∃ pre, Server.Holds c pre ∧ (lineOf pre).length < LINE ∧
    (unreceived = [] ∧ lineOf pre = [] ∨ unreceived = [LF])

/-- **One command and one answer**, whether the line feed comes late or not. -/
theorem Ready.received (h : Ready c unreceived) (hconv : s.Converts) (hcmd : Plain cmd)
    (late : Bool) :
    Ready (s.received c (unreceived ++ cmd ++ [CR] ++ if late then [] else [LF]))
        (if late then [LF] else []) ∧
      (s.received c (unreceived ++ cmd ++ [CR] ++ if late then [] else [LF])).answers =
        c.answers ++ [(s.text cmd,
          (s.answer c.outA (s.respond c.auth c.player (s.text cmd)).2.2).2)] := by
  have hlength : cmd.length < LINE := hcmd.length.trans (by decide)
  obtain ⟨pre, hpre, hroom, hcases⟩ := h
  -- the line feed before the command
  have hstart : ∃ pre' line p, s.received c unreceived = { c with line, p } ∧
      Server.Holds (s.received c unreceived) pre' ∧ lineOf pre' = [] := by
    obtain ⟨rfl, hempty⟩ | rfl := hcases
    · exact ⟨pre, c.line, c.p, rfl, hpre, hempty⟩
    · obtain ⟨line, p, hframe⟩ := received_frame s [LF] c (by decide)
      refine ⟨pre ++ [LF], line, p, hframe, hpre.feed hroom s LF, ?_⟩
      rw [Server.lineOf_concat]
      rfl
  obtain ⟨pre', line, p, hframe, hholds, hempty⟩ := hstart
  have hline := lineOf_append pre' hempty cmd hcmd.plain
  have hholds' := Holds.command hholds hempty s cmd hcmd.plain hlength
  obtain ⟨line', p', hframe'⟩ := received_frame s cmd (s.received c unreceived) fun hcr =>
    (hcmd.plain CR hcr).1 rfl
  have hbytes : s.received c (unreceived ++ cmd) = s.received (s.received c unreceived) cmd :=
    List.foldl_append
  have hhandled : s.received c (unreceived ++ cmd ++ [CR]) =
      s.handle (s.received (s.received c unreceived) cmd) := by
    rw [Server.received_concat, hbytes]
    rfl
  have htext := hholds'.current (s := s) (by rwa [hline]) hconv
  rw [hline] at htext
  have hanswers : (s.received c (unreceived ++ cmd ++ [CR])).answers = c.answers ++ [(s.text cmd,
      (s.answer c.outA (s.respond c.auth c.player (s.text cmd)).2.2).2)] := by
    rw [hhandled, ← htext, Server.current, Server.handle, hframe', hframe]
  have hholds'' :
      Server.Holds (s.received c (unreceived ++ cmd ++ [CR])) (pre' ++ cmd ++ [CR]) := by
    have hfed := hholds'.feed (by rwa [hline]) s CR
    rwa [hhandled]
  have hline' : lineOf (pre' ++ cmd ++ [CR]) = cmd := by
    rw [Server.lineOf_concat, hline]
    rfl
  cases late with
  | true =>
    rw [if_pos rfl, if_pos rfl, List.append_nil]
    exact ⟨⟨_, hholds'', by rwa [hline'], .inr rfl⟩, hanswers⟩
  | false =>
    rw [if_neg Bool.false_ne_true, if_neg Bool.false_ne_true, Server.received_concat]
    refine ⟨⟨_, hholds''.feed (by rwa [hline']) s LF, ?_, .inl ⟨rfl, ?_⟩⟩, ?_⟩
    · rw [Server.lineOf_concat]
      exact Nat.zero_lt_succ _
    · rw [Server.lineOf_concat]
      rfl
    · rw [← hanswers]
      rfl

end Server

/-! ## What the client reads -/

section Client

theorem digit16_hexDigit : ∀ d < 16, digit16 (Hook.hexDigit d) = some d := by decide

theorem hexDigit_plain : ∀ d < 16, Hook.hexDigit d ≠ 0 ∧ Hook.hexDigit d ≠ 10 ∧
    Hook.hexDigit d ≠ 13 ∧ Hook.hexDigit d ≠ 43 ∧ Hook.hexDigit d ≠ COMMA ∧
    Hook.hexDigit d ≠ 45 := by decide

theorem hex8_eq (n : UInt32) : ∃ ds : List Nat, Hook.hex8 n = ds.map Hook.hexDigit ∧ ds ≠ [] ∧
    (∀ d ∈ ds, d < 16) ∧ ds.foldl (fun (n : Int) d => 16 * n + d) 0 = n.toNat := by
  refine ⟨(List.range 8).map fun i => n.toNat / 16 ^ (7 - i) % 16, ?_, ?_, fun d hd => ?_, ?_⟩
  · rw [List.map_map]
    rfl
  · exact List.cons_ne_nil _ _
  · obtain ⟨i, -, rfl⟩ := List.mem_map.mp hd
    exact Nat.mod_lt _ (by decide)
  · have hcast : ∀ (ds : List Nat) (v : Nat),
        ds.foldl (fun (n : Int) (d : Nat) => 16 * n + d) v =
          (ds.foldl (fun n d => 16 * n + d) v : Nat) := by
      intro ds
      induction ds with
      | nil => intro _; rfl
      | cons d ds ih =>
        intro v
        rw [List.foldl_cons, List.foldl_cons, ← ih]
        push_cast
        rfl
    exact (hcast _ 0).trans (congrArg Nat.cast (Hook.foldl_digits_toNat n))

theorem mapM_digit16 : ∀ ds : List Nat, (∀ d ∈ ds, d < 16) →
    (ds.map Hook.hexDigit).mapM digit16 = some ds := by
  intro ds
  induction ds with
  | nil => intro _; rfl
  | cons d ds ih =>
    intro h
    rw [List.forall_mem_cons] at h
    rw [List.map_cons, List.mapM_cons, digit16_hexDigit d h.1, ih h.2]
    rfl

/-- **The value of what `%08x` prints.** -/
theorem valueOf_hex8 (n : UInt32) : valueOf (Hook.hex8 n) = some (n.toNat : Int) := by
  obtain ⟨ds, hds, hne, hlt, hvalue⟩ := hex8_eq n
  have hn := n.toNat_lt
  have hhead : ∀ c, c = 43 ∨ c = 45 → (Hook.hex8 n).head? ≠ some c := by
    intro c hc
    cases ds with
    | nil => exact absurd rfl hne
    | cons d ds =>
      have hplain := hexDigit_plain d (hlt d (List.mem_cons_self ..))
      rw [hds, List.map_cons, List.head?_cons, Ne, Option.some.injEq]
      rintro rfl
      rcases hc with hc | hc
      · exact hplain.2.2.2.1 hc
      · exact hplain.2.2.2.2.2 hc
  have hminus := hhead 45 (.inr rfl)
  have hplus := hhead 43 (.inl rfl)
  simp only [valueOf, hminus, hplus, or_self, if_false]
  rw [hds, mapM_digit16 ds hlt, Option.bind_some, hvalue, if_neg]
  rintro (h | h | h)
  · exact hne h
  · omega
  · omega

theorem not_mem_hex8 {c : UInt16} (hc : c = 0 ∨ c = 10 ∨ c = 13 ∨ c = COMMA) (n : UInt32) :
    c ∉ Hook.hex8 n := by
  intro hin
  obtain ⟨ds, hds, -, hlt, -⟩ := hex8_eq n
  rw [hds, List.mem_map] at hin
  obtain ⟨d, hd, rfl⟩ := hin
  obtain ⟨hzero, hlf, hcr, -, hcomma, -⟩ := hexDigit_plain d (hlt d hd)
  rcases hc with h | h | h | h
  · exact hzero h
  · exact hlf h
  · exact hcr h
  · exact hcomma h

/-- The reader may have a line feed to skip, and nothing else. -/
def Reader.Clean (r : Reader) : Prop :=
  r.buf ++ r.incoming = [] ∨ r.buf ++ r.incoming = [LF] ∧ r.skipLF = true

theorem findIdx?_line (rest : List UInt8) : ∀ line : List UInt8, (∀ b ∈ line, b ≠ LF ∧ b ≠ CR) →
    (line ++ CR :: rest).findIdx? (fun b => b = LF ∨ b = CR) = some line.length := by
  intro line
  induction line with
  | nil => intro _; rfl
  | cons b line ih =>
    intro h
    rw [List.forall_mem_cons] at h
    rw [List.cons_append, List.findIdx?_cons, ih h.2, if_neg]
    · rfl
    · rw [decide_eq_true_eq]
      exact fun hor => hor.elim h.1.1 h.1.2

theorem drop_take_append {l : List UInt8} {used taken : Nat} (h : used ≤ taken)
    (hl : used ≤ l.length) : (l.take taken).drop used ++ l.drop taken = l.drop used := by
  have hused : used ≤ (l.take taken).length := by
    rw [List.length_take]
    omega
  rw [← List.drop_append_of_le_length hused, List.take_append_drop]

/-- **A line is read** as a whole, and its line feed is left to skip. -/
theorem Reader.Clean.readLine {r : Reader} (h : r.Clean) {line : List UInt8}
    (hline : ∀ b ∈ line, b ≠ LF ∧ b ≠ CR) (ahead : Nat) :
    ∃ r' : Reader, Reader.readLine ahead
        { r with incoming := r.incoming ++ (line ++ [CR, LF]) } = (some line, r') ∧
      r'.buf ++ r'.incoming = [LF] ∧ r'.skipLF = true := by
  have hall : r.buf ++ (r.incoming ++ (line ++ [CR, LF])) =
      (r.buf ++ r.incoming) ++ (line ++ [CR, LF]) := (List.append_assoc ..).symm
  -- the line feed of the line before is skipped
  have hskipped :
      (if r.skipLF = true ∧ ((r.buf ++ r.incoming) ++ (line ++ [CR, LF])).head? = some LF
        then 1 else 0) = (r.buf ++ r.incoming).length := by
    rcases h with h | ⟨h, hskip⟩
    · rw [h, List.nil_append, if_neg]
      · rfl
      · rintro ⟨-, hhead⟩
        cases line with
        | nil => cases hhead
        | cons b line =>
          rw [List.cons_append, List.head?_cons, Option.some.injEq] at hhead
          exact (hline b (List.mem_cons_self ..)).1 hhead
    · rw [h, hskip]
      rfl
  have hbreak : (r.buf ++ r.incoming ++ (line ++ [CR, LF])) =
      (r.buf ++ r.incoming ++ line) ++ CR :: [LF] := by rw [← List.append_assoc]
  have hlast : (r.buf ++ r.incoming ++ (line ++ [CR, LF]))[(r.buf ++ r.incoming).length +
      line.length]? = some CR := by
    rw [hbreak, ← List.length_append, List.getElem?_append_right (Nat.le_refl _), Nat.sub_self]
    rfl
  have hdrop : (r.buf ++ r.incoming ++ (line ++ [CR, LF])).drop ((r.buf ++ r.incoming).length +
      line.length + 1) = [LF] := by
    rw [hbreak, ← List.length_append, ← List.drop_drop, List.drop_left]
    rfl
  rw [Reader.readLine]
  simp only [hall, hskipped, List.drop_left, findIdx?_line [LF] line hline, List.take_left, hlast]
  refine ⟨_, rfl, ?_, rfl⟩
  dsimp only
  have hlength : (r.buf ++ r.incoming ++ (line ++ [CR, LF])).length =
      (r.buf ++ r.incoming).length + line.length + 2 := by
    have htwo : [CR, LF].length = 2 := rfl
    simp only [List.length_append, htwo]
    omega
  rw [drop_take_append, hdrop]
  · split
    · omega
    · omega
  · omega

/-- The loop of `readStream` gets all bytes that are to come, however they come. -/
theorem readRounds_eq (there : Nat → Nat) {image : List UInt8} {buf : List UInt8} {skipLF : Bool} :
    ∀ (n : Nat) (out rest : List UInt8), out ++ rest = image → rest.length ≤ n →
      Reader.readRounds there image.length n out ⟨buf, skipLF, rest⟩ =
        (some image, ⟨buf, skipLF, []⟩) := by
  intro n
  induction n with
  | zero =>
    intro out rest himage hn
    obtain rfl : rest = [] := List.eq_nil_of_length_eq_zero (Nat.le_zero.mp hn)
    rw [List.append_nil] at himage
    rw [Reader.readRounds, himage]
  | succ n ih =>
    intro out rest himage hn
    have hlength : image.length = out.length + rest.length := by
      rw [← himage, List.length_append]
    rw [Reader.readRounds]
    cases rest with
    | nil =>
      rw [List.append_nil] at himage
      rw [if_neg (by rw [himage]; exact lt_irrefl _), himage]
    | cons b rest =>
      rw [List.length_cons] at hlength hn
      rw [if_pos (by omega), Reader.read, if_neg (List.cons_ne_nil b rest)]
      -- at least one byte is there
      refine ih _ _ ?_ ?_
      · dsimp only
        rw [List.append_assoc, List.take_append_drop, himage]
      · rw [List.length_drop, List.length_cons]
        omega

/-- **An image is read** as a whole. -/
theorem readImage_eq {r : Reader} (hincoming : r.incoming = []) (image : Image) {first : Nat}
    (hfirst : 4 ≤ first) (there : Nat → Nat) :
    Reader.readImage first there
        { r with incoming := r.incoming ++ (toLE 4 image.1.length ++ image.1) } =
      (some image.1, r) := by
  have hlength := length_toLE 4 image.1.length
  have hne : toLE 4 image.1.length ++ image.1 ≠ [] := fun hnil => by
    rw [(List.append_eq_nil_iff.mp hnil).1] at hlength
    cases hlength
  have hsize : toInt32 (ofLE (toLE 4 image.1.length)) = image.1.length := by
    have hlt := image.2
    rw [ofLE_toLE_of_lt (by omega), toInt32_of_lt (by omega) (by omega)]
  have hread : Reader.read 4 first
      { r with incoming := r.incoming ++ (toLE 4 image.1.length ++ image.1) } =
      some (toLE 4 image.1.length, { r with incoming := image.1 }) := by
    have hk : min (max 1 first) (min 4 (toLE 4 image.1.length ++ image.1).length) = 4 := by
      rw [List.length_append, hlength]
      omega
    rw [Reader.read, hincoming, List.nil_append]
    dsimp only
    rw [if_neg hne, hk, List.take_left' hlength, List.drop_left' hlength]
  rw [Reader.readImage, hread]
  dsimp only
  rw [hlength, Nat.sub_self, List.replicate_zero, List.append_nil, hsize, if_neg (by omega),
    Int.toNat_natCast, Reader.readStream]
  have hall : Reader.readRounds there image.1.length image.1.length []
      { r with incoming := image.1 } = (some image.1, { r with incoming := [] }) :=
    readRounds_eq there image.1.length [] image.1 rfl (Nat.le_refl _)
  rw [hall, ← hincoming]

end Client

/-! ## Runs -/

namespace Link

variable {σ : Type*} {s : Server σ} {k : Codec} {l : Link σ}

structure Inv (l : Link σ) : Prop where
  ready : Ready l.conn l.unreceived
  clean : l.reader.Clean
  mState : l.mState = ERROR_NOT_LOGINED
  matched : l.Matched

theorem Matched.concat (h : l.Matched) (reply : Reply) :
    ∀ call ∈ l.log ++ [(reply, some reply)], call.2 = some call.1 := by
  intro call hcall
  rcases List.mem_append.mp hcall with hcall | hcall
  · exact h call hcall
  · rw [List.mem_singleton.mp hcall]

/-- **A command is sent and answered.** -/
theorem Inv.send (h : l.Inv) (hconv : s.Converts) {cmd : List UInt8} (hcmd : Plain cmd)
    (late : Bool) :
    Ready (l.send s cmd late).conn (l.send s cmd late).unreceived ∧
      (l.send s cmd late).reader =
        { l.reader with
          incoming := l.reader.incoming ++ (s.answer l.conn.outA (l.out s cmd)).2 } := by
  obtain ⟨hready, hanswers⟩ := h.ready.received hconv hcmd late
  refine ⟨hready, ?_⟩
  rw [Link.send]
  dsimp only
  rw [hanswers, List.drop_left, List.flatMap_singleton, out]

theorem answer_text (hlawful : k.Lawful s) {o : Out} (hraw : o.hr ≠ S_RAWDATA)
    (hlength : (k.encode o.line).length < 1024000) (outA : List UInt8) :
    (s.answer outA o).2 = k.encode o.line ++ [CR, LF] := by
  have hzero : (0 : UInt16) ∉ o.line := by
    rw [Out.line, List.mem_append, List.mem_append, not_or, not_or]
    exact ⟨⟨not_mem_hex8 (.inl rfl) _, by decide⟩, o.text.2⟩
  rw [Server.answer, if_neg hraw]
  dsimp only
  rw [← Out.line, hlawful.toUtf8 _ _ hzero hlength]

theorem line_plain (hlawful : k.Lawful s) {o : Out} (hcr : CR.toUInt16 ∉ o.text.1)
    (hlf : LF.toUInt16 ∉ o.text.1) : ∀ b ∈ k.encode o.line, b ≠ LF ∧ b ≠ CR := by
  intro b hb
  have hline : ∀ c ∈ o.line, c ≠ 10 ∧ c ≠ 13 := by
    intro c hc
    rw [Out.line, List.mem_append, List.mem_append] at hc
    obtain (hc | hc) | hc := hc
    · refine ⟨?_, ?_⟩
      · rintro rfl
        exact not_mem_hex8 (.inr (.inl rfl)) _ hc
      · rintro rfl
        exact not_mem_hex8 (.inr (.inr (.inl rfl))) _ hc
    · rw [List.mem_singleton.mp hc]
      decide
    · refine ⟨?_, ?_⟩
      · rintro rfl
        exact hlf hc
      · rintro rfl
        exact hcr hc
  refine ⟨?_, ?_⟩
  · rintro rfl
    exact (hline _ (hlawful.ascii _ _ hb (by decide))).1 rfl
  · rintro rfl
    exact (hline _ (hlawful.ascii _ _ hb (by decide))).2 rfl

theorem paired_append : ∀ front back : List UInt16, (∀ c ∈ front, c < 0xd800) →
    paired back → paired (front ++ back) := by
  intro front
  induction front with
  | nil => intro back _ h; exact h
  | cons c front ih =>
    intro back hfront hback
    rw [List.forall_mem_cons] at hfront
    have hrest := ih back hfront.2 hback
    have hlow : ¬(0xd800 : UInt16) ≤ c := UInt16.not_le.mpr hfront.1
    have hhigh : ¬(0xdc00 : UInt16) ≤ c := fun hc =>
      hlow (UInt16.le_trans (by decide) hc)
    rw [List.cons_append]
    cases hcons : front ++ back with
    | nil => simp [paired, hlow]
    | cons d rest =>
      rw [hcons] at hrest
      simp [paired, hlow, hhigh, hrest]

theorem paired_line {o : Out} (h : paired o.text.1) : paired o.line := by
  refine paired_append _ _ (fun c hc => ?_) h
  obtain hc | hc := List.mem_append.mp hc
  · obtain ⟨ds, hds, -, hlt, -⟩ := hex8_eq o.hr
    rw [hds, List.mem_map] at hc
    obtain ⟨d, hd, rfl⟩ := hc
    have hdigit : ∀ d < 16, Hook.hexDigit d < 0xd800 := by decide
    exact hdigit d (hlt d hd)
  · rw [List.mem_singleton.mp hc]
    decide

theorem Inv.executeCommand (h : l.Inv) (hconv : s.Converts) (hlawful : k.Lawful s)
    {cmd : List UInt8} {late : Bool} {ahead : Nat} (hcmd : Plain cmd)
    (hfits : l.Fits s k (.executeCommand cmd late ahead)) :
    (l.executeCommand s k cmd late ahead).Inv := by
  obtain ⟨hraw, hcr, hlf, hpaired, hlength⟩ := hfits
  obtain ⟨hready, hreader⟩ := h.send hconv hcmd late
  rw [answer_text hlawful hraw hlength] at hreader
  obtain ⟨r, hgot, hrest, hskip⟩ := h.clean.readLine (line_plain hlawful hcr hlf) ahead
  rw [← hreader] at hgot
  have hdecode := hlawful.decode _ (paired_line hpaired)
  have hcut : Cut.cut [COMMA] (l.out s cmd).line =
      some (Hook.hex8 (l.out s cmd).hr, (l.out s cmd).text.1) := by
    rw [Cut.cut_singleton_eq_some]
    exact ⟨not_mem_hex8 (.inr (.inr (.inr rfl))) _, List.append_assoc ..⟩
  rw [Link.executeCommand, if_neg (fun hand => hand.2 h.mState)]
  simp only [hgot, hdecode, hcut, Option.getD_some, valueOf_hex8]
  refine ⟨hready, .inr ⟨hrest, hskip⟩, h.mState, ?_⟩
  have hreply : (l.out s cmd).reply = .result (l.out s cmd).hr.toNat (l.out s cmd).text.1 :=
    if_neg hraw
  show ∀ call ∈ l.log ++ [_], _
  rw [hreply]
  exact h.matched.concat _

theorem Inv.shot (h : l.Inv) (hconv : s.Converts) {late : Bool} {first : Nat} {there : Nat → Nat}
    (hfits : l.Fits s k (.shot late first there)) : (l.shot s late first there).Inv := by
  obtain ⟨hraw, hincoming, hfirst⟩ := hfits
  have hshot : Plain SHOT := ⟨by decide +kernel, by decide +kernel⟩
  obtain ⟨hready, hreader⟩ := h.send hconv hshot late
  have hanswer : (s.answer l.conn.outA (l.out s SHOT)).2 =
      toLE 4 (l.out s SHOT).image.1.length ++ (l.out s SHOT).image.1 := by
    rw [Server.answer, if_pos hraw]
  rw [hanswer] at hreader
  have hgot := readImage_eq hincoming (l.out s SHOT).image hfirst there
  rw [← hreader] at hgot
  have hreply : (l.out s SHOT).reply = .image (some (l.out s SHOT).image.1) := if_pos hraw
  rw [Link.shot]
  simp only [hgot, hreply]
  exact ⟨hready, h.clean, h.mState, h.matched.concat _⟩

/-- A login, a shot when the line feed has been read, and a command. -/
def calls : List Call :=
  [.executeCommand (CString.ascii "auth|pw".toList) false 1, .shot true 4 fun _ => 1,
    .executeCommand (CString.ascii "hi".toList) false 0]

end Link

end DWindow.Net
