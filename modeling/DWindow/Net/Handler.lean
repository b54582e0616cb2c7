import DWindow.Hook.ConfigName
import DWindow.Lib.CString
import DWindow.Net.Explode

/-!
# The network server

`handler_thread` collects the bytes of a client in a buffer: a backspace takes the last one back, a
line feed all of them, and a carriage return handles what is there.  It leaves the buffer alone, so
what comes before the next line feed is added to the line.  The buffer is converted as a whole and
then read as a C string.  Before the client is logged in a line can only be a login.
-/

namespace DWindow.Net

open LittleEndian WString

/-- `HRESULT`s. -/
def S_OK : UInt32 := 0
def S_RAWDATA : UInt32 := 2
def E_FAIL : UInt32 := 0x80004005

def BACKSPACE : UInt8 := 8
def LF : UInt8 := 10
def CR : UInt8 := 13
def PIPE : UInt16 := 124

/-- The size of `line`. -/
def LINE : Nat := 1024

/-- Bytes that an `int` counts. -/
abbrev Image := { bytes : List UInt8 // bytes.length < 2 ^ 31 }

abbrev Text := { text : List UInt16 // (0 : UInt16) ∉ text }

/-- What `execute_command_line` returns and leaves in `out`, which is read as a text, or as a number
of bytes and these bytes. -/
structure Out where
  hr : UInt32
  text : Text
  image : Image

/-- An `out` that is a text. -/
def Out.ofText (hr : UInt32) (text : Text) : Out := ⟨hr, text, ⟨[], by decide⟩⟩

/-- What the handler calls: the receiver of commands, with the state of the player, the two
conversions, the second with what the buffer of the result held before, and the password. -/
structure Server (σ : Type*) where
  password : List UInt16
  reciever : Option (σ → List UInt16 → σ × Out)
  toWide : List UInt8 → List UInt16
  toUtf8 : List UInt8 → List UInt16 → List UInt8

/-- A connection: the variables of `handler_thread`, the lines given to `execute_command_line`, and
the answers to all lines. -/
structure Conn (σ : Type*) where
  line : List UInt8
  p : Nat
  auth : Bool
  outA : List UInt8
  player : σ
  executed : List (List UInt16)
  answers : List (List UInt16 × List UInt8)

/-- `_wcslwr`, as far as it comes to a letter of `auth`. -/
def wcslwr (str : List UInt16) : List UInt16 :=
  str.map fun c => if 65 ≤ c ∧ c ≤ 90 then c + 32 else c

namespace Server

variable {σ : Type*} (s : Server σ)

/-- A line of a client that is not logged in: whether it is now. -/
def login (text : List UInt16) : Bool × Out :=
  match wcsexplode text [PIPE] 5 with
  | first :: second :: _ =>
    if wcslwr first = wide "auth".toList then
      if second = s.password then (true, .ofText S_OK ⟨wide "True".toList, by decide⟩)
      else (false, .ofText S_OK ⟨wide "False".toList, by decide⟩)
    else (false, .ofText E_FAIL ⟨[], by decide⟩)
  | _ => (false, .ofText E_FAIL ⟨[], by decide⟩)

/-- What a line comes to: the login and the player behind it, and what is answered. -/
def respond (auth : Bool) (player : σ) (text : List UInt16) : Bool × σ × Out :=
  if auth then
    match s.reciever with
    | some executeCommandLine => (true, executeCommandLine player text)
    | none => (true, player, .ofText E_FAIL ⟨[], by decide⟩)
  else
    let r := s.login text
    (r.1, player, r.2)

def strOf (mem : List UInt8) : List UInt8 := mem.takeWhile (· != 0)

/-- What is sent for an `out`, and what the buffer for it holds then. -/
def answer (outA : List UInt8) (o : Out) : List UInt8 × List UInt8 :=
  if o.hr = S_RAWDATA then (outA, toLE 4 o.image.1.length ++ o.image.1)
  else
    let outA := s.toUtf8 outA (Hook.hex8 o.hr ++ wide ",".toList ++ o.text.1)
    (outA, strOf outA ++ [CR, LF])

def handle (c : Conn σ) : Conn σ :=
  let line := c.line.set c.p 0
  let text := cstr (s.toWide line)
  let r := s.respond c.auth c.player text
  let sent := s.answer c.outA r.2.2
  { line
    p := c.p
    auth := r.1
    outA := sent.1
    player := r.2.1
    executed := if c.auth && s.reciever.isSome then c.executed ++ [text] else c.executed
    answers := c.answers ++ [(text, sent.2)] }

def feed (c : Conn σ) (b : UInt8) : Conn σ :=
  if b = BACKSPACE then { c with p := c.p - 1 }
  else if b ≠ LF ∧ b ≠ CR ∧ c.p < LINE then { c with line := c.line.set c.p b, p := c.p + 1 }
  else if b = CR then s.handle c
  else { c with p := 0 }

/-- What one call of `recv` has got. -/
def received (c : Conn σ) (buf : List UInt8) : Conn σ := buf.foldl s.feed c

/-- `handler_thread`, with what the calls of `recv` get; nothing is the end. -/
def handlerThread (c : Conn σ) : List (List UInt8) → Conn σ
  | [] => c
  | buf :: bufs => if buf = [] then c else handlerThread (s.received c buf) bufs

/-- A new connection; the buffers hold anything. -/
def accepted (line outA : List UInt8) (player : σ) : Conn σ :=
  ⟨line, 0, false, outA, player, [], []⟩

end Server

/-! ## Lines -/

def edit (line : List UInt8) (b : UInt8) : List UInt8 :=
  if b = BACKSPACE then line.dropLast
  else if b = LF then []
  else if b = CR then line
  else line ++ [b]

def lineOf (stream : List UInt8) : List UInt8 := stream.foldl edit []

/-- A way to get a byte stream from `recv`, at most 1023 bytes at a time. -/
structure Cuts (bufs : List (List UInt8)) (stream : List UInt8) : Prop where
  flatten : bufs.flatten = stream
  size : ∀ buf ∈ bufs, buf ≠ [] ∧ buf.length ≤ 1023

namespace Server

variable {σ : Type*} (s : Server σ)

/-- The text of a line: what is in front of a zero, converted. -/
def text (line : List UInt8) : List UInt16 := s.toWide (strOf line)

/-- The first two fields are `auth` and the password. -/
def LogsIn (text : List UInt16) : Prop :=
  ∃ first more, text.splitOn PIPE = first :: s.password :: more ∧
    wcslwr first = wide "auth".toList

/-- The conversion of a buffer comes to a zero where the buffer does, and what is behind it does
not matter. -/
def Converts : Prop :=
  ∀ str rest, (0 : UInt8) ∉ str → cstr (s.toWide (str ++ 0 :: rest)) = s.toWide str

/-! ## Bytes of a connection -/

variable {s} {c : Conn σ} {pre : List UInt8} {b : UInt8}

/-- What the variables of the buffer hold behind the bytes `pre`. -/
structure Holds (c : Conn σ) (pre : List UInt8) : Prop where
  length : c.line.length = LINE
  p : c.p = (lineOf pre).length
  line : c.line.take c.p = lineOf pre

theorem lineOf_concat (pre : List UInt8) (b : UInt8) :
    lineOf (pre ++ [b]) = edit (lineOf pre) b := by
  rw [lineOf, List.foldl_append]
  rfl

/-- A line is not longer than the bytes that it is made of. -/
theorem length_lineOf_le (stream : List UInt8) : (lineOf stream).length ≤ stream.length := by
  induction stream using List.reverseRecOn with
  | nil => exact Nat.le_refl 0
  | append_singleton pre b ih =>
    rw [lineOf_concat, edit, List.length_append, List.length_singleton]
    split
    · rw [List.length_dropLast]
      omega
    · split
      · exact Nat.zero_le _
      · split
        · omega
        · rw [List.length_append, List.length_singleton]
          omega

theorem received_concat (s : Server σ) (c : Conn σ) (pre : List UInt8) (b : UInt8) :
    s.received c (pre ++ [b]) = s.feed (s.received c pre) b := by
  rw [received, List.foldl_append]
  rfl

theorem zero_not_mem_strOf (mem : List UInt8) : (0 : UInt8) ∉ strOf mem := fun h =>
  absurd (List.mem_takeWhile_imp h) (by decide)

theorem exists_strOf_append (mem rest : List UInt8) :
    ∃ rest', mem ++ 0 :: rest = strOf mem ++ 0 :: rest' := by
  induction mem with
  | nil => exact ⟨rest, rfl⟩
  | cons x mem ih =>
    by_cases hx : x = 0
    · subst hx
      exact ⟨mem ++ 0 :: rest, rfl⟩
    · obtain ⟨rest', hrest⟩ := ih
      have hstr : strOf (x :: mem) = x :: strOf mem :=
        List.takeWhile_cons_of_pos (by rwa [bne_iff_ne])
      exact ⟨rest', by rw [hstr, List.cons_append, hrest, List.cons_append]⟩

/-- The text of the line when a carriage return comes. -/
def current (s : Server σ) (c : Conn σ) : List UInt16 := cstr (s.toWide (c.line.set c.p 0))

/-- Only a login line logs in. -/
theorem auth_handle (h : (s.handle c).auth) : c.auth ∨ (s.login (s.current c)).1 := by
  cases hauth : c.auth with
  | true => exact .inl rfl
  | false =>
    rw [handle, hauth] at h
    exact .inr h

/-- **One byte**, in the buffer. -/
theorem Holds.feed (h : Holds c pre) (hpre : (lineOf pre).length < LINE) (s : Server σ)
    (b : UInt8) : Holds (s.feed c b) (pre ++ [b]) := by
  have hp : c.p < c.line.length := by rwa [h.p, h.length]
  rw [Server.feed]
  split
  · next hb =>
    have hline : lineOf (pre ++ [b]) = (lineOf pre).dropLast := by
      rw [lineOf_concat, edit, if_pos hb]
    refine ⟨h.length, ?_, ?_⟩
    · rw [hline, List.length_dropLast, h.p]
    · rw [hline, ← h.line, List.dropLast_take hp]
  · next hback =>
    split
    · next hb =>
      have hline : lineOf (pre ++ [b]) = lineOf pre ++ [b] := by
        rw [lineOf_concat, edit, if_neg hback, if_neg hb.1, if_neg hb.2.1]
      refine ⟨?_, ?_, ?_⟩
      · rw [List.length_set, h.length]
      · rw [hline, List.length_append, List.length_singleton, h.p]
      · show (c.line.set c.p b).take (c.p + 1) = _
        rw [hline, List.take_add_one, List.take_set_of_le (Nat.le_refl _),
          List.getElem?_set_self hp, h.line]
        rfl
    · next hb =>
      rw [h.p] at hb
      split
      · next hcr =>
        have hline : lineOf (pre ++ [b]) = lineOf pre := by
          rw [lineOf_concat, edit, if_neg hback, if_neg (by rw [hcr]; decide), if_pos hcr]
        refine ⟨?_, ?_, ?_⟩
        · show (c.line.set c.p 0).length = LINE
          rw [List.length_set, h.length]
        · rw [hline]
          exact h.p
        · show (c.line.set c.p 0).take c.p = _
          rw [hline, List.take_set_of_le (Nat.le_refl _), h.line]
      · next hcr =>
        have hlf : b = LF := by
          by_contra hlf
          exact hb ⟨hlf, hcr, hpre⟩
        have hline : lineOf (pre ++ [b]) = [] := by
          rw [lineOf_concat, edit, if_neg hback, if_pos hlf]
        exact ⟨h.length, by rw [hline]; rfl, by rw [hline]; rfl⟩

/-- **The text that is handled** is that of the line. -/
theorem Holds.current (h : Holds c pre) (hpre : (lineOf pre).length < LINE) (hconv : s.Converts) :
    s.current c = s.text (lineOf pre) := by
  have hp : c.p < c.line.length := by rwa [h.p, h.length]
  have hline : c.line.set c.p 0 = lineOf pre ++ 0 :: c.line.drop (c.p + 1) := by
    rw [List.set_eq_take_append_cons_drop, if_pos hp, h.line]
  rw [Server.current, hline, Server.text]
  obtain ⟨rest, hrest⟩ := exists_strOf_append (lineOf pre) (c.line.drop (c.p + 1))
  rw [hrest]
  exact hconv _ _ (zero_not_mem_strOf _)

end Server

end DWindow.Net
