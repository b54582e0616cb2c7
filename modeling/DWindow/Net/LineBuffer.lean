import DWindow.Lib.Chunked
import DWindow.Net.Auth

/-!
# The line buffer of the server

A byte is stored while `p` is below 1024, and what does not fit goes to the branch of the line
feed, which starts over at the beginning of the buffer: what follows of the line is then taken for
a line.  A carriage return writes the end of the string to `line[p]`, also when `p` is 1024.

`Tracks` says what the buffer holds behind any bytes: the end of the line, from the byte on that
did not fit.  `lineBuffer_safe_iff` says when no byte of a stream does harm.
-/

namespace DWindow.Net

/-- A line with one more byte, and whether it has not been longer than the buffer since it was last
empty. -/
def track (t : List UInt8 × Bool) (b : UInt8) : List UInt8 × Bool :=
  let line := edit t.1 b
  (line, line.isEmpty || t.2 && decide (line.length ≤ LINE))

/-- The line at the end of a byte stream has not been longer than the buffer since it was last
empty. -/
def fitted (stream : List UInt8) : Bool := (stream.foldl track ([], true)).2

theorem track_fst (stream : List UInt8) : (stream.foldl track ([], true)).1 = lineOf stream := by
  induction stream using List.reverseRecOn with
  | nil => rfl
  | append_singleton pre b ih =>
    rw [List.foldl_append, Server.lineOf_concat, ← ih]
    rfl

theorem fitted_concat (pre : List UInt8) (b : UInt8) : fitted (pre ++ [b]) =
    ((lineOf (pre ++ [b])).isEmpty ||
      fitted pre && decide ((lineOf (pre ++ [b])).length ≤ LINE)) := by
  rw [Server.lineOf_concat, ← track_fst pre, fitted, List.foldl_append]
  rfl

/-- A stream whose carriage returns come at the end of lines that fit. -/
def FitsBuffer (stream : List UInt8) : Prop :=
  ∀ pre rest, stream = pre ++ CR :: rest → (lineOf pre).length < LINE ∧ fitted pre

namespace Server

variable {σ : Type*} (s : Server σ)

/-- A converted buffer has at most as many units as there were bytes, and a zero where there was
one. -/
def Fitting : Prop :=
  ∀ mem, (s.toWide mem).length ≤ mem.length ∧ ((0 : UInt8) ∈ mem → (0 : UInt16) ∈ s.toWide mem)

/-- **A byte does no harm** behind the bytes `pre`: what is written to `line` and `line_w` is
inside, and the line that is handled ends inside and is the whole line. -/
structure SafeByte (c : Conn σ) (pre : List UInt8) (b : UInt8) : Prop where
  store : b ≠ BACKSPACE → b ≠ LF → b ≠ CR → c.p < LINE → c.p < c.line.length
  terminator : b = CR → c.p < c.line.length
  wide : b = CR → (s.toWide (c.line.set c.p 0)).length ≤ LINE
  ended : b = CR → (0 : UInt16) ∈ s.toWide (c.line.set c.p 0)
  whole : b = CR → c.line.take c.p = lineOf pre

/-- No byte does harm in any call of `recv`. -/
def Safe (c : Conn σ) (bufs : List (List UInt8)) : Prop :=
  ∀ done pre b rest todo, bufs = done ++ (pre ++ b :: rest) :: todo →
    s.SafeByte (s.received (s.handlerThread c done) pre) (done.flatten ++ pre) b

/-! ## What the buffer holds -/

/-- **What the buffer holds** behind any bytes: the line, or the end of one that did not fit. -/
structure Tracks (c : Conn σ) (pre : List UInt8) : Prop where
  length : c.line.length = LINE
  p : c.p ≤ LINE
  line : ∃ lost, lineOf pre = lost ++ c.line.take c.p ∧ (fitted pre ↔ lost = [])

section

variable {s} {c : Conn σ} {pre : List UInt8}

theorem Tracks.length_take (h : Tracks c pre) : (c.line.take c.p).length = c.p := by
  rw [List.length_take, h.length]
  exact Nat.min_eq_left h.p

/-- A line to which something was done that keeps what was lost of it. -/
theorem fitted_of_kept {b : UInt8} {lost kept : List UInt8} (hkept : kept.length ≤ LINE)
    (hline : lineOf (pre ++ [b]) = lost ++ kept) (h : fitted pre ↔ lost = []) :
    fitted (pre ++ [b]) ↔ lost = [] := by
  rw [fitted_concat, hline]
  cases lost with
  | nil =>
    have hfits : fitted pre = true := h.mpr rfl
    simp [hfits, hkept]
  | cons x lost =>
    have hnot : fitted pre = false := by simpa using h
    simp [hnot]

/-- **Each byte**, stored or not, keeps what is said of the buffer. -/
theorem Tracks.feed (h : Tracks c pre) (s : Server σ) (b : UInt8) :
    Tracks (s.feed c b) (pre ++ [b]) := by
  obtain ⟨lost, hline, hfitted⟩ := h.line
  have hlen := h.length_take
  rw [Server.feed]
  split
  · -- a backspace takes back a byte of the buffer, or one that is lost already
    next hb =>
    have hedit : lineOf (pre ++ [b]) = (lineOf pre).dropLast := by
      rw [lineOf_concat, edit, if_pos hb]
    refine ⟨h.length, (Nat.sub_le _ _).trans h.p, ?_⟩
    by_cases hp : c.p = 0
    · rw [hp, List.take_zero, List.append_nil] at hline
      have hline' : lineOf (pre ++ [b]) = lost.dropLast := by rw [hedit, hline]
      refine ⟨lost.dropLast, ?_, ?_⟩
      · change _ = _ ++ c.line.take (c.p - 1)
        rw [hp, List.take_zero, List.append_nil, hline']
      · rw [fitted_concat, hline']
        cases hlost : lost.dropLast with
        | nil => simp
        | cons x more =>
          have hnot : fitted pre = false := by
            have hne : lost ≠ [] := by
              rintro rfl
              cases hlost
            simpa using mt hfitted.mp hne
          simp [hnot]
    · have hne : c.line.take c.p ≠ [] := by
        rw [← List.length_pos_iff, hlen]
        omega
      have hkept : (c.line.take c.p).dropLast = c.line.take (c.p - 1) := by
        rw [List.dropLast_eq_take, hlen, List.take_take, Nat.min_eq_left (Nat.sub_le _ _)]
      have hline' : lineOf (pre ++ [b]) = lost ++ c.line.take (c.p - 1) := by
        rw [hedit, hline, List.dropLast_append_of_ne_nil hne, hkept]
      have hp1 := h.p
      exact ⟨lost, hline', fitted_of_kept (by rw [List.length_take]; omega) hline' hfitted⟩
  · next hback =>
    split
    · next hb =>
      have hlt : c.p < c.line.length := by
        rw [h.length]
        exact hb.2.2
      have hkept : (c.line.set c.p b).take (c.p + 1) = c.line.take c.p ++ [b] := by
        rw [List.take_add_one, List.take_set_of_le (Nat.le_refl _), List.getElem?_set_self hlt]
        rfl
      have hline' : lineOf (pre ++ [b]) = lost ++ (c.line.set c.p b).take (c.p + 1) := by
        rw [lineOf_concat, edit, if_neg hback, if_neg hb.1, if_neg hb.2.1, hline, hkept,
          List.append_assoc]
      refine ⟨by rw [List.length_set, h.length], hb.2.2, lost, hline',
        fitted_of_kept ?_ hline' hfitted⟩
      rw [List.length_take]
      exact (Nat.min_le_left _ _).trans hb.2.2
    · next hb =>
      split
      · next hcr =>
        have hkept : (c.line.set c.p 0).take c.p = c.line.take c.p :=
          List.take_set_of_le (Nat.le_refl _)
        have hline' : lineOf (pre ++ [b]) = lost ++ (c.line.set c.p 0).take c.p := by
          rw [lineOf_concat, edit, if_neg hback, if_neg (by rw [hcr]; decide), if_pos hcr, hline,
            hkept]
        refine ⟨by rw [← h.length]; exact List.length_set .., h.p, lost, hline',
          fitted_of_kept ?_ hline' hfitted⟩
        rw [hkept, hlen]
        exact h.p
      · next hcr =>
        refine ⟨h.length, Nat.zero_le _, lineOf (pre ++ [b]), (List.append_nil _).symm, ?_⟩
        by_cases hlf : b = LF
        · have hline' : lineOf (pre ++ [b]) = [] := by
            rw [lineOf_concat, edit, if_neg hback, if_pos hlf]
          rw [fitted_concat, hline']
          simp
        · -- the byte that does not fit: all of the line is lost
          have hp : c.p = LINE := by
            have := h.p
            by_contra hne
            exact hb ⟨hlf, hcr, by omega⟩
          have hline' : lineOf (pre ++ [b]) = lost ++ c.line.take c.p ++ [b] := by
            rw [lineOf_concat, edit, if_neg hback, if_neg hlf, if_neg hcr, hline]
          have hlong : ¬(lost ++ c.line.take c.p ++ [b]).length ≤ LINE := by
            rw [List.length_append, List.length_append, hlen, List.length_singleton]
            omega
          rw [fitted_concat, hline', decide_eq_false hlong]
          simp

theorem tracks_accepted {line : List UInt8} (hline : line.length = LINE) (outA : List UInt8)
    (player : σ) : Tracks (accepted line outA player) [] :=
  ⟨hline, Nat.zero_le _, [], rfl, by simp [fitted]⟩

theorem Tracks.received (h : Tracks c []) (s : Server σ) (pre : List UInt8) :
    Tracks (s.received c pre) pre := by
  induction pre using List.reverseRecOn with
  | nil => exact h
  | append_singleton pre b ih =>
    rw [received_concat]
    exact ih.feed s b

/-- **One byte does no harm** exactly when it is no carriage return behind a line that does not
fit. -/
theorem Tracks.safeByte_iff (h : Tracks c pre) (hconv : s.Fitting) (b : UInt8) :
    s.SafeByte c pre b ↔ (b = CR → (lineOf pre).length < LINE ∧ fitted pre) := by
  obtain ⟨lost, hline, hfitted⟩ := h.line
  have hlen := h.length_take
  constructor
  · intro hsafe hcr
    have hlost : lost = [] := by
      have hwhole := hsafe.whole hcr
      rw [hline] at hwhole
      exact List.self_eq_append_left.mp hwhole
    have hp := hsafe.terminator hcr
    rw [h.length] at hp
    refine ⟨?_, hfitted.mpr hlost⟩
    rw [hline, hlost, List.nil_append, hlen]
    exact hp
  · intro hfits
    have hlt : b = CR → c.p < c.line.length := by
      intro hcr
      obtain ⟨hshort, hf⟩ := hfits hcr
      rw [hline, hfitted.mp hf, List.nil_append, hlen] at hshort
      rwa [h.length]
    refine ⟨fun _ _ _ hp => by rwa [h.length], hlt, fun hcr => ?_, fun hcr => ?_, fun hcr => ?_⟩
    · have hunits := (hconv (c.line.set c.p 0)).1
      rwa [List.length_set, h.length] at hunits
    · exact (hconv _).2 (List.mem_set (hlt hcr) 0)
    · rw [hline, hfitted.mp (hfits hcr).2, List.nil_append]

end

/-- Bytes of a call of `recv` behind those of earlier calls. -/
theorem received_handlerThread {c : Conn σ} {done : List (List UInt8)} {pre : List UInt8}
    (h : ∀ buf ∈ done, buf ≠ []) :
    s.received (s.handlerThread c done) pre = s.received c (done.flatten ++ pre) := by
  rw [handlerThread_eq s done c h]
  exact List.foldl_append.symm

/-- **The line buffer**: whatever the cut, no byte of a stream does harm exactly when each carriage
return comes at the end of a line that is shorter than the buffer and has not been longer since it
was last empty. -/
theorem lineBuffer_safe_iff (hconv : s.Fitting) {line : List UInt8} (hline : line.length = LINE)
    (outA : List UInt8) (player : σ) {bufs : List (List UInt8)} {stream : List UInt8}
    (hcuts : Cuts bufs stream) :
    s.Safe (accepted line outA player) bufs ↔ FitsBuffer stream := by
  have hstate : ∀ done pre b rest todo, bufs = done ++ (pre ++ b :: rest) :: todo →
      s.received (s.handlerThread (accepted line outA player) done) pre =
        s.received (accepted line outA player) (done.flatten ++ pre) :=
    fun done pre b rest todo heq => received_handlerThread s fun buf hbuf =>
      (hcuts.size buf (heq ▸ List.mem_append_left _ hbuf)).1
  have htracks := fun pre => (tracks_accepted hline outA player).received s pre
  constructor
  · intro hsafe pre rest hstream
    obtain ⟨done, front, back, todo, heq, rfl⟩ :=
      Chunked.exists_piece (hcuts.flatten.trans hstream)
    have hbyte := hsafe done front CR back todo heq
    rw [hstate done front CR back todo heq, (htracks _).safeByte_iff hconv] at hbyte
    exact hbyte rfl
  · intro hfits done pre b rest todo heq
    rw [hstate done pre b rest todo heq, (htracks _).safeByte_iff hconv]
    rintro rfl
    refine hfits _ (rest ++ todo.flatten) ?_
    rw [← hcuts.flatten, heq, List.flatten_append, List.flatten_cons]
    simp only [List.append_assoc, List.cons_append]

theorem echo_fitting : echo.Fitting := by
  refine fun mem => ⟨(List.length_map ..).le, fun h => ?_⟩
  exact List.mem_map.mpr ⟨0, h, by decide⟩

/-- A line with a byte that is taken back, a line feed in front of the next one, and a carriage
return in a call of its own. -/
def shortLine : List UInt8 := [97, 98, BACKSPACE, LF, 99, CR]

theorem lineBuffer_safe_short : echo.Safe (accepted (List.replicate LINE 0) [] ())
    [[97, 98, BACKSPACE, LF], [99, CR]] := by
  have hcuts : Cuts [[97, 98, BACKSPACE, LF], [99, CR]] shortLine := ⟨rfl, by decide⟩
  refine (lineBuffer_safe_iff echo echo_fitting List.length_replicate [] () hcuts).mpr
    fun pre rest hstream => ?_
  have hpre : pre = shortLine.take pre.length := by
    rw [hstream, List.take_left]
  have hat : shortLine[pre.length]? = some CR := by
    rw [hstream, List.getElem?_append_right (Nat.le_refl _), Nat.sub_self]
    rfl
  have hlt : pre.length < 6 := (List.getElem?_eq_some_iff.mp hat).1
  -- the carriage return is the last byte
  have hlast : pre.length = 5 := by
    generalize pre.length = n at hat hlt
    revert hat
    revert n
    decide
  rw [hpre, hlast]
  decide

theorem lineOf_replicate (n : Nat) : lineOf (List.replicate n 97) = List.replicate n 97 := by
  induction n with
  | zero => rfl
  | succ n ih =>
    rw [List.replicate_succ', lineOf_concat, ih]
    rfl

/-- A line that fills the buffer: the end of the string is written behind it. -/
theorem terminator_behind_line : ¬echo.Safe (accepted (List.replicate LINE 0) [] ())
    [List.replicate 1000 97, List.replicate 24 97 ++ [CR]] := by
  intro hsafe
  have hbyte := hsafe [List.replicate 1000 97] (List.replicate 24 97) CR [] [] rfl
  have hpre : [List.replicate 1000 97].flatten ++ List.replicate 24 97 =
      List.replicate LINE (97 : UInt8) := by
    rw [List.flatten_singleton, List.replicate_append_replicate]
    rfl
  have hne : ∀ buf ∈ [List.replicate 1000 (97 : UInt8)], buf ≠ [] := fun buf hbuf => by
    rw [List.mem_singleton.mp hbuf, Ne, List.replicate_eq_nil_iff]
    decide
  rw [received_handlerThread echo hne, hpre,
    ((tracks_accepted List.length_replicate [] ()).received echo _).safeByte_iff echo_fitting,
    lineOf_replicate] at hbyte
  have hlt := (hbyte rfl).1
  rw [List.length_replicate] at hlt
  exact Nat.lt_irrefl _ hlt

end Server

end DWindow.Net
