import DWindow.Lib.Chunked
import DWindow.Lib.CInt
import DWindow.Lib.ByteOrder

/-!
# Frames from the server

`client::get_h264_frame` of `decoding.cpp` reads a record from the socket: a size of four bytes with
one `recv`, then the frame in a loop.  The stream comes in pieces, of which a `recv` gets at most
the first one, and behind the last one `recv` answers 0, or fails when the connection is reset.

A size that comes in two pieces is taken for the end of the stream, and the loop takes neither
answer behind the stream for an end: it turns for ever on 0, and returns 0 on an error.
`arrives_iff` says when the frames arrive all the same.
-/

namespace DWindow.X264Client

open Chunked CInt LittleEndian

/-- What the server sends from here on, in pieces, and whether the connection is reset behind it. -/
structure Socket where
  chunks : List (List UInt8)
  reset : Bool

/-- `recv` of at most `n` bytes: `none` is an error. -/
def Socket.recv (n : Nat) (s : Socket) : Option (List UInt8) × Socket :=
  match s.chunks with
  | [] => (if s.reset then none else some [], s)
  | c :: _ => (some (c.take n), { s with chunks := drop (min n c.length) s.chunks })

/-- The loop over `recieved`: what is returned, and the frame in `buf`, which has room for `room`
bytes.  There is no result when the loop does not end in `fuel` turns or writes behind `buf`. -/
def receive (room size : Nat) : Nat → List UInt8 → Socket → Option (Int × List UInt8 × Socket)
  | 0, _, _ => none
  | fuel + 1, buf, s =>
    if buf.length < size then
      match s.recv (size - buf.length) with
      | (none, s) => some (0, buf, s)
      | (some got, s) =>
        if room < buf.length + got.length then none else receive room size fuel (buf ++ got) s
    else some (buf.length, buf, s)

def maxFrame : Int := 1024 * 1024

def getH264Frame (room fuel : Nat) (s : Socket) : Option (Int × List UInt8 × Socket) :=
  match s.recv 4 with
  | (none, s) => some (-1, [], s)
  | (some got, s) =>
    if got.length ≠ 4 then some (-1, [], s)
    else
      let frameSize := toInt32 (ofLE got)
      if frameSize > maxFrame then some (-1, [], s)
      else receive room frameSize.toNat fuel [] s

/-- A call returns after finitely many turns. -/
def Returns (room : Nat) (s : Socket) (r : Int × List UInt8 × Socket) : Prop :=
  ∃ n, ∀ fuel ≥ n, getH264Frame room fuel s = some r

/-- **Frames arrive whole**: successive calls return the frames with their sizes, and the call in
which the stream ends returns a negative value. -/
def Arrives (room : Nat) : List (List UInt8) → Socket → Prop
  | [], s => ∃ r, Returns room s r ∧ r.1 < 0
  | frame :: frames, s =>
    ∃ s', Returns room s (frame.length, frame, s') ∧ Arrives room frames s'

/-- A frame as the server sends it. -/
def record (frame : List UInt8) : List UInt8 := toLE 4 frame.length ++ frame

/-- What is sent of a record that is not sent to its end. -/
def Unfinished (tail : List UInt8) : Prop :=
  ∃ frame, (frame.length : Int) ≤ maxFrame ∧ tail <+: record frame ∧ tail ≠ record frame

/-! ## A read -/

theorem recv_chunks {c : List UInt8} {cs : List (List UInt8)} {reset : Bool} (n : Nat) :
    Socket.recv n ⟨c :: cs, reset⟩ = (some (c.take n), ⟨drop (min n c.length) (c :: cs), reset⟩) :=
  rfl

/-- **A read that no piece ends in** gets what it asks for. -/
theorem recv_whole {chunks : List (List UInt8)} {reset : Bool} {n : Nat} (hn : 0 < n)
    (hle : n ≤ (first chunks).length) :
    Socket.recv n ⟨chunks, reset⟩ = (some (chunks.flatten.take n), ⟨drop n chunks, reset⟩) := by
  cases chunks with
  | nil => exact absurd (hn.trans_le hle) (Nat.lt_irrefl 0)
  | cons c cs =>
    have hle : n ≤ c.length := hle
    rw [recv_chunks, Nat.min_eq_left hle, List.flatten_cons, List.take_append_of_le_length hle]

theorem recv_short {chunks : List (List UInt8)} (reset : Bool) {n : Nat}
    (hlt : (first chunks).length < n) :
    (∃ s', Socket.recv n ⟨chunks, reset⟩ = (none, s')) ∨
      ∃ got s', Socket.recv n ⟨chunks, reset⟩ = (some got, s') ∧ got.length < n := by
  cases chunks with
  | nil =>
    cases reset with
    | true => exact .inl ⟨_, rfl⟩
    | false => exact .inr ⟨[], _, rfl, hlt⟩
  | cons c cs =>
    have hlt : c.length < n := hlt
    refine .inr ⟨c.take n, _, recv_chunks n, ?_⟩
    rw [List.length_take]
    omega

/-! ## The loop -/

/-- **The loop gets all of a frame** that is sent. -/
theorem receive_whole {room size : Nat} {reset : Bool} (hroom : size ≤ room) :
    ∀ (chunks : List (List UInt8)) (buf : List UInt8), Pieces chunks → buf.length ≤ size →
      size ≤ buf.length + chunks.flatten.length → ∀ fuel > chunks.length + 1,
      receive room size fuel buf ⟨chunks, reset⟩ =
        some ((size : Int), buf ++ chunks.flatten.take (size - buf.length),
          (⟨drop (size - buf.length) chunks, reset⟩ : Socket))
  | chunks, buf, hpieces, hbuf, hsize, 0, hfuel => absurd hfuel (Nat.not_lt_zero _)
  | [], buf, hpieces, hbuf, hsize, fuel + 1, hfuel => by
    rw [List.flatten_nil, List.length_nil] at hsize
    obtain rfl : buf.length = size := by omega
    rw [receive, if_neg (Nat.lt_irrefl _), Nat.sub_self, drop_zero hpieces, List.take_zero,
      List.append_nil]
  | c :: cs, buf, hpieces, hbuf, hsize, fuel + 1, hfuel => by
    have hcs : Pieces cs := fun d hd => hpieces d (List.mem_cons_of_mem _ hd)
    rw [List.flatten_cons, List.length_append] at hsize
    rw [List.length_cons] at hfuel
    rw [receive]
    by_cases hlt : buf.length < size
    · rw [if_pos hlt, recv_chunks]
      dsimp only
      have hroom' : ¬room < buf.length + (c.take (size - buf.length)).length := by
        rw [List.length_take]
        omega
      rw [if_neg hroom']
      by_cases hle : c.length ≤ size - buf.length
      · -- the whole piece, then the rest of the pieces
        have hdrop : drop (min (size - buf.length) c.length) (c :: cs) = cs := by
          rw [Nat.min_eq_right hle, drop, if_pos (le_refl _), Nat.sub_self, drop_zero hcs]
        have hlen : (buf ++ c).length = buf.length + c.length := List.length_append
        rw [hdrop, List.take_of_length_le hle, receive_whole hroom cs (buf ++ c) hcs (by omega)
          (by omega) fuel (by omega), drop, if_pos hle, hlen, List.flatten_cons, List.take_append,
          List.take_of_length_le hle, List.append_assoc, Nat.sub_add_eq]
      · -- the piece goes on behind the frame
        have hlen : (buf ++ c.take (size - buf.length)).length = size := by
          rw [List.length_append, List.length_take]
          omega
        obtain ⟨fuel, rfl⟩ : ∃ f, fuel = f + 1 := ⟨fuel - 1, by omega⟩
        rw [receive, hlen, if_neg (Nat.lt_irrefl _), Nat.min_eq_left (by omega), List.flatten_cons,
          List.take_append_of_le_length (by omega)]
    · obtain rfl : buf.length = size := by omega
      rw [if_neg hlt, Nat.sub_self, drop_zero hpieces, List.take_zero, List.append_nil]

/-- **A frame that is not sent to its end** is never taken for the end of the stream: the loop
returns 0, or nothing. -/
theorem receive_unfinished {room size : Nat} {reset : Bool} :
    ∀ (fuel : Nat) (chunks : List (List UInt8)) (buf : List UInt8),
      buf.length + chunks.flatten.length < size →
      ∀ r, receive room size fuel buf ⟨chunks, reset⟩ = some r → r.1 = 0
  | 0, _, _, _, _, h => nomatch h
  | fuel + 1, [], buf, hshort, r, h => by
    rw [List.flatten_nil, List.length_nil] at hshort
    rw [receive, if_pos (by omega)] at h
    cases reset with
    | true =>
      cases h
      rfl
    | false =>
      change (if room < buf.length + 0 then none else receive room size fuel (buf ++ [])
        ⟨[], false⟩) = some r at h
      split at h
      · cases h
      · refine receive_unfinished fuel [] (buf ++ []) ?_ r h
        rw [List.append_nil, List.flatten_nil, List.length_nil]
        exact hshort
  | fuel + 1, c :: cs, buf, hshort, r, h => by
    have htotal : (c :: cs).flatten.length = c.length + cs.flatten.length := by
      rw [List.flatten_cons, List.length_append]
    rw [receive, if_pos (by omega), recv_chunks] at h
    dsimp only at h
    split at h
    · cases h
    · refine receive_unfinished fuel _ _ ?_ r h
      rw [flatten_drop, List.length_drop, List.length_append, List.length_take, htotal]
      omega

/-- What the loop returns other than 0 is a frame that has room. -/
theorem receive_room {room size : Nat} : ∀ (fuel : Nat) (buf : List UInt8) (s : Socket),
    buf.length ≤ room → ∀ r, receive room size fuel buf s = some r → r.1 ≤ room
  | 0, _, _, _, _, h => nomatch h
  | fuel + 1, buf, s, hbuf, r, h => by
    rw [receive] at h
    split at h
    · split at h
      · cases h
        exact Int.natCast_nonneg room
      · next got s' _ =>
        split at h
        · cases h
        · next hroom =>
          refine receive_room fuel (buf ++ got) s' ?_ r h
          rw [List.length_append]
          omega
    · cases h
      exact Int.ofNat_le.mpr hbuf

/-! ## A call -/

theorem Returns.unique {room : Nat} {s : Socket} {r r' : Int × List UInt8 × Socket}
    (h : Returns room s r) (h' : Returns room s r') : r = r' := by
  obtain ⟨n, hn⟩ := h
  obtain ⟨n', hn'⟩ := h'
  have heq := (hn (max n n') (Nat.le_max_left ..)).symm.trans (hn' _ (Nat.le_max_right ..))
  exact Option.some.inj heq

section

variable {room : Nat} {reset : Bool} {chunks : List (List UInt8)}

/-- A size that comes in two pieces, or not at all, is taken for the end of the stream. -/
theorem returns_of_short (room : Nat) (reset : Bool) (h : (first chunks).length < 4) :
    ∃ s', Returns room ⟨chunks, reset⟩ (-1, [], s') := by
  obtain ⟨s', hrecv⟩ | ⟨got, s', hrecv, hgot⟩ := recv_short reset h
  · exact ⟨s', 0, fun fuel _ => by rw [getH264Frame, hrecv]⟩
  · refine ⟨s', 0, fun fuel _ => ?_⟩
    rw [getH264Frame, hrecv]
    dsimp only
    rw [if_pos (by omega)]

/-- **With its size in one piece** a call is the loop for this size. -/
theorem getH264Frame_whole {frame rest : List UInt8} (hsize : (frame.length : Int) ≤ maxFrame)
    (hflatten : chunks.flatten = toLE 4 frame.length ++ rest) (h : 4 ≤ (first chunks).length)
    (fuel : Nat) : getH264Frame room fuel ⟨chunks, reset⟩ =
      receive room frame.length fuel [] ⟨drop 4 chunks, reset⟩ := by
  have hmax : maxFrame = 1048576 := rfl
  have htake : chunks.flatten.take 4 = toLE 4 frame.length := by
    rw [hflatten, List.take_left' (length_toLE ..)]
  have hvalue : toInt32 (ofLE (toLE 4 frame.length)) = frame.length := by
    rw [ofLE_toLE_of_lt (by omega)]
    exact toInt32_of_lt (by omega) (by omega)
  rw [getH264Frame, recv_whole (by omega) h, htake]
  dsimp only
  rw [if_neg (not_not.mpr (length_toLE ..)), hvalue, if_neg (by omega), Int.toNat_natCast]

theorem length_record (frame : List UInt8) : (record frame).length = 4 + frame.length := by
  rw [record, List.length_append, length_toLE]

/-- **A call returns a frame that is sent**, when its size comes in one piece and `buf` has room. -/
theorem returns_frame {frame rest : List UInt8} (hpieces : Pieces chunks)
    (hsize : (frame.length : Int) ≤ maxFrame) (hflatten : chunks.flatten = record frame ++ rest)
    (hcut : ¬CutInside chunks 0 4) (hroom : frame.length ≤ room) :
    Returns room ⟨chunks, reset⟩
      (frame.length, frame, ⟨drop (record frame).length chunks, reset⟩) := by
  have htotal := congrArg List.length hflatten
  rw [List.length_append, length_record] at htotal
  have hfirst := (length_first hpieces (by omega)).mpr hcut
  rw [record, List.append_assoc] at hflatten
  have hdrop : (drop 4 chunks).flatten = frame ++ rest := by
    rw [flatten_drop, hflatten, List.drop_left' (length_toLE ..)]
  refine ⟨(drop 4 chunks).length + 2, fun fuel hfuel => ?_⟩
  have hlen : (drop 4 chunks).flatten.length = frame.length + rest.length := by
    rw [hdrop, List.length_append]
  rw [getH264Frame_whole hsize hflatten hfirst, receive_whole hroom _ [] (hpieces.drop 4)
    (Nat.zero_le _) (by rw [hlen, List.length_nil]; omega) fuel (by omega), hdrop, List.nil_append,
    List.length_nil, Nat.sub_zero, List.take_left' rfl, ← drop_add, length_record]

/-- A call that returns the size of the frame has found this. -/
theorem frame_of_returns {frame rest : List UInt8} (hpieces : Pieces chunks)
    (hsize : (frame.length : Int) ≤ maxFrame) (hflatten : chunks.flatten = record frame ++ rest)
    {r : Int × List UInt8 × Socket} (h : Returns room ⟨chunks, reset⟩ r)
    (hr : r.1 = frame.length) : ¬CutInside chunks 0 4 ∧ frame.length ≤ room := by
  have htotal := congrArg List.length hflatten
  rw [List.length_append, length_record] at htotal
  rw [← length_first hpieces (by omega)]
  by_cases hfirst : 4 ≤ (first chunks).length
  · refine ⟨hfirst, ?_⟩
    obtain ⟨n, hn⟩ := h
    have hcall := hn n (Nat.le_refl n)
    rw [record, List.append_assoc] at hflatten
    rw [getH264Frame_whole hsize hflatten hfirst] at hcall
    have hroom := receive_room n [] _ (Nat.zero_le room) r hcall
    omega
  · obtain ⟨s', hs'⟩ := returns_of_short room reset (Nat.lt_of_not_le hfirst)
    rw [h.unique hs'] at hr
    exact absurd hr (by omega)

/-- **The call in which the stream ends** returns a negative value when it ends in front of the
frame or in its size, or when the size comes in two pieces; it does not otherwise. -/
theorem ends_iff (room : Nat) (reset : Bool) {tail : List UInt8} (hpieces : Pieces chunks)
    (htail : Unfinished tail) (hflatten : chunks.flatten = tail) :
    (∃ r, Returns room ⟨chunks, reset⟩ r ∧ r.1 < 0) ↔ tail.length < 4 ∨ CutInside chunks 0 4 := by
  constructor
  · rintro ⟨r, ⟨n, hn⟩, hr⟩
    by_contra hnot
    rw [not_or, Nat.not_lt] at hnot
    obtain ⟨frame, hsize, ⟨rest, hrest⟩, hne⟩ := htail
    have hfirst := (length_first hpieces (by rw [hflatten]; exact hnot.1)).mpr hnot.2
    -- the size is whole, and some of the frame is missing
    obtain ⟨front, rfl⟩ : toLE 4 frame.length <+: tail := by
      refine List.prefix_of_prefix_length_le (List.prefix_append _ frame) ⟨rest, hrest⟩ ?_
      rw [length_toLE]
      exact hnot.1
    have hfront : front.length < frame.length := by
      rw [record, List.append_assoc, List.append_cancel_left_eq] at hrest
      have hlen := congrArg List.length hrest
      rw [List.length_append] at hlen
      have hrest' : rest ≠ [] := by
        rintro rfl
        rw [List.append_nil] at hrest
        exact hne (by rw [record, hrest])
      have := List.length_pos_iff.mpr hrest'
      omega
    have hcall := hn n (Nat.le_refl n)
    rw [getH264Frame_whole hsize hflatten hfirst] at hcall
    have hzero := receive_unfinished n _ [] (by
      rw [flatten_drop, hflatten, List.drop_left' (length_toLE ..), List.length_nil]
      omega) r hcall
    omega
  · intro h
    have hfirst : (first chunks).length < 4 := by
      by_cases hlt : tail.length < 4
      · refine Nat.lt_of_le_of_lt ?_ hlt
        rw [← hflatten]
        cases chunks with
        | nil => exact Nat.le_refl _
        | cons c cs =>
          rw [List.flatten_cons, List.length_append]
          exact Nat.le_add_right _ _
      · exact Nat.lt_of_not_le fun hle => (length_first hpieces (by
          rw [hflatten]
          exact Nat.le_of_not_lt hlt)).mp hle (h.resolve_left hlt)
    obtain ⟨s', hs'⟩ := returns_of_short room reset hfirst
    exact ⟨_, hs', (by omega : (-1 : Int) < 0)⟩

end

/-! ## The stream -/

/-- Where the record of frame `k` begins. -/
def place (frames : List (List UInt8)) (k : Nat) : Nat :=
  ((frames.take k).flatMap record).length

theorem place_cons (frame : List UInt8) (frames : List (List UInt8)) (k : Nat) :
    place (frame :: frames) (k + 1) = (record frame).length + place frames k := by
  rw [place, place, List.take_succ_cons, List.flatMap_cons, List.length_append]

/-- **Frames arrive whole** exactly when the size of each comes in one piece and `buf` has room for
it, and the stream ends in front of a frame or in its size, or that size comes in two pieces. -/
theorem arrives_iff (room : Nat) (reset : Bool) {tail : List UInt8} (htail : Unfinished tail) :
    ∀ {frames chunks : List (List UInt8)}, Pieces chunks →
      (∀ frame ∈ frames, (frame.length : Int) ≤ maxFrame) →
      chunks.flatten = frames.flatMap record ++ tail →
      (Arrives room frames ⟨chunks, reset⟩ ↔
        (∀ k < frames.length, ¬CutInside chunks (place frames k) (place frames k + 4)) ∧
          (∀ frame ∈ frames, frame.length ≤ room) ∧
          (tail.length < 4 ∨
            CutInside chunks (place frames frames.length) (place frames frames.length + 4)))
  | [], chunks, hpieces, _, hflatten => by
    have hends := ends_iff room reset hpieces htail hflatten
    simpa [Arrives, place] using hends
  | frame :: frames, chunks, hpieces, hsizes, hflatten => by
    obtain ⟨hsize, hsizes⟩ := List.forall_mem_cons.mp hsizes
    rw [List.flatMap_cons, List.append_assoc] at hflatten
    have htotal := congrArg List.length hflatten
    rw [List.length_append] at htotal
    have hdrop : (drop (record frame).length chunks).flatten = frames.flatMap record ++ tail := by
      rw [flatten_drop, hflatten, List.drop_left' rfl]
    have hrest := arrives_iff room reset htail
      (hpieces.drop (record frame).length) hsizes hdrop
    have hplace : ∀ k, CutInside (drop (record frame).length chunks) (place frames k)
        (place frames k + 4) ↔
        CutInside chunks (place (frame :: frames) (k + 1)) (place (frame :: frames) (k + 1) + 4) :=
      fun k => by
        rw [place_cons, Nat.add_assoc]
        exact cutInside_drop _ _ _ (by omega)
    have hcall : Arrives room (frame :: frames) ⟨chunks, reset⟩ ↔
        (¬CutInside chunks 0 4 ∧ frame.length ≤ room) ∧
          Arrives room frames ⟨drop (record frame).length chunks, reset⟩ := by
      constructor
      · rintro ⟨s', hreturns, harrives⟩
        obtain ⟨hcut, hroom⟩ := frame_of_returns hpieces hsize hflatten hreturns rfl
        have heq := hreturns.unique (returns_frame hpieces hsize hflatten hcut hroom)
        simp only [Prod.mk.injEq, true_and] at heq
        exact ⟨⟨hcut, hroom⟩, heq ▸ harrives⟩
      · rintro ⟨⟨hcut, hroom⟩, harrives⟩
        exact ⟨_, returns_frame hpieces hsize hflatten hcut hroom, harrives⟩
    rw [hcall, hrest, List.length_cons, Nat.forall_lt_succ_left, List.forall_mem_cons]
    simp only [hplace]
    change (¬CutInside chunks 0 4 ∧ _) ∧ _ ↔ (¬CutInside chunks 0 4 ∧ _) ∧ _
    constructor
    · rintro ⟨⟨hcut, hroom⟩, hcuts, hrooms, hend⟩
      exact ⟨⟨hcut, hcuts⟩, ⟨hroom, hrooms⟩, hend⟩
    · rintro ⟨⟨hcut, hcuts⟩, ⟨hroom, hrooms⟩, hend⟩
      exact ⟨⟨hcut, hroom⟩, hcuts, hrooms, hend⟩

/-- A frame of one byte, whose size comes in one piece. -/
theorem arrives_iff_one : Arrives 8 [[7]] ⟨[[1, 0, 0, 0], [7]], false⟩ := by
  have hpieces : Pieces [[1, 0, 0, 0], [(7 : UInt8)]] := by
    intro c hc
    rintro rfl
    exact absurd hc (by decide)
  refine (arrives_iff 8 false ⟨[], by decide, List.nil_prefix, by decide⟩ hpieces
    (by decide) (by decide : _ = _ ++ [])).mpr ⟨fun k hk => ?_, by decide, .inl (by decide)⟩
  obtain rfl : k = 0 := by simpa using hk
  exact (length_first hpieces (by decide)).mp (by decide)

/-- The same frame, with its size in two pieces, does not arrive. -/
theorem size_in_two_pieces : ¬Arrives 8 [[7]] ⟨[[1, 0], [0, 0, 7]], false⟩ := by
  have hpieces : Pieces [[1, 0], [0, 0, (7 : UInt8)]] := by
    intro c hc
    rintro rfl
    exact absurd hc (by decide)
  rintro ⟨s', hreturns, -⟩
  have hframe := @frame_of_returns _ _ _ [7] [] hpieces (by decide) (by decide) _ hreturns rfl
  exact hframe.1 ⟨[[1, 0]], [[0, 0, 7]], rfl, by decide, by decide⟩

end DWindow.X264Client
