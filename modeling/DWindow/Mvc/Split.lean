import DWindow.Mvc.StartCode
import Mathlib.Data.List.Infix

/-!
# The bytes of the access units

What `read_a_delimeter` leaves in `delimeter_buffer`, the repeated calls of it, and
the muxing loop of `main`, which writes each access unit and a watermark behind it.

Against this stands what an access unit is: NAL units of type 31 do not count, start
codes have four bytes, and a unit ends in front of a delimiter once it has one.

The memory behind the data is zero.  The offset SEI and the counters do not touch
the bytes and are left out, `readADelimeter` has them.  Running over the end of
`delimeter_buffer` is no result.
-/

namespace DWindow.Mvc

/-- `create_watermark`. -/
def watermark : List UInt8 :=
  [0, 0, 0, 1, 31] ++ "my12doom's mvc interlacer.".toList.map (fun c => UInt8.ofNat c.toNat)

/-- A unit is copied to `delimeter_buffer`, with a zero in front if its start code has
three bytes. -/
def writeNal (delimeterBuffer readBuffer : List UInt8) (nalSize : Nat) : Option (List UInt8) :=
  let written := delimeterBuffer ++ (if readBuffer[2]? = some 1 then [0] else []) ++
    readBuffer.take nalSize
  if written.length ≤ maxNalSize then some written else none

/-- The loop of `read_a_delimeter`: the bytes in `delimeter_buffer`, and the stream
behind them. -/
def delimeterBytesLoop :
    Nat → Bool → List UInt8 → List UInt8 → Option (List UInt8 × List UInt8)
  | 0, _, _, _ => none
  | fuel + 1, currentStart, delimeterBuffer, rest => do
    let nalSize ← readANal rest
    let readBuffer := rest.take maxNalSize ++ [0, 0, 0, 0, 0]
    let (type, _) ← nalType readBuffer
    if type = 31 then delimeterBytesLoop fuel currentStart delimeterBuffer (rest.drop nalSize)
    else if nalSize = 0 ∨ type = 9 ∨ type = 24 then
      if currentStart ∨ nalSize = 0 then some (delimeterBuffer, rest)
      else do
        let delimeterBuffer ← writeNal delimeterBuffer readBuffer nalSize
        delimeterBytesLoop fuel true delimeterBuffer (rest.drop nalSize)
    else do
      let delimeterBuffer ← writeNal delimeterBuffer readBuffer nalSize
      delimeterBytesLoop fuel currentStart delimeterBuffer (rest.drop nalSize)

/-- `read_a_delimeter`. -/
def delimeterBytes (rest : List UInt8) : Option (List UInt8 × List UInt8) :=
  delimeterBytesLoop (rest.length + 1) false [] rest

/-- Calls of `read_a_delimeter` until one returns `0`. -/
def readDelimetersLoop : Nat → List UInt8 → Option (List (List UInt8))
  | 0, _ => none
  | fuel + 1, rest => do
    let (delimeter, rest) ← delimeterBytes rest
    if delimeter.length = 0 then some []
    else (readDelimetersLoop fuel rest).map (delimeter :: ·)

def readDelimeters (rest : List UInt8) : Option (List (List UInt8)) :=
  readDelimetersLoop (rest.length + 1) rest

/-- The muxing loop of `main`: the buffer `out_buffer`, and the file written. -/
def muxLoop : Nat → List UInt8 → List UInt8 → List UInt8 → Option (List UInt8)
  | 0, _, _, _ => none
  | fuel + 1, rest, outBuffer, file => do
    let (delimeter, rest) ← delimeterBytes rest
    let outBuffer := outBuffer ++ delimeter ++ watermark
    let full := outBuffer.length ≥ maxNalSize * 2
    let file := if full then file ++ outBuffer else file
    let outBuffer := if full then [] else outBuffer
    if delimeter.length = 0 then some (file ++ outBuffer)
    else muxLoop fuel rest outBuffer file

/-- The file `main` writes. -/
def mux (rest : List UInt8) : Option (List UInt8) := muxLoop (rest.length + 1) rest [] []

/-- The type of a unit, `0` if nothing follows its start code. -/
def unitType : List UInt8 → Int
  | 0 :: 0 :: 0 :: 1 :: t :: _ => (t &&& 0x1f).toNat
  | 0 :: 0 :: 1 :: t :: _ => (t &&& 0x1f).toNat
  | _ => 0

def isDelimiter (n : List UInt8) : Bool := unitType n = 9 ∨ unitType n = 24

/-- A start code of three bytes widened to four. -/
def widen : List UInt8 → List UInt8
  | 0 :: 0 :: 1 :: l => 0 :: 0 :: 0 :: 1 :: l
  | l => l

def kept (ns : List (List UInt8)) : List (List UInt8) :=
  (ns.filter (fun n => decide (unitType n ≠ 31))).map widen

/-- The first access unit, if it has a delimiter already or not, and the units behind
it. -/
def takeUnit : Bool → List (List UInt8) → List (List UInt8) × List (List UInt8)
  | _, [] => ([], [])
  | started, n :: ns =>
    if started && isDelimiter n then ([], n :: ns)
    else
      let (first, behind) := takeUnit (started || isDelimiter n) ns
      (n :: first, behind)

def accessUnitsLoop : Nat → List (List UInt8) → List (List (List UInt8))
  | 0, _ => []
  | fuel + 1, ns =>
    if ns = [] then []
    else (takeUnit false ns).1 :: accessUnitsLoop fuel (takeUnit false ns).2

/-- The NAL units of the access units.  What stands in front of the first delimiter
belongs to its unit. -/
def accessUnits (ns : List (List UInt8)) : List (List (List UInt8)) :=
  accessUnitsLoop ns.length ns

/-- What one turn of `read_a_delimeter` does: a unit of type 31 is skipped, an empty
one or a second delimiter is the end, another one is written. -/
theorem delimeterLoop_cases {behind : Nat → List UInt8} {fuel : Nat} {currentStart : Bool}
    {d d' : Delimeter} (h : delimeterLoop behind (fuel + 1) currentStart d = some d') :
    ∃ nalSize type startCodeLen table sei, readANal d.rest = some nalSize ∧
      nalType (d.rest.take maxNalSize ++ behind d.rest.length) = some (type, startCodeLen) ∧
      ((type = 31 ∧ delimeterLoop behind fuel currentStart
          ⟨d.size, d.rest.drop nalSize, table, sei⟩ = some d') ∨
        (type ≠ 31 ∧ (nalSize = 0 ∨ type = 9 ∨ type = 24) ∧ (currentStart ∨ nalSize = 0) ∧
          d'.size = d.size ∧ d'.rest = d.rest) ∨
        (type ≠ 31 ∧ nalSize ≠ 0 ∧ ((type = 9 ∨ type = 24) → currentStart = false) ∧
          delimeterLoop behind fuel (currentStart || (type = 9 ∨ type = 24))
            ⟨d.size + (if (d.rest.take maxNalSize ++ behind d.rest.length)[2]? = some 1
              then 1 else 0) + nalSize, d.rest.drop nalSize, table, sei⟩ = some d')) := by
  simp only [delimeterLoop, Option.bind_eq_bind, Option.bind_eq_some_iff] at h
  obtain ⟨nalSize, hnal, ⟨type, startCodeLen⟩, htype, h⟩ := h
  have hsei : ∃ table sei, (if type = 31 then delimeterLoop behind fuel currentStart
        ⟨d.size, d.rest.drop nalSize, table, sei⟩
      else if nalSize = 0 ∨ type = 9 ∨ type = 24 then
        if currentStart ∨ nalSize = 0 then some ⟨d.size, d.rest, table, sei⟩
        else delimeterLoop behind fuel true
          ⟨d.size + (if (d.rest.take maxNalSize ++ behind d.rest.length)[2]? = some 1
            then 1 else 0) + nalSize, d.rest.drop nalSize, table, sei⟩
      else delimeterLoop behind fuel currentStart
        ⟨d.size + (if (d.rest.take maxNalSize ++ behind d.rest.length)[2]? = some 1
          then 1 else 0) + nalSize, d.rest.drop nalSize, table, sei⟩) = some d' := by
    split at h
    · obtain ⟨⟨table, sei⟩, -, h⟩ := Option.bind_eq_some_iff.mp h
      exact ⟨table, _, h⟩
    · rw [Option.bind_some] at h
      exact ⟨_, _, h⟩
  obtain ⟨table, sei, h⟩ := hsei
  refine ⟨nalSize, type, startCodeLen, table, sei, hnal, htype, ?_⟩
  split at h
  · next h31 => exact .inl ⟨h31, h⟩
  · next h31 =>
    right
    split at h
    · next hend =>
      split at h
      · next hstop =>
        cases h
        exact .inl ⟨h31, hend, hstop, rfl, rfl⟩
      · next hstop =>
        push Not at hstop
        have hdel := hend.resolve_left hstop.2
        refine .inr ⟨h31, hstop.2, fun _ => by simpa using hstop.1, ?_⟩
        rw [decide_eq_true hdel, Bool.or_true]
        exact h
    · next hend =>
      push Not at hend
      have hdel : ¬ (type = 9 ∨ type = 24) := by tauto
      refine .inr ⟨h31, hend.1, fun h => absurd h hdel, ?_⟩
      rw [decide_eq_false hdel, Bool.or_false]
      exact h

theorem delimeterLoop_size_le {behind : Nat → List UInt8} (fuel : Nat) (currentStart : Bool)
    {d d' : Delimeter} (h : delimeterLoop behind fuel currentStart d = some d') :
    d.size ≤ d'.size := by
  induction fuel generalizing currentStart d with
  | zero => simp [delimeterLoop] at h
  | succ fuel ih =>
    obtain ⟨nalSize, type, _, table, sei, -, -, h⟩ := delimeterLoop_cases h
    rcases h with ⟨-, h⟩ | ⟨-, -, -, hsize, -⟩ | ⟨-, -, -, h⟩
    · have := ih _ h
      exact this
    · exact Nat.le_of_eq hsize.symm
    · have := ih _ h
      dsimp only at this
      omega

theorem nalType_append (l r r' : List UInt8) (hr : [0, 0, 0, 0, 0] <+: r)
    (hr' : [0, 0, 0, 0, 0] <+: r') :
    nalType (l ++ r) = nalType (l ++ r') ∧ (l ++ r)[2]? = (l ++ r')[2]? := by
  obtain ⟨t, rfl⟩ := hr
  obtain ⟨t', rfl⟩ := hr'
  rcases l with _ | ⟨a, _ | ⟨b, _ | ⟨c, _ | ⟨d, _ | ⟨e, l⟩⟩⟩⟩⟩ <;> simp [nalType]

theorem readANal_le {rest : List UInt8} {nalSize : Nat} (h : readANal rest = some nalSize) :
    nalSize ≤ (rest.take maxNalSize).length := by
  unfold readANal at h
  dsimp only at h
  split at h
  · cases h
    exact Nat.zero_le _
  · split at h
    · cases h
    · rw [findStartCode_eq] at h
      cases h
      cases hj : (nextStartCode ((rest.take maxNalSize).drop 3)).filter
          (fun j => decide (j < (rest.take maxNalSize).length - 3 - 3)) with
      | none => exact Nat.le_refl _
      | some j =>
        have := of_decide_eq_true (Option.filter_eq_some_iff.mp hj).2
        rw [Option.map_some, Option.getD_some]
        omega

theorem writeNal_length (buffer data : List UInt8) (nalSize : Nat) (hdata : nalSize ≤ data.length)
    (hfit : buffer.length + (if data[2]? = some 1 then 1 else 0) + nalSize ≤ maxNalSize) :
    ∃ b, writeNal buffer data nalSize = some b ∧
      b.length = buffer.length + (if data[2]? = some 1 then 1 else 0) + nalSize := by
  have hlen : (buffer ++ (if data[2]? = some 1 then [0] else []) ++ data.take nalSize).length =
      buffer.length + (if data[2]? = some 1 then 1 else 0) + nalSize := by
    rw [List.length_append, List.length_append, List.length_take, Nat.min_eq_left hdata]
    split <;> rfl
  exact ⟨_, if_pos (by rw [hlen]; exact hfit), hlen⟩

theorem delimeterBytesLoop_of_delimeterLoop {behind : Nat → List UInt8}
    (hbehind : ∀ n, [0, 0, 0, 0, 0] <+: behind n) (fuel : Nat) (currentStart : Bool)
    {buffer : List UInt8} {d d' : Delimeter} (hd : buffer.length = d.size)
    (h : delimeterLoop behind fuel currentStart d = some d') (hsize : d'.size ≤ maxNalSize) :
    ∃ bytes, delimeterBytesLoop fuel currentStart buffer d.rest = some (bytes, d'.rest) ∧
      bytes.length = d'.size := by
  induction fuel generalizing currentStart buffer d with
  | zero => simp [delimeterLoop] at h
  | succ fuel ih =>
    obtain ⟨nalSize, type, _, table, sei, hnal, htype, h⟩ := delimeterLoop_cases h
    obtain ⟨htype', htwo⟩ := nalType_append (d.rest.take maxNalSize) _ [0, 0, 0, 0, 0]
      (hbehind d.rest.length) (List.prefix_refl _)
    rw [htype'] at htype
    rw [htwo] at h
    simp only [delimeterBytesLoop, hnal, htype, Option.bind_eq_bind, Option.bind_some]
    rcases h with ⟨h31, h⟩ | ⟨h31, hend, hstop, hs, hr⟩ | ⟨h31, hne, hdel, h⟩
    · rw [if_pos h31]
      exact ih (d := ⟨d.size, d.rest.drop nalSize, table, sei⟩) currentStart hd h
    · rw [if_neg h31, if_pos hend, if_pos hstop, hs, hr]
      exact ⟨buffer, rfl, hd⟩
    · have hle := delimeterLoop_size_le _ _ h
      have hnalSize := readANal_le hnal
      dsimp only at hle
      obtain ⟨b, hb, hlen⟩ := writeNal_length buffer (d.rest.take maxNalSize ++ [0, 0, 0, 0, 0])
        nalSize (by rw [List.length_append]; omega) (by omega)
      rw [hd] at hlen
      obtain ⟨bytes, hbytes, hbl⟩ := ih _ hlen h
      refine ⟨bytes, ?_, hbl⟩
      rw [if_neg h31]
      by_cases hdelim : type = 9 ∨ type = 24
      · rw [if_pos (.inr hdelim), if_neg (by simp [hdel hdelim, hne]), hb, Option.bind_some]
        rw [decide_eq_true hdelim, Bool.or_true] at hbytes
        exact hbytes
      · rw [if_neg (by tauto), hb, Option.bind_some]
        rw [decide_eq_false hdelim, Bool.or_false] at hbytes
        exact hbytes

theorem delimeterBytes_of_readADelimeter {behind : Nat → List UInt8}
    (hbehind : ∀ n, [0, 0, 0, 0, 0] <+: behind n) {rest : List UInt8} {table : OffsetMetadata}
    {d : Delimeter} (h : readADelimeter behind rest table = some d)
    (hsize : d.size ≤ maxNalSize) :
    ∃ bytes, delimeterBytes rest = some (bytes, d.rest) ∧ bytes.length = d.size :=
  delimeterBytesLoop_of_delimeterLoop hbehind (rest.length + 1) false
    (d := ⟨0, rest, table, none⟩) rfl h hsize

/-- The bytes behind the window do not matter for the type. -/
theorem nalType_take (l : List UInt8) {k : Nat} (hk : 5 ≤ k) :
    nalType (l.take k ++ [0, 0, 0, 0, 0]) = nalType (l ++ [0, 0, 0, 0, 0]) ∧
      (l.take k ++ [0, 0, 0, 0, 0])[2]? = (l ++ [0, 0, 0, 0, 0])[2]? := by
  obtain ⟨k, rfl⟩ := Nat.exists_eq_add_of_le' hk
  rcases l with _ | ⟨a, _ | ⟨b, _ | ⟨c, _ | ⟨d, _ | ⟨e, l⟩⟩⟩⟩⟩ <;> simp [nalType]

theorem five_le_maxNalSize : 5 ≤ maxNalSize := by decide

theorem Chained.zero_next {ns : List (List UInt8)} (h : Chained ns) :
    ∃ t, ns.flatten ++ [0, 0, 0, 0, 0] = 0 :: t := by
  cases ns with
  | nil => exact ⟨_, rfl⟩
  | cons n ns =>
    rcases isStartCode_iff.mp h.1 with ⟨r, rfl⟩ | ⟨r, rfl⟩
    · exact ⟨_, rfl⟩
    · exact ⟨_, rfl⟩

theorem nalType_chained {n : List UInt8} {ns : List (List UInt8)} (h : Chained (n :: ns)) :
    (nalType ((n ++ ns.flatten).take maxNalSize ++ [0, 0, 0, 0, 0])).map Prod.fst =
      some (unitType n) := by
  obtain ⟨t, ht⟩ := h.tail.zero_next
  rw [(nalType_take _ five_le_maxNalSize).1, List.append_assoc, ht]
  rcases isStartCode_iff.mp h.1 with ⟨r, rfl⟩ | ⟨r, rfl⟩
  · cases r with
    | nil =>
      have : nalType (0 :: 0 :: 0 :: 1 :: 0 :: t) = some (0, 4) := rfl
      exact congrArg (Option.map Prod.fst) this
    | cons b r => simp [nalType, unitType]
  · cases r with
    | nil =>
      cases t with
      | nil =>
        have := congrArg List.length ht
        simp at this
      | cons c t => simp [nalType, unitType]
    | cons b r =>
      cases r <;> simp [nalType, unitType]

/-- A whole unit at the front of a chain is written widened. -/
theorem writeNal_chained {n : List UInt8} {ns : List (List UInt8)} (h : Chained (n :: ns))
    (hn : n.length ≤ maxNalSize) (buffer : List UInt8) :
    writeNal buffer ((n ++ ns.flatten).take maxNalSize ++ [0, 0, 0, 0, 0]) n.length =
      if (buffer ++ widen n).length ≤ maxNalSize then some (buffer ++ widen n) else none := by
  have htake : ((n ++ ns.flatten).take maxNalSize ++ [0, 0, 0, 0, 0]).take n.length = n := by
    rw [List.take_append_of_le_length (by rw [List.length_take, List.length_append]; omega),
      List.take_take, Nat.min_eq_left hn, List.take_left]
  have hwiden : (if ((n ++ ns.flatten).take maxNalSize ++ [0, 0, 0, 0, 0])[2]? = some 1
      then [0] else []) ++ n = widen n := by
    rw [(nalType_take _ five_le_maxNalSize).2]
    rcases isStartCode_iff.mp h.1 with ⟨r, rfl⟩ | ⟨r, rfl⟩ <;> simp [widen]
  unfold writeNal
  rw [htake, List.append_assoc, hwiden]

/-- The search sees the end of a unit: four bytes of the window are left behind it, or
nothing follows. -/
def Seen (n : List UInt8) (ns : List (List UInt8)) : Prop :=
  n.length + 4 ≤ maxNalSize ∨ ns = [] ∧ n.length ≤ maxNalSize

theorem Seen.length_le {n : List UInt8} {ns : List (List UInt8)} (h : Seen n ns) :
    n.length ≤ maxNalSize := by
  rcases h with h | h
  · omega
  · exact h.2

/-- One turn of `read_a_delimeter` on a chain whose first unit is seen whole. -/
theorem delimeterBytesLoop_cons {n : List UInt8} {ns : List (List UInt8)}
    (h : Chained (n :: ns)) (hseen : Seen n ns) (fuel : Nat) (started : Bool)
    (buffer : List UInt8) :
    delimeterBytesLoop (fuel + 1) started buffer (n ++ ns.flatten) =
      if unitType n = 31 then delimeterBytesLoop fuel started buffer ns.flatten
      else if started && isDelimiter n then some (buffer, n ++ ns.flatten)
      else if (buffer ++ widen n).length ≤ maxNalSize then
        delimeterBytesLoop fuel (started || isDelimiter n) (buffer ++ widen n) ns.flatten
      else none := by
  have hpos : 3 ≤ n.length := isStartCode_length h.1
  have hsize : readANal (n ++ ns.flatten) = some n.length := by
    rw [readANal_chained h]
    rcases hseen with hfit | ⟨rfl, hlast⟩
    · rw [if_pos hfit]
      split
      · rw [Nat.min_eq_right (by omega)]
      · rfl
    · rw [if_pos rfl, Nat.min_eq_right hlast]
  obtain ⟨⟨type, startCodeLen⟩, htype, rfl⟩ := Option.map_eq_some_iff.mp (nalType_chained h)
  have hwrite := writeNal_chained h hseen.length_le buffer
  simp only [delimeterBytesLoop, hsize, htype, hwrite, Option.bind_eq_bind, Option.bind_some,
    List.drop_left]
  have hne : n.length ≠ 0 := by omega
  congr 1
  by_cases hdelim : unitType n = 9 ∨ unitType n = 24
  · have hd : isDelimiter n = true := decide_eq_true hdelim
    rw [if_pos (.inr hdelim), hd, Bool.and_true, Bool.or_true]
    cases started
    · rw [if_neg (show ¬ (false = true ∨ n.length = 0) by simp [hne]),
        if_neg Bool.false_ne_true]
      split <;> rfl
    · simp
  · have hd : isDelimiter n = false := decide_eq_false hdelim
    rw [if_neg (by tauto), hd, Bool.and_false, Bool.or_false, if_neg Bool.false_ne_true]
    split <;> rfl

theorem delimeterBytesLoop_nil (fuel : Nat) (started : Bool) (buffer : List UInt8) :
    delimeterBytesLoop (fuel + 1) started buffer [] = some (buffer, []) := by
  simp [delimeterBytesLoop, readANal, nalType]

def AllSeen : List (List UInt8) → Prop
  | [] => True
  | n :: ns => Seen n ns ∧ AllSeen ns

theorem kept_cons_dropped {n : List UInt8} (ns : List (List UInt8)) (h : unitType n = 31) :
    kept (n :: ns) = kept ns := by
  simp [kept, h]

theorem kept_cons {n : List UInt8} (ns : List (List UInt8)) (h : unitType n ≠ 31) :
    kept (n :: ns) = widen n :: kept ns := by
  simp [kept, h]

theorem unitType_widen {n : List UInt8} (h : isStartCode n = true) :
    unitType (widen n) = unitType n := by
  rcases isStartCode_iff.mp h with ⟨r, rfl⟩ | ⟨r, rfl⟩
  · rfl
  · cases r <;> simp [widen, unitType]

theorem isDelimiter_widen {n : List UInt8} (h : isStartCode n = true) :
    isDelimiter (widen n) = isDelimiter n := by
  rw [isDelimiter, isDelimiter, unitType_widen h]

/-- `read_a_delimeter` on a chain whose units are seen whole: the first access unit of
what is kept, and the rest of the chain.  By induction on the chain. -/
theorem delimeterBytesLoop_chained {ns : List (List UInt8)} (h : Chained ns) (hseen : AllSeen ns)
    {fuel : Nat} (hfuel : ns.flatten.length < fuel) (started : Bool) (buffer : List UInt8)
    (hfit : (buffer ++ (takeUnit started (kept ns)).1.flatten).length ≤ maxNalSize) :
    ∃ rest, rest <:+ ns ∧ kept rest = (takeUnit started (kept ns)).2 ∧
      delimeterBytesLoop fuel started buffer ns.flatten =
        some (buffer ++ (takeUnit started (kept ns)).1.flatten, rest.flatten) := by
  obtain ⟨fuel, rfl⟩ : ∃ m, fuel = m + 1 := ⟨fuel - 1, by omega⟩
  induction ns generalizing fuel started buffer with
  | nil =>
    refine ⟨[], List.suffix_refl _, rfl, ?_⟩
    rw [List.flatten_nil, delimeterBytesLoop_nil]
    simp [kept, takeUnit]
  | cons n ns ih =>
    have hpos : 3 ≤ n.length := isStartCode_length h.1
    rw [List.flatten_cons, List.length_append] at hfuel
    obtain ⟨fuel, rfl⟩ : ∃ m, fuel = m + 1 := ⟨fuel - 1, by omega⟩
    rw [List.flatten_cons, delimeterBytesLoop_cons h hseen.1]
    by_cases h31 : unitType n = 31
    · rw [kept_cons_dropped ns h31] at hfit ⊢
      rw [if_pos h31]
      obtain ⟨rest, hrest, hkept, hloop⟩ :=
        ih h.tail hseen.2 started buffer hfit fuel (by omega)
      exact ⟨rest, hrest.trans (List.suffix_cons n ns), hkept, hloop⟩
    · rw [kept_cons ns h31] at hfit ⊢
      rw [takeUnit, isDelimiter_widen h.1] at hfit ⊢
      rw [if_neg h31]
      by_cases hstop : (started && isDelimiter n) = true
      · rw [if_pos hstop, if_pos hstop]
        exact ⟨n :: ns, List.suffix_refl _, kept_cons ns h31, by simp⟩
      · rw [if_neg hstop] at hfit ⊢
        rw [if_neg hstop]
        dsimp only at hfit ⊢
        rw [List.flatten_cons, ← List.append_assoc] at hfit
        rw [if_pos (by rw [List.length_append] at hfit; omega)]
        obtain ⟨rest, hrest, hkept, hloop⟩ :=
          ih h.tail hseen.2 (started || isDelimiter n) (buffer ++ widen n) hfit fuel (by omega)
        refine ⟨rest, hrest.trans (List.suffix_cons n ns), hkept, ?_⟩
        rw [hloop, List.flatten_cons, List.append_assoc]

end DWindow.Mvc
