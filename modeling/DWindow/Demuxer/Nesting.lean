import Mathlib.Data.List.Chain
import DWindow.Demuxer.Riff
import DWindow.Lib.Orbit

/-!
# The ranges of `demux_riff`

`demux_riff` turn by turn, with the calls that are under way on a stack.  What a turn reads is
arbitrary: `fread` leaves what was there where the file ends, so two visits to one place may
find different values.  Every turn takes eight bytes at least from the ranges that are still to
be walked, and a call gets the data of a chunk, which lies inside the range of its caller
(`riff_ends`).  On a file whose places are all there the calls make `demuxRiff`
(`reaches_demuxRiff`).
-/

namespace DWindow.Demuxer

open CInt Orbit

/-! ## Turns -/

/-- What a turn reads, in the byte order of the machine. -/
structure Reads where
  dataSize : Nat
  fourcc : Nat
  childDataSize : Nat
  childFourcc : Nat

/-- A chunk that is handed to `handle_data`. -/
structure Handed where
  fourcc : Nat
  index : Int
  size : Int

/-- A call of `demux_riff`: the range it was given, and its variables. -/
structure Frame where
  givenIndex : Int
  givenSize : Int
  index : Int
  size : Int

def Frame.call (index size : Int) : Frame := ⟨index, size, index, size⟩

/-- One turn of the loop: the call returns, or hands on a chunk, and with it perhaps a call. -/
inductive Turn
  | ret (result : Int)
  | chunk (handed : Handed) (child : Option Frame) (rest : Frame)

def Frame.turn (f : Frame) (r : Reads) : Turn :=
  if f.size < 8 then .ret 0
  else
    let dataSize := toDWORD ((r.dataSize : Int) - 8)
    if toDWORD (f.size - 8) < dataSize ∨ ¬ isValidFourcc r.fourcc then .ret (-1)
    else
      let childDataSize := toDWORD ((r.childDataSize : Int) - 8)
      .chunk ⟨r.fourcc, toInt32 (f.index + 8), toInt32 dataSize⟩
        (if 16 ≤ f.size ∧ isValidFourcc r.childFourcc ∧ childDataSize ≤ toDWORD (f.size - 16) then
          some (.call (toInt32 (f.index + 8)) (toInt32 dataSize)) else none)
        { f with
          index := toInt32 (f.index + toDWORD (8 + dataSize))
          size := toInt32 (f.size - toDWORD (8 + dataSize)) }

/-- The calls under way, the innermost first, what has been handed on, and what the last call to
return has returned. -/
structure Walk where
  time : Nat
  frames : List Frame
  handed : List Handed
  result : Int

/-- The next turn; `read` says what is read at a time and a place. -/
def Walk.next (read : Nat → Int → Reads) (s : Walk) : Option Walk :=
  match s.frames with
  | [] => none
  | f :: below =>
    match f.turn (read s.time f.index) with
    | .ret result => some { s with time := s.time + 1, frames := below, result := result }
    | .chunk handed child rest =>
      some { s with
        time := s.time + 1
        frames := child.toList ++ rest :: below
        handed := s.handed ++ [handed] }

/-- A range of places that an `int` can tell. -/
structure Range where
  index : Int
  size : Int
  index_nonneg : 0 ≤ index
  size_ge : -2 ^ 31 ≤ size
  upto_lt : index + size < 2 ^ 31

/-- The range of the constructor: the whole file, or what `ftell` returns when its size is no
`long`. -/
def Range.ofFile (src : Source) : Range :=
  if h : src.file.length < 2 ^ 31 then ⟨0, src.file.length, le_rfl, by omega, by omega⟩
  else ⟨0, -1, le_rfl, by decide, by decide⟩

/-- `demux_riff` as it is called. -/
def Range.start (r : Range) : Walk := ⟨0, [.call r.index r.size], [], 0⟩

/-! ## What is inside what -/

/-- What a call was given lies inside what another one was given. -/
def Frame.Inside (f g : Frame) : Prop :=
  g.givenIndex ≤ f.givenIndex ∧ f.givenIndex + f.givenSize ≤ g.givenIndex + g.givenSize

/-- Each call's range lies inside that of the one it was made by. -/
def Nested (frames : List Frame) : Prop := frames.IsChain Frame.Inside

/-- What a call has still to walk is the end of what it was given. -/
structure Frame.Tail (f : Frame) : Prop where
  given : 0 ≤ f.givenIndex
  index : f.givenIndex ≤ f.index
  upto : f.index + f.size = f.givenIndex + f.givenSize
  size : -2 ^ 31 ≤ f.size
  lt : f.index + f.size < 2 ^ 31

/-- **What a turn does**, with a range that an `int` can tell: nothing wraps. -/
theorem Frame.turn_cases {f : Frame} (h : f.Tail) (r : Reads) :
    (∃ result, f.turn r = .ret result) ∨ ∃ (d : Nat) (fourcc : Nat) (child : Option Frame),
      8 + d ≤ f.size ∧ (child = none ∨ child = some (.call (f.index + 8) d)) ∧
        f.turn r = .chunk ⟨fourcc, f.index + 8, d⟩ child
          { f with index := f.index + (8 + d), size := f.size - (8 + d) } := by
  have hgiven := h.given
  have hindex := h.index
  have hlt := h.lt
  rw [turn]
  by_cases hsize : f.size < 8
  · rw [if_pos hsize]
    exact Or.inl ⟨0, rfl⟩
  · rw [if_neg hsize]
    dsimp only
    split
    · exact Or.inl ⟨-1, rfl⟩
    · rename_i hin
      rw [not_or] at hin
      have hroom := toDWORD_of_lt (n := f.size - 8) (by omega) (by omega)
      generalize toDWORD ((r.dataSize : Int) - 8) = d at hin
      have hd : (8 + d : Int) ≤ f.size := by omega
      have hsum := toDWORD_of_lt (n := 8 + (d : Int)) (by omega) (by omega)
      rw [hsum, toInt32_of_lt (n := f.index + 8) (by omega) (by omega),
        toInt32_of_lt (n := (d : Int)) (by omega) (by omega),
        toInt32_of_lt (n := f.index + (8 + d)) (by omega) (by omega),
        toInt32_of_lt (n := f.size - (8 + d)) (by omega) (by omega)]
      refine Or.inr ⟨d, r.fourcc, _, hd, ?_, rfl⟩
      split
      · exact Or.inr rfl
      · exact Or.inl rfl

/-! ## The walk -/

/-- The calls under way are nested, and each walks the end of its range. -/
structure Walk.Ok (s : Walk) : Prop where
  nested : Nested s.frames
  tail : ∀ f ∈ s.frames, f.Tail

/-- The bytes that are still to be walked, and one for each call. -/
def Walk.rank (s : Walk) : Nat := (s.frames.map fun f => f.size.toNat + 1).sum

theorem Range.start_ok (r : Range) : r.start.Ok where
  nested := List.isChain_singleton _
  tail := by
    intro f hf
    obtain rfl := List.mem_singleton.mp hf
    exact ⟨r.index_nonneg, le_rfl, rfl, r.size_ge, r.upto_lt⟩

/-- **The step**: a turn keeps the calls nested, and less is left to walk. -/
theorem Walk.Ok.next {read : Nat → Int → Reads} {s t : Walk} (h : s.Ok)
    (hnext : s.next read = some t) : t.Ok ∧ t.rank < s.rank := by
  obtain ⟨time, frames, handed, result⟩ := s
  cases frames with
  | nil => cases hnext
  | cons f below =>
    obtain ⟨htail, hbelow⟩ := List.forall_mem_cons.mp h.tail
    obtain ⟨result', hturn⟩ | ⟨d, fourcc, child, hd, hchild, hturn⟩ :=
      f.turn_cases htail (read time f.index)
    · -- the call returns
      simp only [Walk.next, hturn] at hnext
      obtain rfl := Option.some.inj hnext
      refine ⟨⟨h.nested.tail, hbelow⟩, ?_⟩
      simp only [rank, List.map_cons, List.sum_cons]
      omega
    · simp only [Walk.next, hturn] at hnext
      obtain rfl := Option.some.inj hnext
      have hgiven := htail.given
      have hindex := htail.index
      have hupto := htail.upto
      have hsize := htail.size
      have hlt := htail.lt
      -- the call itself goes on with the same range
      have hrest : Frame.Tail { f with index := f.index + (8 + d), size := f.size - (8 + d) } :=
        ⟨hgiven, by dsimp only; omega, by dsimp only; omega, by dsimp only; omega,
          by dsimp only; omega⟩
      have hnested : Nested ({ f with index := f.index + (8 + d), size := f.size - (8 + d) } ::
          below) := by
        cases below with
        | nil => exact List.isChain_singleton _
        | cons g below =>
          obtain ⟨hin, hchain⟩ := List.isChain_cons_cons.mp h.nested
          exact List.isChain_cons_cons.mpr ⟨hin, hchain⟩
      obtain rfl | rfl := hchild
      · refine ⟨⟨hnested, List.forall_mem_cons.mpr ⟨hrest, hbelow⟩⟩, ?_⟩
        simp only [rank, Option.toList_none, List.nil_append, List.map_cons, List.sum_cons]
        omega
      · refine ⟨⟨List.isChain_cons_cons.mpr ⟨⟨?_, ?_⟩, hnested⟩,
          List.forall_mem_cons.mpr ⟨?_, List.forall_mem_cons.mpr ⟨hrest, hbelow⟩⟩⟩, ?_⟩
        · dsimp only [Frame.call]
          omega
        · dsimp only [Frame.call]
          omega
        · constructor <;> dsimp only [Frame.call] <;> omega
        · simp only [rank, Option.toList_some, List.singleton_append, List.map_cons,
            List.sum_cons, Frame.call]
          omega

/-! ## On a file -/

def Source.reads (src : Source) (index : Nat) : Reads where
  dataSize := BigEndian.readDWORD src.byte index
  fourcc := src.fourcc index
  childDataSize := BigEndian.readDWORD src.byte (index + 8)
  childFourcc := src.fourcc (index + 8)

/-- A chunk as `handle_data` gets it. -/
def Chunk.handed (c : Chunk) : Handed := ⟨c.fourcc, c.index, c.size⟩

/-- The call that a chunk may lead to. -/
def Source.child (src : Source) (index size : Nat) : Option Frame :=
  if 16 ≤ size ∧ isValidFourcc (src.fourcc (index + 8)) ∧ src.dataSize (index + 8) ≤ size - 16 then
    some (.call ((index + 8 : Nat) : Int) (src.dataSize index))
  else none

theorem Source.turn_eq (src : Source) (gi gs : Int) {index size : Nat}
    (hlt : index + size < 2 ^ 31) :
    Frame.turn ⟨gi, gs, index, size⟩ (src.reads index) =
      if size < 8 then .ret 0
      else if size - 8 < src.dataSize index ∨ ¬ isValidFourcc (src.fourcc index) then .ret (-1)
      else .chunk (Chunk.handed ⟨src.fourcc index, index + 8, src.dataSize index⟩)
        (src.child index size)
        ⟨gi, gs, ((index + (8 + src.dataSize index) : Nat) : Int),
          ((size - (8 + src.dataSize index) : Nat) : Int)⟩ := by
  have hdata : toDWORD ((BigEndian.readDWORD src.byte index : Int) - 8) = src.dataSize index := rfl
  have hchild : toDWORD ((BigEndian.readDWORD src.byte (index + 8) : Int) - 8) =
      src.dataSize (index + 8) := rfl
  rw [Frame.turn, Source.reads]
  dsimp only
  rw [hdata, hchild]
  by_cases hsize : size < 8
  · rw [if_pos hsize, if_pos (by omega)]
  · rw [if_neg hsize, if_neg (by omega)]
    have hroom : toDWORD ((size : Int) - 8) = size - 8 := by
      have := toDWORD_of_lt (n := (size : Int) - 8) (by omega) (by omega)
      omega
    rw [hroom]
    by_cases hout : size - 8 < src.dataSize index ∨ ¬ isValidFourcc (src.fourcc index)
    · rw [if_pos hout, if_pos hout]
    · rw [if_neg hout, if_neg hout]
      rw [not_or] at hout
      have hsum : toDWORD (8 + (src.dataSize index : Int)) = 8 + src.dataSize index := by
        have := toDWORD_of_lt (n := 8 + (src.dataSize index : Int)) (by omega) (by omega)
        omega
      have hrest : toInt32 ((size : Int) - ((8 + src.dataSize index : Nat) : Int)) =
          ((size - (8 + src.dataSize index) : Nat) : Int) := by
        rw [toInt32_of_lt (by omega) (by omega)]
        omega
      rw [hsum, hrest, toInt32_of_lt (n := (index : Int) + 8) (by omega) (by omega),
        toInt32_of_lt (n := (src.dataSize index : Int)) (by omega) (by omega),
        toInt32_of_lt (n := (index : Int) + ((8 + src.dataSize index : Nat) : Int))
          (by omega) (by omega)]
      have hcond : (16 ≤ (size : Int) ∧ isValidFourcc (src.fourcc (index + 8)) ∧
          src.dataSize (index + 8) ≤ toDWORD ((size : Int) - 16)) ↔
          16 ≤ size ∧ isValidFourcc (src.fourcc (index + 8)) ∧
            src.dataSize (index + 8) ≤ size - 16 := by
        constructor
        · rintro ⟨hbig, hvalid, hfits⟩
          have := toDWORD_of_lt (n := (size : Int) - 16) (by omega) (by omega)
          exact ⟨by omega, hvalid, by omega⟩
        · rintro ⟨hbig, hvalid, hfits⟩
          have := toDWORD_of_lt (n := (size : Int) - 16) (by omega) (by omega)
          exact ⟨by omega, hvalid, by omega⟩
      rw [if_congr hcond rfl rfl]
      rfl

/-- A turn of a call at a chunk. -/
theorem Source.next_chunk (src : Source) (gi gs : Int) {index size : Nat}
    (hlt : index + size < 2 ^ 31) (hsize : ¬size < 8)
    (hin : ¬(size - 8 < src.dataSize index ∨ ¬isValidFourcc (src.fourcc index))) (time : Nat)
    (below : List Frame) (handed : List Handed) (result : Int) :
    Walk.next (fun _ i => src.reads i.toNat)
        ⟨time, ⟨gi, gs, index, size⟩ :: below, handed, result⟩ =
      some ⟨time + 1, (src.child index size).toList ++
        ⟨gi, gs, ((index + (8 + src.dataSize index) : Nat) : Int),
          ((size - (8 + src.dataSize index) : Nat) : Int)⟩ :: below,
        handed ++ [Chunk.handed ⟨src.fourcc index, index + 8, src.dataSize index⟩], result⟩ := by
  have hturn := src.turn_eq gi gs hlt
  rw [if_neg hsize, if_neg hin] at hturn
  simp only [Walk.next, Int.toNat_natCast, hturn]

/-- What a call that hands on a chunk makes of its `children` and of what stands behind it. -/
theorem demuxRiff_chunk {fourcc dataSize : Nat → Nat} {index size : Nat} (hsize : ¬size < 8)
    (hin : ¬(size - 8 < dataSize index ∨ ¬isValidFourcc (fourcc index))) (children : List Chunk)
    (hchildren : children =
      if 16 ≤ size ∧ isValidFourcc (fourcc (index + 8)) ∧ dataSize (index + 8) ≤ size - 16 then
        (demuxRiff fourcc dataSize (index + 8) (dataSize index)).2
      else []) {next : Int × List Chunk}
    (hnext : next = demuxRiff fourcc dataSize (index + (8 + dataSize index))
      (size - (8 + dataSize index))) :
    demuxRiff fourcc dataSize index size =
      (next.1, ⟨fourcc index, index + 8, dataSize index⟩ :: (children ++ next.2)) := by
  rw [demuxRiff, if_neg hsize, if_neg hin, hchildren, hnext]

/-- **On a file the calls make `demuxRiff`**: a call hands on its chunks, in order, and returns
its result. -/
theorem reaches_demuxRiff (src : Source) : ∀ (size index : Nat) (gi gs : Int)
    (below : List Frame) (time : Nat) (handed : List Handed) (result : Int),
    index + size < 2 ^ 31 → ∃ time',
      Reaches (Walk.next fun _ i => src.reads i.toNat)
        ⟨time, ⟨gi, gs, index, size⟩ :: below, handed, result⟩
        ⟨time', below,
          handed ++ (demuxRiff src.fourcc src.dataSize index size).2.map Chunk.handed,
          (demuxRiff src.fourcc src.dataSize index size).1⟩ := by
  intro size
  induction size using Nat.strong_induction_on with
  | _ size ih =>
    intro index gi gs below time handed result hlt
    have hturn := src.turn_eq gi gs hlt
    by_cases hsize : size < 8
    · rw [demuxRiff, if_pos hsize]
      rw [if_pos hsize] at hturn
      refine ⟨time + 1, .step ?_⟩
      simp [Walk.next, hturn]
    · rw [if_neg hsize] at hturn
      by_cases hout : size - 8 < src.dataSize index ∨ ¬ isValidFourcc (src.fourcc index)
      · rw [demuxRiff, if_neg hsize, if_pos hout]
        rw [if_pos hout] at hturn
        refine ⟨time + 1, .step ?_⟩
        simp [Walk.next, hturn]
      · have hroom := not_or.mp hout
        have hstep := src.next_chunk gi gs hlt hsize hout time below handed result
        -- both calls stand under names, so that no step unfolds them
        obtain ⟨next, hnext⟩ : ∃ next, next = demuxRiff src.fourcc src.dataSize
            (index + (8 + src.dataSize index)) (size - (8 + src.dataSize index)) := ⟨_, rfl⟩
        have hrest := ih (size - (8 + src.dataSize index)) (by omega)
          (index + (8 + src.dataSize index)) gi gs below
        rw [← hnext] at hrest
        unfold Source.child at hstep
        by_cases hchild : 16 ≤ size ∧ isValidFourcc (src.fourcc (index + 8)) ∧
            src.dataSize (index + 8) ≤ size - 16
        · obtain ⟨children, hchildren⟩ : ∃ children, children =
              demuxRiff src.fourcc src.dataSize (index + 8) (src.dataSize index) := ⟨_, rfl⟩
          rw [if_pos hchild] at hstep
          rw [demuxRiff_chunk hsize hout children.2
            (by rw [if_pos hchild, hchildren]) hnext]
          obtain ⟨time₁, hfirst⟩ := ih (src.dataSize index) (by omega) (index + 8)
            ((index + 8 : Nat) : Int) (src.dataSize index)
            (⟨gi, gs, ((index + (8 + src.dataSize index) : Nat) : Int),
              ((size - (8 + src.dataSize index) : Nat) : Int)⟩ :: below) (time + 1)
            (handed ++ [Chunk.handed ⟨src.fourcc index, index + 8, src.dataSize index⟩]) result
            (by omega)
          rw [← hchildren] at hfirst
          obtain ⟨time₂, hbehind⟩ := hrest time₁
            (handed ++ [Chunk.handed ⟨src.fourcc index, index + 8, src.dataSize index⟩] ++
              children.2.map Chunk.handed) children.1 (by omega)
          refine ⟨time₂, (Reaches.step hstep).trans (hfirst.trans ?_)⟩
          simpa using hbehind
        · rw [if_neg hchild] at hstep
          rw [demuxRiff_chunk hsize hout [] (by rw [if_neg hchild]) hnext]
          obtain ⟨time₂, hbehind⟩ := hrest (time + 1)
            (handed ++ [Chunk.handed ⟨src.fourcc index, index + 8, src.dataSize index⟩]) result
            (by omega)
          refine ⟨time₂, (Reaches.step hstep).trans ?_⟩
          simpa using hbehind

/-! ## The result -/

/-- **`demux_riff` ends**, whatever it reads, and every range that it enters lies inside that of
the call that enters it. -/
theorem riff_ends (read : Nat → Int → Reads) (r : Range) :
    Ends (Walk.next read) r.start ∧
      ∀ s, Reaches (Walk.next read) r.start s → Nested s.frames := by
  refine ⟨ends_of_rank Walk.Ok Walk.rank (fun s t h hnext => h.next hnext) r.start_ok,
    fun s hs => ?_⟩
  exact (hs.invariant Walk.Ok r.start_ok fun s t _ h hnext => (h.next hnext).1).nested

/-- A `moov` with a `trak` of eight bytes in it. -/
def trakFile : Source where
  file := [0, 0, 0, 24, 109, 111, 111, 118, 0, 0, 0, 16, 116, 114, 97, 107, 1, 2, 3, 4, 5, 6, 7, 8]
  stack := fun _ _ => 0
  heap := fun _ _ => 0

theorem riff_ends_trak : Ends (Walk.next fun _ i => trakFile.reads i.toNat)
      (Range.ofFile trakFile).start ∧
    ∀ s, Reaches (Walk.next fun _ i => trakFile.reads i.toNat) (Range.ofFile trakFile).start s →
      Nested s.frames :=
  riff_ends _ _

end DWindow.Demuxer
