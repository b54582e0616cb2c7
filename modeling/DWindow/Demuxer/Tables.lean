import Mathlib.Data.List.Induction
import Mathlib.Tactic.NormNum
import DWindow.Demuxer.Riff
import DWindow.Lib.Segments

/-!
# Complete tables

A stream is complete when its tables have an entry for every packet.  The number of packets
comes from the last `stsz` of a track and the entries of the index from the number of packets
that is known when the last `stco` comes, so the tables are complete if and only if the chunks
of every track come in an order in which these two agree, and no table is too large for
`malloc`: `complete_iff`.
-/

namespace DWindow.Demuxer

open CInt BigEndian LittleEndian Segments

namespace Stream

/-- The tables of a stream with packets have an entry for every packet. -/
def Complete (s : Stream) : Prop :=
  0 < s.packetCount →
    (∃ table, s.packetIndex = some table ∧ (table.length : Int) = s.packetCount) ∧
    (s.cbr = 0 → ∃ table, s.packetSize = some table ∧ (table.length : Int) = s.packetCount)

/-- `FillBuffer` looks up only entries that there are. -/
def Plays (s : Stream) : Prop :=
  ∀ frame start : Int, 0 ≤ frame → ∃ r, Pin.fillBuffer ⟨s, frame, start⟩ = some r

end Stream

/-- The number of packets known behind some chunks of a track. -/
def announced (src : Source) (track : List Chunk) : Int :=
  ((track.filter fun c => c.tag = some .stsz).getLast?.map fun c => src.field c 8).getD 0

/-- The table that a chunk asks for behind some others of its track is not too large. -/
def Fits (src : Source) (track : List Chunk) (c : Chunk) : Prop :=
  match c.tag with
  | some .stsz => src.field c 4 = 0 → src.field c 8 < 1073741824
  | some .stco => announced src track < 1073741824
  | some .stss => src.field c 4 < 1073741824
  | _ => True

/-- When the last `stco` comes, a table of `n` entries is made. -/
def LastIndexed (src : Source) (track : List Chunk) (n : Nat) : Prop :=
  ∃ a c b, track = a ++ c :: b ∧ c.tag = some .stco ∧ (∀ x ∈ b, x.tag ≠ some .stco) ∧
    entries (announced src a) = n

/-- An order of the chunks of a track that completes its tables. -/
structure TrackOrdered (src : Source) (track : List Chunk) : Prop where
  fits : EachAfter (Fits src) track
  indexed : 0 < announced src track → LastIndexed src track (announced src track).toNat

def Chunk.isTrak (c : Chunk) : Bool := c.tag = some .trak

/-- An order of the chunks of a file that completes the tables of all tracks: none that
`handle_data` knows comes before the first `trak`, and every track is in order. -/
def Ordered (src : Source) : Prop :=
  (∀ c ∈ (segments Chunk.isTrak src.demux.2).1, c.tag = none) ∧
    ∀ track ∈ (segments Chunk.isTrak src.demux.2).2, TrackOrdered src track

variable {src : Source}

/-! ## Tables -/

theorem field_range (src : Source) (c : Chunk) (i : Nat) :
    -2147483648 ≤ src.field c i ∧ src.field c i < 2147483648 := toInt32_range _

theorem length_table (c : Chunk) (offset : Nat) (count : Int) :
    (src.table c offset count).length = entries count := by
  rw [Source.table, List.length_map, List.length_range]

theorem entries_eq (count : Int) : (entries count : Int) = 4 * count % 4294967296 / 4 := by
  rw [entries, toDWORD]
  norm_num
  omega

/-- **The loop stays in the table** if and only if `malloc` did not wrap. -/
theorem reverseEntries_table (src : Source) {count : Int}
    (hcount : -2147483648 ≤ count ∧ count < 2147483648) (c : Chunk) (offset : Nat) :
    (count < 1073741824 → ∃ table,
      reverseEntries count (src.table c offset count) = some table ∧
        table.length = entries count) ∧
    (¬count < 1073741824 → reverseEntries count (src.table c offset count) = none) := by
  have hentries := entries_eq count
  rw [reverseEntries, length_table]
  constructor
  · intro h
    rw [if_neg (by omega)]
    refine ⟨_, rfl, ?_⟩
    rw [List.length_append, List.length_map, List.length_take, List.length_drop, length_table]
    omega
  · intro h
    rw [if_pos (by omega)]

theorem entries_of_lt {count : Int} (h0 : 0 ≤ count) (h : count < 1073741824) :
    (entries count : Int) = count := by
  have hentries := entries_eq count
  omega

/-! ## The chunks of a track -/

theorem announced_concat (track : List Chunk) (c : Chunk) :
    announced src (track ++ [c]) =
      if c.tag = some .stsz then src.field c 8 else announced src track := by
  rw [announced, List.filter_append]
  split
  · next h =>
    rw [List.filter_cons_of_pos (by simpa using h), List.filter_nil, List.getLast?_concat,
      Option.map_some, Option.getD_some]
  · next h =>
    rw [List.filter_cons_of_neg (by simpa using h), List.filter_nil, List.append_nil,
      announced]

theorem announced_range (src : Source) : ∀ track : List Chunk,
    -2147483648 ≤ announced src track ∧ announced src track < 2147483648 := by
  intro track
  induction track using List.reverseRecOn with
  | nil =>
    show (-2147483648 : Int) ≤ 0 ∧ (0 : Int) < 2147483648
    decide
  | append_singleton track c ih =>
    rw [announced_concat]
    split
    · exact field_range src c 8
    · exact ih

theorem lastIndexed_nil (n : Nat) : ¬LastIndexed src [] n := by
  rintro ⟨a, c, b, h, -⟩
  exact absurd h.symm (List.append_ne_nil_of_right_ne_nil _ (List.cons_ne_nil _ _))

theorem lastIndexed_concat (track : List Chunk) (c : Chunk) (n : Nat) :
    LastIndexed src (track ++ [c]) n ↔
      if c.tag = some .stco then entries (announced src track) = n
      else LastIndexed src track n := by
  split
  · next htag =>
    constructor
    · rintro ⟨a, x, b, h, hx, hb, hn⟩
      rcases List.eq_nil_or_concat b with rfl | ⟨b, z, rfl⟩
      · obtain ⟨rfl, -⟩ := List.append_inj' h rfl
        exact hn
      · rw [List.concat_eq_append, ← List.cons_append, ← List.append_assoc] at h
        obtain rfl := List.singleton_inj.mp (List.append_inj' h rfl).2
        refine absurd htag (hb c ?_)
        rw [List.concat_eq_append]
        exact List.mem_append_right _ (List.mem_singleton_self c)
    · intro hn
      exact ⟨track, c, [], rfl, htag, fun x hx => absurd hx List.not_mem_nil, hn⟩
  · next htag =>
    constructor
    · rintro ⟨a, x, b, h, hx, hb, hn⟩
      rcases List.eq_nil_or_concat b with rfl | ⟨b, z, rfl⟩
      · obtain rfl := List.singleton_inj.mp (List.append_inj' h rfl).2
        exact absurd hx htag
      · rw [List.concat_eq_append] at hb
        rw [List.concat_eq_append, ← List.cons_append, ← List.append_assoc] at h
        exact ⟨a, x, b, (List.append_inj' h rfl).1, hx,
          fun y hy => hb y (List.mem_append_left _ hy), hn⟩
    · rintro ⟨a, x, b, rfl, hx, hb, hn⟩
      refine ⟨a, x, b ++ [c], by rw [List.append_assoc, List.cons_append], hx, fun y hy => ?_, hn⟩
      rcases List.mem_append.mp hy with hy | hy
      · exact hb y hy
      · rw [List.mem_singleton.mp hy]
        exact htag

/-! ## The handlers along a track -/

/-- What a chunk other than a `trak` does to the current track. -/
def Source.handle (src : Source) (s : Stream) (c : Chunk) : Option Stream :=
  match c.tag with
  | none => some s
  | some tag => src.handleTag c s tag

/-- What holds of the stream behind some chunks of its track. -/
structure AfterTrack (src : Source) (track : List Chunk) (s : Stream) : Prop where
  count : s.packetCount = announced src track
  sizes : s.cbr = 0 → 0 < s.packetCount →
    ∃ table, s.packetSize = some table ∧ (table.length : Int) = s.packetCount
  index : ∀ n, (∃ table, s.packetIndex = some table ∧ table.length = n) ↔ LastIndexed src track n

theorem afterTrack_nil : AfterTrack src [] Stream.zero where
  count := rfl
  sizes := fun _ h => absurd h (by decide)
  index := fun n => iff_of_false (fun ⟨_, h, _⟩ => nomatch h) (lastIndexed_nil n)

/-- **A chunk that makes no packet table** leaves what holds. -/
theorem AfterTrack.keep {track : List Chunk} {s s' : Stream} {c : Chunk}
    (hs : AfterTrack src track s) (hstsz : c.tag ≠ some .stsz) (hstco : c.tag ≠ some .stco)
    (hcount : s'.packetCount = s.packetCount) (hcbr : s'.cbr = s.cbr)
    (hsize : s'.packetSize = s.packetSize) (hindex : s'.packetIndex = s.packetIndex) :
    AfterTrack src (track ++ [c]) s' where
  count := by rw [hcount, announced_concat, if_neg hstsz, hs.count]
  sizes := by
    rw [hcount, hcbr, hsize]
    exact hs.sizes
  index := fun n => by
    rw [hindex, lastIndexed_concat, if_neg hstco]
    exact hs.index n

/-- **A `stsz`** announces the packets. -/
theorem AfterTrack.stsz {track : List Chunk} {s s' : Stream} {c : Chunk}
    (hs : AfterTrack src track s) (htag : c.tag = some .stsz)
    (hcount : s'.packetCount = src.field c 8)
    (hsizes : s'.cbr = 0 → 0 < s'.packetCount →
      ∃ table, s'.packetSize = some table ∧ (table.length : Int) = s'.packetCount)
    (hindex : s'.packetIndex = s.packetIndex) : AfterTrack src (track ++ [c]) s' where
  count := by rw [hcount, announced_concat, if_pos htag]
  sizes := hsizes
  index := fun n => by
    rw [hindex, lastIndexed_concat, if_neg (by simp [htag])]
    exact hs.index n

/-- **A `stco`** makes an index for the packets announced. -/
theorem AfterTrack.stco {track : List Chunk} {s s' : Stream} {c : Chunk}
    (hs : AfterTrack src track s) (htag : c.tag = some .stco) {table : List Nat}
    (htable : table.length = entries (announced src track))
    (hcount : s'.packetCount = s.packetCount) (hcbr : s'.cbr = s.cbr)
    (hsize : s'.packetSize = s.packetSize) (hindex : s'.packetIndex = some table) :
    AfterTrack src (track ++ [c]) s' where
  count := by rw [hcount, announced_concat, if_neg (by simp [htag]), hs.count]
  sizes := by
    rw [hcount, hcbr, hsize]
    exact hs.sizes
  index := fun n => by
    rw [hindex, lastIndexed_concat, if_pos htag, ← htable]
    constructor
    · rintro ⟨table', h, hn⟩
      rw [Option.some.inj h]
      exact hn
    · intro hn
      exact ⟨table, rfl, hn⟩

/-- **One chunk**: it has a result if and only if its table fits. -/
theorem AfterTrack.handle {track : List Chunk} {s : Stream} (hs : AfterTrack src track s)
    (c : Chunk) :
    (Fits src track c → ∃ s', src.handle s c = some s' ∧ AfterTrack src (track ++ [c]) s') ∧
    (¬Fits src track c → src.handle s c = none) := by
  rw [Fits, Source.handle]
  cases htag : c.tag with
  | none =>
    refine ⟨fun _ => ⟨s, rfl, ?_⟩, fun h => absurd trivial h⟩
    exact hs.keep (by simp [htag]) (by simp [htag]) rfl rfl rfl rfl
  | some tag =>
    cases tag with
    | trak | tkhd | mdhd | vmhd | smhd =>
      refine ⟨fun _ => ⟨_, rfl, ?_⟩, fun h => absurd trivial h⟩
      exact hs.keep (by simp [htag]) (by simp [htag]) rfl rfl rfl rfl
    | stsd =>
      refine ⟨fun _ => ?_, fun h => absurd trivial h⟩
      dsimp only [Source.handleTag]
      split
      · exact ⟨_, rfl, hs.keep (by simp [htag]) (by simp [htag]) rfl rfl rfl rfl⟩
      · exact ⟨_, rfl, hs.keep (by simp [htag]) (by simp [htag]) rfl rfl rfl rfl⟩
    | stsz =>
      dsimp only [Source.handleTag]
      have hfits := (reverseEntries_table src (field_range src c 8) c 12).1
      have hwraps := (reverseEntries_table src (field_range src c 8) c 12).2
      by_cases hcbr : src.field c 4 = 0
      · rw [if_pos hcbr]
        refine ⟨fun h => ?_, fun h => ?_⟩
        · obtain ⟨table, htable, hlength⟩ := hfits (h hcbr)
          rw [htable, Option.map_some]
          refine ⟨_, rfl, ?_⟩
          apply hs.stsz htag
          · dsimp only
          · dsimp only
            intro _ hpos
            refine ⟨table, rfl, ?_⟩
            rw [hlength]
            exact entries_of_lt hpos.le (h hcbr)
          · rfl
        · rw [hwraps fun hlt => h fun _ => hlt, Option.map_none]
      · rw [if_neg hcbr]
        refine ⟨fun _ => ⟨_, rfl, ?_⟩, fun h => absurd (fun h' => absurd h' hcbr) h⟩
        apply hs.stsz htag
        · dsimp only
        · dsimp only
          exact fun h => absurd h hcbr
        · rfl
    | stco =>
      dsimp only [Source.handleTag]
      obtain ⟨hfits, hwraps⟩ := reverseEntries_table src (announced_range src track) c 8
      rw [hs.count]
      refine ⟨fun h => ?_, fun h => by rw [hwraps h, Option.map_none]⟩
      obtain ⟨table, htable, hlength⟩ := hfits h
      rw [htable, Option.map_some]
      exact ⟨_, rfl, hs.stco htag hlength hs.count.symm rfl rfl rfl⟩
    | stss =>
      dsimp only [Source.handleTag]
      obtain ⟨hfits, hwraps⟩ := reverseEntries_table src (field_range src c 4) c 8
      refine ⟨fun h => ?_, fun h => by rw [hwraps h, Option.map_none]⟩
      obtain ⟨table, htable, -⟩ := hfits h
      rw [htable, Option.map_some]
      exact ⟨_, rfl, hs.keep (by simp [htag]) (by simp [htag]) rfl rfl rfl rfl⟩

theorem handle_track (src : Source) : ∀ track : List Chunk,
    (EachAfter (Fits src) track →
      ∃ s, track.foldlM src.handle Stream.zero = some s ∧ AfterTrack src track s) ∧
    (¬EachAfter (Fits src) track → track.foldlM src.handle Stream.zero = none) := by
  intro track
  induction track using List.reverseRecOn with
  | nil => exact ⟨fun _ => ⟨_, rfl, afterTrack_nil⟩, fun h => absurd (eachAfter_nil _) h⟩
  | append_singleton track c ih =>
    rw [eachAfter_concat, List.foldlM_append]
    constructor
    · rintro ⟨htrack, hc⟩
      obtain ⟨s, hrun, hs⟩ := ih.1 htrack
      obtain ⟨s', hstep, hs'⟩ := (hs.handle c).1 hc
      refine ⟨s', ?_, hs'⟩
      rw [hrun]
      show [c].foldlM src.handle s = some s'
      rw [List.foldlM_cons, hstep]
      rfl
    · intro h
      by_cases htrack : EachAfter (Fits src) track
      · obtain ⟨s, hrun, hs⟩ := ih.1 htrack
        rw [hrun]
        show [c].foldlM src.handle s = none
        rw [List.foldlM_cons, (hs.handle c).2 fun hc => h ⟨htrack, hc⟩]
        rfl
      · rw [ih.2 htrack]
        rfl

/-! ## Complete streams -/

/-- **A complete stream plays.** -/
theorem Stream.Complete.plays {s : Stream} (hs : s.Complete) : s.Plays := by
  intro frame start hframe
  rw [Pin.fillBuffer]
  split
  · exact ⟨_, rfl⟩
  · next hlt =>
    dsimp only at hlt ⊢
    obtain ⟨⟨index, hindex, hlength⟩, hsize⟩ := hs (by omega)
    have hentry : ∀ table : List Nat, (table.length : Int) = s.packetCount →
        ∃ place, entry (some table) frame = some place := by
      intro table h
      rw [entry, Option.bind_some, if_pos hframe]
      exact ⟨_, List.getElem?_eq_getElem (by omega)⟩
    obtain ⟨place, hplace⟩ := hentry index hlength
    rw [hindex, hplace]
    by_cases hcbr : s.cbr = 0
    · obtain ⟨sizes, hsizes, hsizesLength⟩ := hsize hcbr
      obtain ⟨size, hentrySize⟩ := hentry sizes hsizesLength
      rw [if_pos hcbr, hsizes, hentrySize]
      exact ⟨_, rfl⟩
    · rw [if_neg hcbr]
      exact ⟨_, rfl⟩

theorem complete_iff_of_afterTrack {track : List Chunk} {s : Stream}
    (hs : AfterTrack src track s) :
    s.Complete ↔ (0 < announced src track →
      LastIndexed src track (announced src track).toNat) := by
  rw [Stream.Complete, hs.count]
  refine forall_congr' fun hpos => ?_
  rw [← hs.index]
  constructor
  · rintro ⟨⟨table, htable, hlength⟩, -⟩
    exact ⟨table, htable, by omega⟩
  · rintro ⟨table, htable, hlength⟩
    refine ⟨⟨table, htable, by omega⟩, fun hcbr => ?_⟩
    rw [← hs.count] at hpos ⊢
    exact hs.sizes hcbr hpos

theorem track_iff (track : List Chunk) :
    (∃ s, track.foldlM src.handle Stream.zero = some s ∧ s.Complete ∧ s.Plays) ↔
      TrackOrdered src track := by
  obtain ⟨hfits, hwraps⟩ := handle_track src track
  constructor
  · rintro ⟨s, hrun, hs, -⟩
    have htrack : EachAfter (Fits src) track := by
      by_contra h
      rw [hwraps h] at hrun
      cases hrun
    obtain ⟨s', hrun', hs'⟩ := hfits htrack
    obtain rfl : s' = s := Option.some.inj (hrun'.symm.trans hrun)
    exact ⟨htrack, (complete_iff_of_afterTrack hs').mp hs⟩
  · rintro ⟨htrack, hindexed⟩
    obtain ⟨s, hrun, hs⟩ := hfits htrack
    have hcomplete := (complete_iff_of_afterTrack hs).mpr hindexed
    exact ⟨s, hrun, hcomplete, hcomplete.plays⟩

theorem handleData_eq_feed (src : Source) :
    src.handleData = feed Chunk.isTrak (fun c => c.tag = none) Stream.zero src.handle := by
  funext streams c
  rw [Source.handleData, feed, Chunk.isTrak]
  cases htag : c.tag with
  | none =>
    rcases List.eq_nil_or_concat streams with rfl | ⟨streams, s, rfl⟩
    · rfl
    · simp [Source.handle, htag]
  | some tag =>
    cases tag with
    | trak => rfl
    | tkhd | mdhd | vmhd | smhd | stsd | stsz | stco | stss =>
      cases streams.getLast? with
      | none => rfl
      | some s => simp [Source.handle, htag]

/-- **The tables are complete**, no handler touches stream number -1 and `FillBuffer` looks up
only entries that there are, if and only if the chunks are in order. -/
theorem complete_iff (src : Source) :
    (∃ streams, src.streams = some streams ∧ ∀ s ∈ streams, s.Complete ∧ s.Plays) ↔
      Ordered src := by
  rw [Source.streams, handleData_eq_feed, exists_feed_iff, Ordered]
  refine and_congr (forall₂_congr fun c _ => decide_eq_true_iff) (forall₂_congr fun track _ => ?_)
  exact track_iff track

/-- A track whose `stco` comes before its `stsz`. -/
def stcoFirst : List UInt8 :=
  [0, 0, 0, 8, 116, 114, 97, 107,
   0, 0, 0, 20, 115, 116, 99, 111, 0, 0, 0, 0, 0, 0, 0, 1, 0, 0, 0, 9,
   0, 0, 0, 20, 115, 116, 115, 122, 0, 0, 0, 0, 0, 0, 0, 7, 0, 0, 0, 1]

/-- Its index has no entry for its packet, and `FillBuffer` looks that entry up. -/
theorem index_missing :
    let src : Source := ⟨stcoFirst, fun _ _ => 0, fun _ _ => 0⟩
    src.demux.1 = 0 ∧
    src.streams.map (fun streams => streams.map fun s => (s.packetCount, s.packetIndex)) =
      some [(1, some [])] ∧
    src.streams.map (fun streams => streams.map fun s => Pin.fillBuffer ⟨s, 0, 0⟩) =
      some [none] := by
  decide +kernel

end DWindow.Demuxer
