import DWindow.Mvc.Resplit

/-!
# When splitting loses nothing

Splitting is lossless and stable exactly if the search of `read_a_nal` sees the end of
every unit that is kept: it ends three bytes before the end of its window, so a unit
that leaves less room there takes the beginning of the next one with it.
-/

namespace DWindow.Mvc

/-- A stream that begins with a start code, has a byte behind each start code, and
whose NAL units and access units are shorter than `max_nal_size`. -/
structure Regular (stream : List UInt8) : Prop where
  starts : isStartCode stream = true
  followed : Followed stream
  nal_lt : ∀ n ∈ nals stream, n.length < maxNalSize
  unit_lt : ∀ g ∈ accessUnits (kept (nals stream)), g.flatten.length < maxNalSize

def BeginsDelimiter (u : List UInt8) : Prop := [0, 0, 0, 1] <+: u ∧ isDelimiter u = true

/-- The calls end, give all bytes with a delimiter at the front of every unit but the
first, and the same units again from the file that `main` writes. -/
def Lossless (stream : List UInt8) : Prop :=
  ∃ us file, readDelimeters stream = some us ∧
    us.flatten = (kept (nals stream)).flatten ∧ (∀ u ∈ us.tail, BeginsDelimiter u) ∧
    mux stream = some file ∧ readDelimeters file = some us

/-- The search sees the end of every unit that is kept, as it is written. -/
def KeptSeen (stream : List UInt8) : Prop :=
  ∀ n ∈ kept (nals stream), n.length + 4 ≤ maxNalSize

/-- The search sees the end of every unit of type 31 with another unit behind it. -/
def DroppedSeen (stream : List UInt8) : Prop :=
  ∀ a n m b, nals stream = a ++ n :: m :: b → unitType n = 31 → n.length + 4 ≤ maxNalSize

/-- The units of the file that `main` writes. -/
def fileNals (gs : List (List (List UInt8))) : List (List UInt8) :=
  gs.flatMap (· ++ [watermark]) ++ [watermark]

theorem fourCoded_watermark : FourCoded watermark :=
  ⟨watermark.drop 4, rfl, by decide⟩

theorem flatten_fileNals (gs : List (List (List UInt8))) :
    (fileNals gs).flatten =
      (gs.map List.flatten).flatMap (· ++ watermark) ++ watermark := by
  induction gs with
  | nil => simp [fileNals]
  | cons g gs ih =>
    rw [fileNals, List.flatMap_cons, List.append_assoc, ← fileNals, List.flatten_append, ih,
      List.map_cons, List.flatMap_cons]
    simp

theorem kept_fileNals {gs : List (List (List UInt8))}
    (h : ∀ n ∈ gs.flatten, FourCoded n ∧ unitType n ≠ 31) : kept (fileNals gs) = gs.flatten := by
  have hw : kept [watermark] = [] := kept_cons_dropped [] (by decide)
  have happend (a b : List (List UInt8)) : kept (a ++ b) = kept a ++ kept b := by simp [kept]
  induction gs with
  | nil => exact hw
  | cons g gs ih =>
    rw [List.flatten_cons] at h ⊢
    rw [fileNals, List.flatMap_cons, List.append_assoc, ← fileNals, happend, happend, hw,
      ih (fun n hn => h n (List.mem_append_right _ hn)),
      kept_eq_self (fun n hn => h n (List.mem_append_left _ hn)), List.append_nil]

theorem mem_fileNals {gs : List (List (List UInt8))} {n : List UInt8} (h : n ∈ fileNals gs) :
    n ∈ gs.flatten ∨ n = watermark := by
  simp only [fileNals, List.mem_append, List.mem_flatMap, List.mem_singleton] at h
  rcases h with ⟨g, hg, hn | hn⟩ | h
  · exact .inl (List.mem_flatten.mpr ⟨g, hg, hn⟩)
  · exact .inr hn
  · exact .inr h

theorem chained_fileNals {gs : List (List (List UInt8))} (h : ∀ n ∈ gs.flatten, FourCoded n) :
    Chained (fileNals gs) := by
  refine chained_of_fourCoded (fun n hn => ?_)
  rcases mem_fileNals hn with hn | rfl
  · exact h n hn
  · exact fourCoded_watermark

theorem allSeen_of_length {ns : List (List UInt8)} (h : ∀ n ∈ ns, n.length + 4 ≤ maxNalSize) :
    AllSeen ns := by
  induction ns with
  | nil => trivial
  | cons n ns ih => exact ⟨.inl (h n (by simp)), ih (fun m hm => h m (by simp [hm]))⟩

/-- A delimiter at the front makes what begins with it begin with a delimiter. -/
theorem beginsDelimiter_append {n : List UInt8} (r : List UInt8) (h : FourCoded n)
    (hd : isDelimiter n = true) : BeginsDelimiter (n ++ r) := by
  obtain ⟨t, rfl, -⟩ := h
  refine ⟨⟨t ++ r, rfl⟩, ?_⟩
  cases t with
  | nil => simp [isDelimiter, unitType] at hd
  | cons b t => exact hd

theorem length_le_widen (n : List UInt8) : n.length ≤ (widen n).length := by
  unfold widen
  split <;> simp

theorem allSeen_nals {ns : List (List UInt8)} (hlt : ∀ n ∈ ns, n.length < maxNalSize)
    (hkept : ∀ n ∈ kept ns, n.length + 4 ≤ maxNalSize)
    (hdropped : ∀ a n m b, ns = a ++ n :: m :: b → unitType n = 31 → n.length + 4 ≤ maxNalSize) :
    AllSeen ns := by
  induction ns with
  | nil => trivial
  | cons n ns ih =>
    refine ⟨?_, ih (fun m hm => hlt m (by simp [hm])) (fun m hm => hkept m ?_) ?_⟩
    · by_cases h31 : unitType n = 31
      · cases ns with
        | nil => exact .inr ⟨rfl, Nat.le_of_lt (hlt n (by simp))⟩
        | cons m ns => exact .inl (hdropped [] n m ns rfl h31)
      · have := hkept (widen n) (by rw [kept_cons ns h31]; exact List.mem_cons_self)
        have := length_le_widen n
        exact .inl (by omega)
    · by_cases h31 : unitType n = 31
      · rwa [kept_cons_dropped ns h31]
      · rw [kept_cons ns h31]
        exact List.mem_cons_of_mem _ hm
    · intro a k m b hns hk
      exact hdropped (n :: a) k m b (by rw [hns]; rfl) hk

/-- If the ends of all units are seen, nothing is lost. -/
theorem lossless_of_seen {stream : List UInt8} (h : Regular stream) (hkept : KeptSeen stream)
    (hdropped : DroppedSeen stream) : Lossless stream := by
  obtain ⟨hflat, hchain⟩ := nals_spec h.starts h.followed
  have hk := hchain.kept
  have hgs : (accessUnits (kept (nals stream))).flatten = kept (nals stream) :=
    flatten_accessUnitsLoop (Nat.le_refl _)
  have hsplit : readDelimeters stream =
      some ((accessUnits (kept (nals stream))).map List.flatten) := by
    have := readDelimetersLoop_chained (k := (kept (nals stream)).length) hchain
      (allSeen_nals h.nal_lt hkept hdropped) (Nat.lt_succ_self _) (Nat.le_refl _)
      (fun g hg => Nat.le_of_lt (h.unit_lt g hg))
    rwa [hflat] at this
  have hmux : mux stream =
      some (fileNals (accessUnits (kept (nals stream)))).flatten := by
    rw [mux, muxLoop_eq, ← readDelimeters, hsplit, flatten_fileNals]
    simp
  have hagain : readDelimeters (fileNals (accessUnits (kept (nals stream)))).flatten =
      some ((accessUnits (kept (nals stream))).map List.flatten) := by
    have hkf : kept (fileNals (accessUnits (kept (nals stream)))) = kept (nals stream) := by
      rw [kept_fileNals (by rwa [hgs]), hgs]
    have hwm : watermark.length + 4 ≤ maxNalSize := by decide
    have := readDelimetersLoop_chained (k := (kept (nals stream)).length)
      (chained_fileNals (fun n hn => (hk n (by rwa [hgs] at hn)).1))
      (allSeen_of_length (fun n hn => ?_)) (Nat.lt_succ_self _) (by rw [hkf])
      (fun g hg => ?_)
    · rwa [hkf] at this
    · rcases mem_fileNals hn with hn | rfl
      · exact hkept n (by rwa [hgs] at hn)
      · exact hwm
    · rw [hkf] at hg
      exact Nat.le_of_lt (h.unit_lt g hg)
  refine ⟨_, _, hsplit, ?_, ?_, hmux, hagain⟩
  · rw [← List.flatten_flatten, hgs]
  · intro u hu
    rw [← List.map_tail] at hu
    obtain ⟨g, hg, rfl⟩ := List.mem_map.mp hu
    obtain ⟨n, t, rfl, hd⟩ := accessUnitsLoop_tail g hg
    have hn : n ∈ kept (nals stream) := by
      rw [← hgs]
      exact List.mem_flatten.mpr ⟨_, List.mem_of_mem_tail hg, List.mem_cons_self⟩
    exact beginsDelimiter_append t.flatten (hk n hn).1 hd

theorem writeNal_some {buffer data written : List UInt8} {nalSize : Nat}
    (h : writeNal buffer data nalSize = some written) :
    buffer <+: written ∧ written.length ≤ maxNalSize := by
  simp only [writeNal, Option.ite_none_right_eq_some] at h
  obtain ⟨hfit, h⟩ := h
  cases h
  exact ⟨by rw [List.append_assoc]; exact List.prefix_append _ _, hfit⟩

/-- What one turn does when it gives a result: it skips, ends or writes. -/
theorem delimeterBytesLoop_some {fuel : Nat} {started : Bool} {buffer rest unit behind : List UInt8}
    (h : delimeterBytesLoop (fuel + 1) started buffer rest = some (unit, behind)) :
    (unit = buffer ∧ behind = rest) ∨
      ∃ nalSize started', readANal rest = some nalSize ∧
        ((nalType (rest.take maxNalSize ++ [0, 0, 0, 0, 0])).map Prod.fst = some 31 ∧
            delimeterBytesLoop fuel started buffer (rest.drop nalSize) = some (unit, behind) ∨
          ∃ written,
            writeNal buffer (rest.take maxNalSize ++ [0, 0, 0, 0, 0]) nalSize = some written ∧
            delimeterBytesLoop fuel started' written (rest.drop nalSize) =
              some (unit, behind)) := by
  simp only [delimeterBytesLoop, Option.bind_eq_bind, Option.bind_eq_some_iff] at h
  obtain ⟨nalSize, hsize, ⟨type, startCodeLen⟩, htype, h⟩ := h
  split at h
  · next h31 => exact .inr ⟨nalSize, started, hsize, .inl ⟨by rw [htype, ← h31]; rfl, h⟩⟩
  · split at h
    · split at h
      · cases h
        exact .inl ⟨rfl, rfl⟩
      · obtain ⟨written, hw, h⟩ := Option.bind_eq_some_iff.mp h
        exact .inr ⟨nalSize, true, hsize, .inr ⟨written, hw, h⟩⟩
    · obtain ⟨written, hw, h⟩ := Option.bind_eq_some_iff.mp h
      exact .inr ⟨nalSize, started, hsize, .inr ⟨written, hw, h⟩⟩

/-- What is written stays, and the buffer never overflows. -/
theorem delimeterBytesLoop_grows {fuel : Nat} {started : Bool}
    {buffer rest unit behind : List UInt8} (hb : buffer.length ≤ maxNalSize)
    (h : delimeterBytesLoop fuel started buffer rest = some (unit, behind)) :
    buffer <+: unit ∧ unit.length ≤ maxNalSize := by
  induction fuel generalizing started buffer rest with
  | zero => simp [delimeterBytesLoop] at h
  | succ fuel ih =>
    rcases delimeterBytesLoop_some h with ⟨rfl, -⟩ | ⟨nalSize, started', -, ⟨-, h⟩ | ⟨w, hw, h⟩⟩
    · exact ⟨List.prefix_refl _, hb⟩
    · exact ih hb h
    · obtain ⟨hpre, hlen⟩ := writeNal_some hw
      obtain ⟨hpre', hlen'⟩ := ih hlen h
      exact ⟨hpre.trans hpre', hlen'⟩

/-- A unit whose end is not seen: the call ends in front of it, or it fills the
buffer to the end with what stands behind it. -/
theorem delimeterBytesLoop_unseen {n : List UInt8} {ns : List (List UInt8)} {fuel : Nat}
    {started : Bool} {buffer unit behind : List UInt8} (hc : Chained (n :: ns)) (hns : ns ≠ [])
    (hfour : FourCoded n) (h31 : unitType n ≠ 31) (hlong : maxNalSize < n.length + 4)
    (hb : buffer.length ≤ maxNalSize)
    (h : delimeterBytesLoop (fuel + 1) started buffer (n ++ ns.flatten) = some (unit, behind)) :
    (unit = buffer ∧ behind = n ++ ns.flatten) ∨
      buffer = [] ∧ unit = (n ++ ns.flatten).take maxNalSize := by
  rcases delimeterBytesLoop_some h with hend | ⟨nalSize, started', hsize, ⟨htype, -⟩ | ⟨w, hw, h⟩⟩
  · exact .inl hend
  · rw [nalType_chained hc] at htype
    exact absurd (Option.some_inj.mp htype) h31
  · right
    rw [readANal_chained hc, if_neg hns, if_neg (by omega)] at hsize
    cases hsize
    have hall : ((n ++ ns.flatten).take maxNalSize).length = maxNalSize := by
      have := hc.tail.length_tail hns
      rw [List.length_take, List.length_append]
      omega
    have htwo : ((n ++ ns.flatten).take maxNalSize ++ [0, 0, 0, 0, 0])[2]? ≠ some 1 := by
      obtain ⟨r, rfl, -⟩ := hfour
      rw [(nalType_take _ five_le_maxNalSize).2]
      simp
    have hwritten : w = buffer ++ (n ++ ns.flatten).take maxNalSize := by
      simp only [writeNal, Option.ite_none_right_eq_some] at hw
      obtain ⟨-, hw⟩ := hw
      rw [if_neg htwo, List.append_nil, List.take_append_of_le_length (by rw [hall]),
        List.take_of_length_le (by rw [hall])] at hw
      exact (Option.some_inj.mp hw).symm
    have hwl := (writeNal_some hw).2
    obtain ⟨hpre, hlen⟩ := delimeterBytesLoop_grows hwl h
    rw [hwritten, List.length_append, hall] at hwl
    obtain rfl : buffer = [] := List.length_eq_zero_iff.mp (by omega)
    rw [List.nil_append] at hwritten
    refine ⟨rfl, ?_⟩
    rw [← hwritten]
    exact (hpre.eq_of_length_le (by rw [hwritten, hall]; exact hlen)).symm

/-- A unit that stays and takes less than the buffer. -/
def Fits (n : List UInt8) : Prop := FourCoded n ∧ unitType n ≠ 31 ∧ n.length < maxNalSize

/-- Units that one call gives back together are all seen, and the call ends behind
them.  By induction on the units. -/
theorem seen_of_group {g ms : List (List UInt8)} (hc : Chained (g ++ ms)) (hms : ms ≠ [])
    (hg : ∀ n ∈ g, Fits n) {fuel : Nat} {started : Bool} {buffer behind : List UInt8}
    (hb : buffer.length ≤ maxNalSize)
    (h : delimeterBytesLoop fuel started buffer (g ++ ms).flatten =
      some (buffer ++ g.flatten, behind)) :
    (∀ n ∈ g, n.length + 4 ≤ maxNalSize) ∧ ∃ fuel' started',
      delimeterBytesLoop fuel' started' (buffer ++ g.flatten) ms.flatten =
        some (buffer ++ g.flatten, behind) := by
  induction g generalizing fuel started buffer with
  | nil => exact ⟨by simp, fuel, started, by simpa using h⟩
  | cons n g ih =>
    obtain ⟨hfour, h31, hlt⟩ := hg n (by simp)
    have hn : 3 ≤ n.length := isStartCode_length hc.1
    have hgrown : buffer ++ (n :: g).flatten ≠ buffer := by
      intro heq
      have := congrArg List.length heq
      rw [List.length_append, List.flatten_cons, List.length_append] at this
      omega
    rw [List.cons_append] at h hc
    rw [List.flatten_cons] at h
    cases fuel with
    | zero => simp [delimeterBytesLoop] at h
    | succ fuel =>
      by_cases hlong : maxNalSize < n.length + 4
      · exfalso
        have hne : g ++ ms ≠ [] := by simp [hms]
        rcases delimeterBytesLoop_unseen hc hne hfour h31 hlong hb h with ⟨heq, -⟩ | ⟨rfl, heq⟩
        · exact hgrown heq
        · -- the unit would end within the next start code
          have hwhole := hc.tail.length_tail hne
          have hlen := congrArg List.length heq
          rw [List.nil_append, List.flatten_cons, List.length_append, List.length_take,
            List.length_append] at hlen
          cases g with
          | nil =>
            rw [List.flatten_nil, List.length_nil] at hlen
            omega
          | cons m g =>
            obtain ⟨⟨r, rfl, -⟩, -⟩ := hg m (by simp)
            rw [List.flatten_cons, List.length_append, List.length_cons, List.length_cons,
              List.length_cons, List.length_cons] at hlen
            omega
      · rw [delimeterBytesLoop_cons hc (.inl (by omega)), if_neg h31] at h
        obtain ⟨r, rfl, hr⟩ := hfour
        split at h
        · exact absurd (congrArg Prod.fst (Option.some_inj.mp h)).symm hgrown
        · split at h
          · next hfit =>
            rw [List.flatten_cons, ← List.append_assoc] at h ⊢
            obtain ⟨hseen, hbehind⟩ :=
              ih hc.tail (fun m hm => hg m (List.mem_cons_of_mem _ hm)) hfit h
            refine ⟨fun m hm => ?_, hbehind⟩
            rcases List.mem_cons.mp hm with rfl | hm
            · omega
            · exact hseen m hm
          · cases h

theorem writeNal_lt {buffer data written : List UInt8} {nalSize : Nat} (hpos : 0 < nalSize)
    (hdata : data ≠ []) (h : writeNal buffer data nalSize = some written) :
    buffer.length < written.length := by
  have := List.length_pos_iff.mpr hdata
  simp only [writeNal, Option.ite_none_right_eq_some] at h
  obtain ⟨-, h⟩ := h
  cases h
  rw [List.length_append, List.length_append, List.length_take]
  omega

/-- The call that has read a unit ends in front of the next one. -/
theorem behind_group {n : List UInt8} {ms : List (List UInt8)} {fuel : Nat} {started : Bool}
    {unit behind : List UInt8} (hc : Chained (watermark :: n :: ms)) (hn : Fits n)
    (h : delimeterBytesLoop fuel started unit (watermark ++ (n :: ms).flatten) =
      some (unit, behind)) : behind = (n :: ms).flatten := by
  have hwm : Seen watermark (n :: ms) := .inl (by decide)
  cases fuel with
  | zero => simp [delimeterBytesLoop] at h
  | succ fuel =>
    rw [delimeterBytesLoop_cons hc hwm, if_pos (by decide)] at h
    cases fuel with
    | zero => simp [delimeterBytesLoop] at h
    | succ fuel =>
      rcases delimeterBytesLoop_some h with ⟨-, hend⟩ |
        ⟨nalSize, started', hsize, ⟨htype, -⟩ | ⟨w, hw, h⟩⟩
      · exact hend
      · rw [List.flatten_cons, nalType_chained hc.tail] at htype
        exact absurd (Option.some_inj.mp htype) hn.2.1
      · exfalso
        have hpos : 0 < nalSize := by
          have : 3 ≤ n.length := isStartCode_length hc.tail.1
          have := five_le_maxNalSize
          rw [List.flatten_cons, readANal_chained hc.tail] at hsize
          cases hsize
          split
          · omega
          · split <;> omega
        have hlt := writeNal_lt hpos (by simp) hw
        have hle := (delimeterBytesLoop_grows (writeNal_some hw).2 h).1.length_le
        omega

theorem readDelimetersLoop_some {fuel : Nat} {rest u : List UInt8} {us : List (List UInt8)}
    (h : readDelimetersLoop fuel rest = some (u :: us)) :
    ∃ fuel' behind, delimeterBytes rest = some (u, behind) ∧ u ≠ [] ∧
      readDelimetersLoop fuel' behind = some us := by
  cases fuel with
  | zero => simp [readDelimetersLoop] at h
  | succ fuel =>
    cases hd : delimeterBytes rest with
    | none => simp [readDelimetersLoop, hd] at h
    | some r =>
      obtain ⟨delimeter, behind⟩ := r
      rw [readDelimetersLoop_succ hd] at h
      split at h
      · simp at h
      · next hne =>
        obtain ⟨us', hus, heq⟩ := Option.map_eq_some_iff.mp h
        cases heq
        exact ⟨fuel, behind, rfl, fun hnil => hne (by rw [hnil]; rfl), hus⟩

/-- If the file gives back the units it was written from, the end of each of their
NAL units is seen. -/
theorem seen_of_readDelimeters {gs : List (List (List UInt8))} (hg : ∀ n ∈ gs.flatten, Fits n)
    {fuel : Nat}
    (h : readDelimetersLoop fuel (fileNals gs).flatten = some (gs.map List.flatten)) :
    ∀ n ∈ gs.flatten, n.length + 4 ≤ maxNalSize := by
  induction gs generalizing fuel with
  | nil => simp
  | cons g gs ih =>
    rw [List.flatten_cons] at hg ⊢
    have hc : Chained (fileNals (g :: gs)) :=
      chained_fileNals (fun n hn => (hg n (by simpa using hn)).1)
    have hcons : fileNals (g :: gs) = g ++ watermark :: fileNals gs := by
      simp [fileNals]
    rw [hcons] at h hc
    obtain ⟨fuel', behind, hfirst, -, hnext⟩ := readDelimetersLoop_some h
    obtain ⟨hseen, fuel₂, started, hend⟩ := seen_of_group hc (by simp)
      (fun n hn => hg n (List.mem_append_left _ hn)) (Nat.zero_le _) hfirst
    intro n hn
    rcases List.mem_append.mp hn with hn | hn
    · exact hseen n hn
    · cases gs with
      | nil => simp at hn
      | cons g₂ gs =>
        obtain ⟨-, -, -, hne, -⟩ := readDelimetersLoop_some hnext
        cases g₂ with
        | nil => exact absurd rfl hne
        | cons m g₂ =>
          have hbehind : behind = (fileNals ((m :: g₂) :: gs)).flatten := by
            have hcons₂ : fileNals ((m :: g₂) :: gs) = m :: (g₂ ++ watermark :: fileNals gs) := by
              simp [fileNals]
            rw [hcons₂] at hc hend ⊢
            exact behind_group (hc.suffix (List.suffix_append _ _)) (hg m (by simp)) hend
          rw [hbehind] at hnext
          exact ih (fun k hk => hg k (List.mem_append_right _ hk)) hnext n hn

theorem nextStartCode_of_drop {l : List UInt8} {j : Nat} (h : isStartCode (l.drop j) = true) :
    ∃ i ≤ j, nextStartCode l = some i := by
  induction l generalizing j with
  | nil => simp [isStartCode] at h
  | cons b l ih =>
    rw [nextStartCode]
    split
    · exact ⟨0, Nat.zero_le _, rfl⟩
    · next hcode =>
      cases j with
      | zero => exact absurd h hcode
      | succ j =>
        obtain ⟨i, hi, heq⟩ := ih h
        exact ⟨i + 1, by omega, by rw [heq]; rfl⟩

/-- What begins with a start code of four bytes is cut off between two units. -/
theorem cut_units {ks : List (List UInt8)} (hk : ∀ n ∈ ks, FourCoded n) {u v : List UInt8}
    (h : u ++ v = ks.flatten) (hv : v = [] ∨ [0, 0, 0, 1] <+: v) :
    ∃ a b, ks = a ++ b ∧ a.flatten = u ∧ b.flatten = v := by
  induction ks generalizing u with
  | nil =>
    obtain ⟨rfl, rfl⟩ := List.append_eq_nil_iff.mp h
    exact ⟨[], [], rfl, rfl, rfl⟩
  | cons n ks ih =>
    rw [List.flatten_cons] at h
    by_cases hu : u = []
    · subst hu
      exact ⟨[], n :: ks, rfl, rfl, by rw [List.flatten_cons, ← h, List.nil_append]⟩
    · by_cases hlen : n.length ≤ u.length
      · obtain ⟨w, rfl⟩ : n <+: u :=
          List.prefix_of_prefix_length_le (h ▸ List.prefix_append n ks.flatten)
            (List.prefix_append u v) hlen
        rw [List.append_assoc] at h
        obtain ⟨a, b, rfl, rfl, rfl⟩ :=
          ih (fun m hm => hk m (by simp [hm])) (List.append_cancel_left h)
        exact ⟨n :: a, b, rfl, rfl, rfl⟩
      · exfalso
        have hpos := List.length_pos_iff.mpr hu
        have hdrop : v = (n ++ ks.flatten).drop u.length := by rw [← h, List.drop_left]
        have hchain := chained_of_fourCoded hk
        have hne : v ≠ [] := by
          intro hnil
          have := congrArg List.length hdrop
          rw [hnil, List.length_drop, List.length_append, List.length_nil] at this
          omega
        obtain ⟨t, ht⟩ := hv.resolve_left hne
        obtain ⟨r, rfl, -⟩ := hk n (by simp)
        rw [← ht] at hdrop
        by_cases hthree : 3 ≤ u.length
        · have hcode : isStartCode (((0 :: 0 :: 0 :: 1 :: r ++ ks.flatten).drop 3).drop
              (u.length - 3)) = true := by
            rw [List.drop_drop, Nat.add_sub_cancel' hthree, ← hdrop]
            rfl
          obtain ⟨i, hi, hnext⟩ := nextStartCode_of_drop hcode
          rw [hchain.2.2.1] at hnext
          split at hnext
          · cases hnext
          · cases hnext
            omega
        · rcases u with _ | ⟨b, _ | ⟨c, _ | ⟨d, u⟩⟩⟩
          · exact hu rfl
          · simp at hdrop
          · simp at hdrop
          · simp at hthree

/-- Units that begin with start codes, put together from others, are groups of
these. -/
theorem groups_of_flatten {us ks : List (List UInt8)} (hk : ∀ n ∈ ks, FourCoded n)
    (h : us.flatten = ks.flatten) (hbegin : ∀ u ∈ us.tail, [0, 0, 0, 1] <+: u) :
    ∃ gs : List (List (List UInt8)), us = gs.map List.flatten ∧ gs.flatten = ks := by
  induction us generalizing ks with
  | nil =>
    cases ks with
    | nil => exact ⟨[], rfl, rfl⟩
    | cons n ks =>
      obtain ⟨r, rfl, -⟩ := hk n (by simp)
      simp at h
  | cons u us ih =>
    have hnext : us.flatten = [] ∨ [0, 0, 0, 1] <+: us.flatten := by
      cases us with
      | nil => exact .inl rfl
      | cons v us =>
        exact .inr ((hbegin v (by simp)).trans (List.prefix_append v us.flatten))
    obtain ⟨a, b, rfl, rfl, hb⟩ := cut_units hk h hnext
    obtain ⟨gs, rfl, rfl⟩ := ih (fun n hn => hk n (List.mem_append_right _ hn)) hb.symm
      (fun v hv => hbegin v (List.mem_of_mem_tail hv))
    exact ⟨a :: gs, rfl, rfl⟩

/-- If nothing is lost, the end of every unit that is kept is seen. -/
theorem keptSeen_of_lossless {stream : List UInt8} (h : Regular stream)
    (hl : Lossless stream) : KeptSeen stream := by
  obtain ⟨us, file, hsplit, hflat, hbegin, hmux, hagain⟩ := hl
  have hk := (nals_spec h.starts h.followed).2.kept
  obtain ⟨gs, rfl, hgs⟩ :=
    groups_of_flatten (fun n hn => (hk n hn).1) hflat (fun u hu => (hbegin u hu).1)
  have hfile : file = (fileNals gs).flatten := by
    rw [mux, muxLoop_eq, ← readDelimeters, hsplit, Option.map_some] at hmux
    rw [flatten_fileNals]
    simpa using (Option.some_inj.mp hmux).symm
  have hfits : ∀ n ∈ gs.flatten, Fits n := by
    intro n hn
    rw [hgs] at hn
    refine ⟨(hk n hn).1, (hk n hn).2, ?_⟩
    rw [← flatten_accessUnitsLoop (Nat.le_refl (kept (nals stream)).length)] at hn
    obtain ⟨g, hg, hng⟩ := List.mem_flatten.mp hn
    have := h.unit_lt g hg
    have := (List.sublist_flatten_of_mem hng).length_le
    omega
  intro n hn
  rw [hfile] at hagain
  exact seen_of_readDelimeters hfits hagain n (by rwa [hgs])

/-- Splitting a stream loses nothing only if the end of every unit that is kept is
seen, and then does lose nothing if those of type 31 are not in the way. -/
theorem lossless_iff_seen {stream : List UInt8} (h : Regular stream) :
    (Lossless stream → KeptSeen stream) ∧
      (DroppedSeen stream → (Lossless stream ↔ KeptSeen stream)) :=
  ⟨keptSeen_of_lossless h, fun hdropped =>
    ⟨keptSeen_of_lossless h, fun hkept => lossless_of_seen h hkept hdropped⟩⟩

/-- Two access units with a unit of type 31 between them. -/
theorem lossless_two_units :
    Lossless [0, 0, 1, 9, 16, 0, 0, 0, 1, 31, 7, 0, 0, 1, 9, 5, 0, 0, 0, 1, 1, 6] := by
  refine ((lossless_iff_seen ⟨rfl, by unfold Followed; decide, by decide, by decide⟩).2 ?_).2
    (by unfold KeptSeen; decide)
  intro a n m b h _
  have hall : ∀ n ∈ nals [0, 0, 1, 9, 16, 0, 0, 0, 1, 31, 7, 0, 0, 1, 9, 5, 0, 0, 0, 1, 1, 6],
      n.length + 4 ≤ maxNalSize := by decide
  exact hall n (by simp [h])

theorem nextStartCode_skip {a : List UInt8} (ha : ∀ b ∈ a, b ≠ 0) (l : List UInt8) :
    nextStartCode (a ++ l) = (nextStartCode l).map (a.length + ·) := by
  induction a with
  | nil => simp
  | cons b a ih =>
    have hcode : isStartCode (b :: (a ++ l)) ≠ true := by
      intro h
      rcases isStartCode_iff.mp h with ⟨r, hr⟩ | ⟨r, hr⟩
      · exact ha b (by simp) (List.cons.inj hr).1
      · exact ha b (by simp) (List.cons.inj hr).1
    rw [List.cons_append, nextStartCode, if_neg hcode, ih (fun c hc => ha c (by simp [hc])),
      Option.map_map]
    congr 1
    funext i
    rw [Function.comp_apply, List.length_cons]
    omega

/-- The units of a chain are the units of the stream they make up. -/
theorem nals_of_chained {ns : List (List UInt8)} (h : Chained ns) : nals ns.flatten = ns := by
  have hloop (fuel : Nat) (hfuel : ns.flatten.length ≤ fuel) : nalsLoop fuel ns.flatten = ns := by
    induction ns generalizing fuel with
    | nil => cases fuel <;> simp [nalsLoop]
    | cons n ns ih =>
      have hn : 3 ≤ n.length := isStartCode_length h.1
      rw [List.flatten_cons, List.length_append] at hfuel
      obtain ⟨fuel, rfl⟩ : ∃ m, fuel = m + 1 := ⟨fuel - 1, by omega⟩
      have hne : n ++ ns.flatten ≠ [] := by
        rw [← List.length_pos_iff, List.length_append]
        omega
      have hlen : nalLength (n ++ ns.flatten) = n.length := by
        unfold nalLength
        rw [h.2.2.1]
        by_cases hns : ns = []
        · simp [hns]
        · rw [if_neg hns, Option.map_some, Option.getD_some]
          omega
      rw [List.flatten_cons, nalsLoop, if_neg hne, hlen, List.take_left, List.drop_left,
        ih h.tail fuel (by omega)]
  exact hloop _ (Nat.le_refl _)

/-- A delimiter with `k` bytes of `1` behind it, and another one. -/
def twoNals (k : Nat) : List (List UInt8) :=
  [0 :: 0 :: 0 :: 1 :: 9 :: List.replicate k 1, [0, 0, 1, 9, 0, 1, 9]]

theorem chained_twoNals (k : Nat) : Chained (twoNals k) := by
  have hones : ∀ b ∈ (1 : UInt8) :: 9 :: List.replicate k 1, b ≠ 0 := by
    intro b hb
    simp only [List.mem_cons, List.mem_replicate] at hb
    rcases hb with rfl | rfl | ⟨-, rfl⟩ <;> decide
  have hskip := nextStartCode_skip hones [0, 0, 1, 9, 0, 1, 9]
  have htail : nextStartCode [0, 0, 1, 9, 0, 1, 9] = some 0 := by decide
  rw [htail] at hskip
  refine ⟨rfl, by simp, ?_, rfl, by simp, by decide, trivial⟩
  simpa using hskip

theorem kept_twoNals (k : Nat) : kept (twoNals k) =
    [0 :: 0 :: 0 :: 1 :: 9 :: List.replicate k 1, [0, 0, 0, 1, 9, 0, 1, 9]] := by
  have hfirst : unitType (0 :: 0 :: 0 :: 1 :: 9 :: List.replicate k 1) ≠ 31 := by
    simp [unitType]
  rw [twoNals, kept_cons _ hfirst]
  rfl

theorem regular_twoNals {k : Nat} (hk : k + 8 ≤ maxNalSize) : Regular (twoNals k).flatten := by
  have hlen : (0 :: 0 :: 0 :: 1 :: 9 :: List.replicate k (1 : UInt8)).length = k + 5 := by
    simp
  have hmax : 9 < maxNalSize := by decide
  have hunits : accessUnits (kept (twoNals k)) =
      [[0 :: 0 :: 0 :: 1 :: 9 :: List.replicate k 1], [[0, 0, 0, 1, 9, 0, 1, 9]]] := by
    rw [kept_twoNals]
    simp [accessUnits, accessUnitsLoop, takeUnit, isDelimiter, unitType]
  refine ⟨rfl, ?_, ?_, ?_⟩
  · rintro ⟨t, ht⟩
    have hlast := congrArg List.head? (congrArg List.reverse ht)
    simp [twoNals] at hlast
  · rw [nals_of_chained (chained_twoNals k)]
    intro n hn
    simp only [twoNals, List.mem_cons, List.not_mem_nil, or_false] at hn
    rcases hn with rfl | rfl
    · omega
    · exact Nat.lt_of_lt_of_le (by decide) hmax
  · rw [nals_of_chained (chained_twoNals k), hunits]
    intro g hg
    simp only [List.mem_cons, List.not_mem_nil, or_false] at hg
    rcases hg with rfl | rfl
    · rw [List.flatten_cons, List.flatten_nil, List.append_nil]
      omega
    · exact Nat.lt_of_lt_of_le (by decide) (Nat.le_of_lt hmax)

/-- The second delimiter stands three bytes before the end of the window: the search
does not try its place. -/
theorem lost_start_code : Regular (twoNals (maxNalSize - 8)).flatten ∧
    ¬ Lossless (twoNals (maxNalSize - 8)).flatten := by
  have hk : maxNalSize - 8 + 8 ≤ maxNalSize := by decide
  refine ⟨regular_twoNals hk, fun hl => ?_⟩
  have hseen := keptSeen_of_lossless (regular_twoNals hk) hl
  have hmem : 0 :: 0 :: 0 :: 1 :: 9 :: List.replicate (maxNalSize - 8) 1 ∈
      kept (nals (twoNals (maxNalSize - 8)).flatten) := by
    rw [nals_of_chained (chained_twoNals _), kept_twoNals]
    exact List.mem_cons_self
  have := hseen _ hmem
  rw [List.length_cons, List.length_cons, List.length_cons, List.length_cons, List.length_cons,
    List.length_replicate] at this
  omega

end DWindow.Mvc
