import Mathlib.Order.Bounds.Defs
import DWindow.Demuxer.Riff

/-!
# Seeking to a keyframe

`my12doomSourceStream::ChangeStart`: the frame at the requested time, and for video the
keyframe before it, which two loops look for: the first for the frame itself, the second for
two neighbours in the table that it is strictly between.  A frame that neither finds goes to
the last keyframe.  That is right behind the table and wrong in front of it, so the seek is
right if and only if the first keyframe is not behind the frame (or there is no other):
`changeStart_lands_iff`.
-/

namespace DWindow.Demuxer

open CInt

/-- The frame at a time, as `ChangeStart` counts it. -/
def Stream.frameAt (s : Stream) (rtStart : Int) : Int :=
  toInt32 ((toInt64 ((toInt64 (rtStart * s.packetCount)).tdiv s.length)).tdiv 10000)

/-- The loop over the table that looks for the frame: `n` entries are left, `i` is next.  An
entry is compared as the `DWORD` it is. -/
def exactLoop (table : Option (List Nat)) (frame : Nat) : Nat → Nat → Option Bool
  | 0, _ => some false
  | n + 1, i => do
    let k ← entry table i
    if k = frame then some true else exactLoop table frame n (i + 1)

/-- The loop that looks for two neighbours around the frame, and finds the first of them. -/
def betweenLoop (table : Option (List Nat)) (frame : Nat) : Nat → Nat → Option (Option Nat)
  | 0, _ => some none
  | n + 1, i => do
    let k ← entry table i
    if k < frame then
      let k' ← entry table (i + 1 : Nat)
      if frame < k' then some (some k) else betweenLoop table frame n (i + 1)
    else betweenLoop table frame n (i + 1)

/-- The keyframe that `ChangeStart` seeks to. -/
def Stream.seekKeyframe (s : Stream) (frame : Int) : Option Int := do
  if ← exactLoop s.keyframes (toDWORD frame) s.keyframeCount.toNat 0 then some frame
  else match ← betweenLoop s.keyframes (toDWORD frame) (s.keyframeCount - 1).toNat 0 with
    | some k => some (toInt32 k)
    | none => (entry s.keyframes (s.keyframeCount - 1)).map fun k => toInt32 k

/-- `ChangeStart`: a stream without length is a division by zero. -/
def Pin.changeStart (p : Pin) (rtStart : Int) : Option Pin :=
  if p.stream.length = 0 then none
  else (if p.stream.type = 0 ∧ 0 < p.stream.keyframeCount then
      p.stream.seekKeyframe (p.stream.frameAt rtStart)
    else some (p.stream.frameAt rtStart)).map fun frame =>
      { p with mStreamStart := rtStart, mFrameNumber := frame }

/-- A stream with a sorted keyframe table that is not empty. -/
structure Stream.HasKeyframes (s : Stream) (first : Nat) (rest : List Nat) : Prop where
  table : s.keyframes = some (first :: rest)
  count : s.keyframeCount = (first :: rest).length
  sorted : (first :: rest).Pairwise (· ≤ ·)
  dwords : ∀ k ∈ first :: rest, k < 2 ^ 32

/-- The position a seek to `frame` should lead to: the greatest keyframe not after it, and
the first one when it precedes all. -/
structure LandsAt (first : Nat) (rest : List Nat) (frame position : Int) : Prop where
  before : (∃ k ∈ first :: rest, (k : Int) ≤ frame) →
    IsGreatest {k : Int | k ∈ (first :: rest).map (fun k : Nat => (k : Int)) ∧ k ≤ frame} position
  first : (∀ k ∈ first :: rest, frame < (k : Int)) → position = first

/-- The seeks of `ChangeStart` that are right.  For video the first keyframe is not after the
frame, or every other one is behind the `DWORD` that a negative frame turns into; a stream
that is not video is asked for a keyframe. -/
def SeeksRight (type : Int) (first : Nat) (rest : List Nat) (frame : Int) : Prop :=
  if type = 0 then
    (first : Int) ≤ frame ∨
      first < 2 ^ 31 ∧ ∀ k ∈ rest, k = first ∨ frame < 0 ∧ toDWORD frame < k
  else ∃ k ∈ first :: rest, (k : Int) = frame

/-! ## The loops -/

@[simp] theorem entry_append_cons (a : List Nat) (k : Nat) (b : List Nat) :
    entry (some (a ++ k :: b)) (a.length : Nat) = some k := by
  simp [entry]

/-- The first loop finds the frame if it is in the table. -/
theorem exactLoop_append (frame : Nat) : ∀ b a : List Nat,
    exactLoop (some (a ++ b)) frame b.length a.length = some (decide (frame ∈ b)) := by
  intro b
  induction b with
  | nil => intro a; simp [exactLoop]
  | cons k b ih =>
    intro a
    have hnext := ih (a ++ [k])
    rw [List.append_assoc, List.singleton_append, List.length_append, List.length_singleton]
      at hnext
    rw [List.length_cons, exactLoop, entry_append_cons]
    by_cases hk : k = frame
    · simp [hk]
    · simp [hk, hnext, Ne.symm hk]

/-- The neighbour before a number that no entry is. -/
def neighbour (frame : Nat) : List Nat → Option Nat
  | k :: k' :: ks => if k < frame ∧ frame < k' then some k else neighbour frame (k' :: ks)
  | _ => none

theorem betweenLoop_append (frame : Nat) : ∀ (b a : List Nat) (k : Nat),
    betweenLoop (some (a ++ k :: b)) frame b.length a.length =
      some (neighbour frame (k :: b)) := by
  intro b
  induction b with
  | nil => intro a k; rfl
  | cons k' b ih =>
    intro a k
    have hnext := ih (a ++ [k]) k'
    have hsecond := entry_append_cons (a ++ [k]) k' b
    rw [List.append_assoc, List.singleton_append, List.length_append, List.length_singleton]
      at hnext hsecond
    rw [List.length_cons, betweenLoop, entry_append_cons, neighbour, Option.bind_eq_bind,
      Option.bind_some]
    by_cases hk : k < frame
    · rw [if_pos hk, hsecond, Option.bind_some]
      by_cases hk' : frame < k'
      · rw [if_pos hk', if_pos ⟨hk, hk'⟩]
      · rw [if_neg hk', if_neg (fun h => hk' h.2), hnext]
    · rw [if_neg hk, if_neg (fun h => hk h.1), hnext]

/-- A neighbour that is found is the greatest entry before the number. -/
theorem neighbour_some {frame m : Nat} : ∀ {ks : List Nat}, ks.Pairwise (· ≤ ·) →
    neighbour frame ks = some m → m ∈ ks ∧ m < frame ∧ ∀ k ∈ ks, k ≤ m ∨ frame < k := by
  intro ks
  induction ks with
  | nil => intro _ h; cases h
  | cons k ks ih =>
    intro hsorted h
    cases ks with
    | nil => cases h
    | cons k' ks =>
      obtain ⟨hk, htail⟩ := List.pairwise_cons.mp hsorted
      rw [neighbour] at h
      split at h
      · next hbetween =>
        obtain rfl := Option.some.inj h
        refine ⟨List.mem_cons_self, hbetween.1, fun x hx => ?_⟩
        rcases List.mem_cons.mp hx with rfl | hx
        · exact Or.inl le_rfl
        rcases List.mem_cons.mp hx with rfl | hx
        · exact Or.inr hbetween.2
        · exact Or.inr (lt_of_lt_of_le hbetween.2 ((List.pairwise_cons.mp htail).1 x hx))
      · obtain ⟨hm, hlt, hall⟩ := ih htail h
        refine ⟨List.mem_cons_of_mem _ hm, hlt, fun x hx => ?_⟩
        rcases List.mem_cons.mp hx with rfl | hx
        · exact Or.inl (hk m hm)
        · exact hall x hx

/-- Where no neighbour is found the number is in front of the table or behind it. -/
theorem neighbour_none {frame : Nat} : ∀ {ks : List Nat}, ks.Pairwise (· ≤ ·) → frame ∉ ks →
    neighbour frame ks = none → (∀ k ∈ ks, frame < k) ∨ ∀ k ∈ ks, k < frame := by
  intro ks
  induction ks with
  | nil => intro _ _ _; exact Or.inl (fun _ hk => absurd hk List.not_mem_nil)
  | cons k ks ih =>
    intro hsorted hnot h
    obtain ⟨hk, htail⟩ := List.pairwise_cons.mp hsorted
    have hne : frame ≠ k := fun he => hnot (he ▸ List.mem_cons_self)
    rcases Nat.lt_or_gt_of_ne hne with hlt | hgt
    · left
      intro x hx
      rcases List.mem_cons.mp hx with rfl | hx
      · exact hlt
      · exact lt_of_lt_of_le hlt (hk x hx)
    right
    cases ks with
    | nil =>
      intro x hx
      rwa [List.mem_singleton.mp hx]
    | cons k' ks =>
      rw [neighbour] at h
      split at h
      · cases h
      · next hbetween =>
        have hk' : ¬frame < k' := fun hlt => hbetween ⟨hgt, hlt⟩
        intro x hx
        rcases List.mem_cons.mp hx with rfl | hx
        · exact hgt
        rcases ih htail (fun hm => hnot (List.mem_cons_of_mem _ hm)) h with hfront | hbehind
        · exact absurd (hfront k' List.mem_cons_self) hk'
        · exact hbehind x hx

/-! ## Where the seek leads -/

section Seek

variable {s : Stream} {first : Nat} {rest : List Nat}

theorem HasKeyframes.last (h : s.HasKeyframes first rest) :
    ∃ last ∈ first :: rest, entry s.keyframes (s.keyframeCount - 1) = some last ∧
      ∀ k ∈ first :: rest, k ≤ last := by
  obtain ⟨init, last, hK⟩ := (List.eq_nil_or_concat (first :: rest)).resolve_left
    (List.cons_ne_nil _ _)
  have hsorted := h.sorted
  have hcount := h.count
  rw [List.concat_eq_append] at hK
  rw [hK, List.pairwise_append] at hsorted
  rw [hK, List.length_append, List.length_singleton] at hcount
  rw [h.table, hK]
  refine ⟨last, List.mem_append_right _ (List.mem_singleton_self _), ?_, fun k hk => ?_⟩
  · rw [show s.keyframeCount - 1 = (init.length : Nat) by omega]
    exact entry_append_cons init last []
  · rcases List.mem_append.mp hk with hk | hk
    · exact hsorted.2.2 k hk last (List.mem_singleton_self _)
    · exact (List.mem_singleton.mp hk).le

theorem seekKeyframe_of_mem (h : s.HasKeyframes first rest) {frame : Int}
    (hmem : toDWORD frame ∈ first :: rest) : s.seekKeyframe frame = some frame := by
  have hexact := exactLoop_append (toDWORD frame) (first :: rest) []
  rw [List.nil_append, List.length_nil] at hexact
  rw [Stream.seekKeyframe, h.table, h.count, Int.toNat_natCast, hexact]
  simp [hmem]

theorem seekKeyframe_of_not_mem (h : s.HasKeyframes first rest) {frame : Int}
    (hmem : toDWORD frame ∉ first :: rest) :
    s.seekKeyframe frame = match neighbour (toDWORD frame) (first :: rest) with
      | some k => some (toInt32 k)
      | none => (entry s.keyframes (s.keyframeCount - 1)).map fun k => toInt32 k := by
  have hexact := exactLoop_append (toDWORD frame) (first :: rest) []
  have hbetween := betweenLoop_append (toDWORD frame) rest [] first
  have hcount : (((first :: rest).length : Int) - 1).toNat = rest.length := by
    rw [List.length_cons]
    omega
  rw [List.nil_append, List.length_nil] at hexact hbetween
  rw [Stream.seekKeyframe, h.table, h.count, Int.toNat_natCast, hexact, hcount, hbetween]
  simp only [hmem, decide_false, Option.bind_eq_bind, Option.bind_some, Bool.false_eq_true,
    if_false]

/-- The greatest keyframe not after the frame is where the seek should lead. -/
theorem landsAt_of_le {frame p : Int} {m : Nat} (hm : m ∈ first :: rest) (hle : (m : Int) ≤ frame)
    (hmax : ∀ k ∈ first :: rest, k ≤ m ∨ frame < (k : Int)) :
    LandsAt first rest frame p ↔ p = m := by
  have hgreatest : IsGreatest
      {k : Int | k ∈ (first :: rest).map (fun k : Nat => (k : Int)) ∧ k ≤ frame} (m : Int) := by
    refine ⟨⟨List.mem_map_of_mem hm, hle⟩, ?_⟩
    rintro x ⟨hx, hxle⟩
    obtain ⟨k, hk, rfl⟩ := List.mem_map.mp hx
    rcases hmax k hk with hkm | hlt
    · exact Int.ofNat_le.mpr hkm
    · omega
  constructor
  · intro h
    exact (h.before ⟨m, hm, hle⟩).unique hgreatest
  · rintro rfl
    exact ⟨fun _ => hgreatest, fun hall => absurd (hall m hm) (by omega)⟩

theorem landsAt_of_lt {frame p : Int} (hall : ∀ k ∈ first :: rest, frame < (k : Int)) :
    LandsAt first rest frame p ↔ p = first := by
  constructor
  · intro h
    exact h.first hall
  · rintro rfl
    refine ⟨?_, fun _ => rfl⟩
    rintro ⟨k, hk, hle⟩
    exact absurd (hall k hk) (by omega)

/-- A keyframe is the `int` it is stored as unless it is too large. -/
theorem toInt32_eq_natCast {k n : Nat} (hk : k < 2 ^ 32) :
    toInt32 k = (n : Int) ↔ k = n ∧ n < 2 ^ 31 := by
  by_cases h : k < 2 ^ 31
  · rw [toInt32_of_lt (by omega) (by omega)]
    omega
  · have := toInt32_le_sub (n := (k : Int)) (by omega)
    omega

theorem toDWORD_of_neg {frame : Int} (hlo : -2 ^ 31 ≤ frame) (hneg : frame < 0) :
    (toDWORD frame : Int) = frame + 2 ^ 32 := by
  have hwrap : frame % 2 ^ 32 = frame + 2 ^ 32 := by omega
  rw [toDWORD, hwrap]
  omega

/-- A seek that leads to the last keyframe, or to the neighbour `m` of a frame in front of all
keyframes, is right where that is the first one. -/
theorem toInt32_lands_iff (h : s.HasKeyframes first rest) {frame : Int} {m : Nat}
    (hall : ∀ k ∈ first :: rest, frame < (k : Int)) (hm : m ∈ first :: rest)
    (hmax : ∀ k ∈ first :: rest, k ≤ m ∨ frame < 0 ∧ toDWORD frame < k)
    (hlt : frame < 0 → m < toDWORD frame) :
    LandsAt first rest frame (toInt32 m) ↔
      (first : Int) ≤ frame ∨
        first < 2 ^ 31 ∧ ∀ k ∈ rest, k = first ∨ frame < 0 ∧ toDWORD frame < k := by
  have hfirst := hall first List.mem_cons_self
  rw [landsAt_of_lt hall, toInt32_eq_natCast (h.dwords m hm)]
  constructor
  · rintro ⟨rfl, hsmall⟩
    refine Or.inr ⟨hsmall, fun k hk => ?_⟩
    rcases hmax k (List.mem_cons_of_mem _ hk) with hle | hbehind
    · exact Or.inl (le_antisymm hle ((List.pairwise_cons.mp h.sorted).1 k hk))
    · exact Or.inr hbehind
  · rintro (hle | ⟨hsmall, hrest⟩)
    · omega
    refine ⟨?_, hsmall⟩
    rcases List.mem_cons.mp hm with hm | hm
    · exact hm
    rcases hrest m hm with hm | ⟨hneg, hbehind⟩
    · exact hm
    · exact absurd (hlt hneg) (by omega)

/-- **The seek in the table** is right if and only if the first keyframe is not after the
frame, or it is where the search ends. -/
theorem seekKeyframe_lands_iff (h : s.HasKeyframes first rest) {frame : Int}
    (hrange : -2147483648 ≤ frame ∧ frame < 2147483648) :
    (∃ p, s.seekKeyframe frame = some p ∧ LandsAt first rest frame p) ↔
      (first : Int) ≤ frame ∨
        first < 2 ^ 31 ∧ ∀ k ∈ rest, k = first ∨ frame < 0 ∧ toDWORD frame < k := by
  obtain ⟨last, hlast, hentry, hmax⟩ := HasKeyframes.last h
  by_cases hle : (first : Int) ≤ frame
  · -- the frame is behind the first keyframe, so it is the `DWORD` it is compared as
    refine iff_of_true ?_ (Or.inl hle)
    have hu : (toDWORD frame : Int) = frame := toDWORD_of_lt (by omega) (by omega)
    by_cases hmem : toDWORD frame ∈ first :: rest
    · refine ⟨frame, seekKeyframe_of_mem h hmem, (landsAt_of_le hmem (by omega) ?_).mpr hu.symm⟩
      intro k _
      omega
    rw [seekKeyframe_of_not_mem h hmem]
    cases hn : neighbour (toDWORD frame) (first :: rest) with
    | some m =>
      obtain ⟨hm, hlt, hbetween⟩ := neighbour_some h.sorted hn
      refine ⟨toInt32 m, rfl, (landsAt_of_le hm (by omega) ?_).mpr
        (toInt32_of_lt (by omega) (by omega))⟩
      intro k hk
      have := hbetween k hk
      omega
    | none =>
      have hbehind : ∀ k ∈ first :: rest, k < toDWORD frame := by
        rcases neighbour_none h.sorted hmem hn with hfront | hbehind
        · have := hfront first List.mem_cons_self
          omega
        · exact hbehind
      have hlt := hbehind last hlast
      refine ⟨toInt32 last, by rw [hentry]; rfl, (landsAt_of_le hlast (by omega) ?_).mpr
        (toInt32_of_lt (by omega) (by omega))⟩
      intro k hk
      exact Or.inl (hmax k hk)
  have hall : ∀ k ∈ first :: rest, frame < (k : Int) := by
    intro k hk
    rcases List.mem_cons.mp hk with rfl | hk
    · omega
    · have := (List.pairwise_cons.mp h.sorted).1 k hk
      omega
  by_cases hmem : toDWORD frame ∈ first :: rest
  · -- only a negative frame is found in the table that it is in front of
    have hneg : frame < 0 := by
      by_contra hpos
      have hu : (toDWORD frame : Int) = frame := toDWORD_of_lt (by omega) (by omega)
      have := hall _ hmem
      omega
    have hu := toDWORD_of_neg (by omega) hneg
    rw [seekKeyframe_of_mem h hmem]
    refine iff_of_false ?_ ?_
    · rintro ⟨p, hp, hlands⟩
      obtain rfl := Option.some.inj hp
      have := (landsAt_of_lt hall).mp hlands
      omega
    · rintro (hle' | ⟨hsmall, hrest⟩)
      · exact hle hle'
      rcases List.mem_cons.mp hmem with hfirst | hin
      · omega
      · have := hrest _ hin
        omega
  rw [seekKeyframe_of_not_mem h hmem]
  cases hn : neighbour (toDWORD frame) (first :: rest) with
  | some m =>
    obtain ⟨hm, hlt, hbetween⟩ := neighbour_some h.sorted hn
    have hneg : frame < 0 := by
      by_contra hpos
      have hu : (toDWORD frame : Int) = frame := toDWORD_of_lt (by omega) (by omega)
      have := hall m hm
      omega
    rw [← toInt32_lands_iff h hall hm (fun k hk => (hbetween k hk).imp_right (⟨hneg, ·⟩))
      (fun _ => hlt)]
    simp
  | none =>
    rw [hentry]
    rcases neighbour_none h.sorted hmem hn with hfront | hbehind
    · by_cases hneg : frame < 0
      · -- all keyframes are too large for an `int`
        have hu := toDWORD_of_neg (by omega) hneg
        have hfirst := hfront first List.mem_cons_self
        refine iff_of_false ?_ (by omega)
        rintro ⟨p, hp, hlands⟩
        obtain rfl := Option.some.inj hp
        have := (toInt32_eq_natCast (h.dwords last hlast)).mp ((landsAt_of_lt hall).mp hlands)
        omega
      · rw [← toInt32_lands_iff h hall hlast (fun k hk => Or.inl (hmax k hk))
          (fun hneg' => absurd hneg' hneg)]
        simp
    · rw [← toInt32_lands_iff h hall hlast (fun k hk => Or.inl (hmax k hk))
        (fun _ => hbehind last hlast)]
      simp

end Seek

/-- **A seek leads to the right keyframe** if and only if the stream has a length and the
seek is one that `SeeksRight`. -/
theorem changeStart_lands_iff (p : Pin) (rtStart : Int) {first : Nat} {rest : List Nat}
    (h : p.stream.HasKeyframes first rest) :
    (∃ q, p.changeStart rtStart = some q ∧
      LandsAt first rest (p.stream.frameAt rtStart) q.mFrameNumber) ↔
      p.stream.length ≠ 0 ∧
        SeeksRight p.stream.type first rest (p.stream.frameAt rtStart) := by
  have hcount : 0 < p.stream.keyframeCount := by
    rw [h.count, List.length_cons]
    omega
  rw [Pin.changeStart]
  by_cases hlength : p.stream.length = 0
  · simp [hlength]
  by_cases htype : p.stream.type = 0
  · have hrange : -2147483648 ≤ p.stream.frameAt rtStart ∧ p.stream.frameAt rtStart < 2147483648 :=
      toInt32_range _
    rw [SeeksRight, if_pos htype, ← seekKeyframe_lands_iff h hrange]
    simp [hlength, htype, hcount]
  · rw [SeeksRight, if_neg htype]
    simp only [hlength, htype, if_false, false_and, Option.map_some, Option.some.injEq,
      exists_eq_left', ne_eq, not_false_eq_true, true_and]
    constructor
    · intro hlands
      by_cases hbefore : ∃ k ∈ first :: rest, (k : Int) ≤ p.stream.frameAt rtStart
      · obtain ⟨k, hk, hkf⟩ := List.mem_map.mp (hlands.before hbefore).1.1
        exact ⟨k, hk, hkf⟩
      · push Not at hbefore
        exact ⟨first, List.mem_cons_self, (hlands.first hbefore).symm⟩
    · rintro ⟨k, hk, hkf⟩
      rw [landsAt_of_le hk hkf.le (fun x _ => by omega)]
      exact hkf.symm

/-- A video of a second and 25 frames whose keyframes are the frames 5 and 10. -/
def secondOfVideo : Pin :=
  ⟨⟨0, 25, 1000, 0, none, none, 2, some [5, 10], 0, 0, 0, 0, 0, 0⟩, 0, 0⟩

theorem secondOfVideo_hasKeyframes : secondOfVideo.stream.HasKeyframes 5 [10] :=
  ⟨rfl, rfl, by decide, by decide⟩

/-- A seek to the start leads to the last keyframe. -/
theorem changeStart_before_first : secondOfVideo.stream.HasKeyframes 5 [10] ∧
    secondOfVideo.stream.frameAt 0 = 0 ∧
    secondOfVideo.changeStart 0 = some { secondOfVideo with mFrameNumber := 10 } ∧
    ¬LandsAt 5 [10] 0 10 := by
  refine ⟨secondOfVideo_hasKeyframes, by decide, by decide, fun h => ?_⟩
  exact absurd (h.first (by decide)) (by decide)

/-- A seek to frame 7 leads to keyframe 5. -/
theorem changeStart_between : ∃ q, secondOfVideo.changeStart 2800000 = some q ∧
    LandsAt 5 [10] (secondOfVideo.stream.frameAt 2800000) q.mFrameNumber :=
  (changeStart_lands_iff secondOfVideo 2800000 secondOfVideo_hasKeyframes).mpr
    ⟨by decide, Or.inl (by decide)⟩

end DWindow.Demuxer
