import DWindow.Lib.Groups
import DWindow.Srt.Pool

/-!
# Taking out the tags

`direct_add_subtitle` looks for the first `<` and the first `>` and stops when they are in the
wrong order, so that a stray `>` keeps every tag behind it in the text.  The offset is read
behind the first `<offset=`, whether or not that tag is ever closed.  What is stored is right
exactly for a text without either (`storesStripped_iff`).
-/

namespace DWindow.Srt

open CInt Decimal Groups WString

/-! ## What is meant -/

/-- The number in the first tag `<offset=n>`, if there is one. -/
def tagOffset (line : List UInt16) : Option Int :=
  match findSub offsetTag line with
  | none => none
  | some p =>
    let body := line.drop (p + offsetTag.length)
    if 62 ∈ body then some (wtoi (body.takeWhile (· ≠ 62))) else none

/-- **What is stored is the text without its tags**, with the offset of the first offset tag. -/
structure StoresStripped (s : SrtParser) (line : List UInt16) (s' : SrtParser) : Prop where
  stored : ∃ e, s'.mIndex = s.mIndex ++ [e] ∧
    ¬ HasGroup 60 62 (cstrAt s'.mTextData e.pos) ∧
    cstrAt s'.mTextData e.pos = removeGroups 60 62 false (s.warned line) ∧
    (if e.hasOffset = true then some e.offset else none) = tagOffset (s.warned line)

/-- Behind a stray `>` no tag may come. -/
abbrev TagsOrdered (line : List UInt16) : Prop :=
  Grouped 60 62 (fun rest => ¬ HasGroup 60 62 rest) false line

/-- The first `<offset=` is closed. -/
def OffsetClosed (line : List UInt16) : Prop :=
  ∀ p ∈ findSub offsetTag line, 62 ∈ line.drop (p + offsetTag.length)

/-! ## What is left of the text -/

variable {line a rest : List UInt16}

theorem hasGroup_close (ha : 60 ∉ a) : HasGroup 60 62 (a ++ 62 :: rest) ↔ HasGroup 60 62 rest := by
  induction a with
  | nil => simp [HasGroup]
  | cons x xs ih =>
    rw [List.mem_cons, not_or] at ha
    rw [List.cons_append, HasGroup, ih ha.2]
    exact or_iff_right fun h => ha.1 h.1.symm

/-- Tags in their order are all taken out. -/
theorem stripLoop_of_ordered : ∀ (fuel : Nat) {line : List UInt16}, line.length ≤ fuel →
    TagsOrdered line → stripLoop fuel line = removeGroups 60 62 false line := by
  intro fuel
  induction fuel with
  | zero =>
    intro line hlen _
    obtain rfl := List.length_eq_zero_iff.mp (Nat.le_zero.mp hlen)
    rfl
  | succ fuel ih =>
    intro line hlen hord
    rw [stripLoop]
    rcases group_cases (by decide : (60 : UInt16) ≠ 62) line with
      hmiss | ⟨a, b, rest, rfl, ho, hc, hb⟩ | ⟨a, rest, rfl, ho, hc, hrest⟩
    · rw [removeGroups_of_not_hasGroup (not_hasGroup_of_not_mem hmiss)]
      split
      · next l r hl hr =>
        rcases hmiss with hmiss | hmiss
        · rw [show findSub (wide ['<']) line = none from findSub_of_not_mem hmiss] at hl
          cases hl
        · rw [show findSub (wide ['>']) line = none from findSub_of_not_mem hmiss] at hr
          cases hr
      · rfl
    · obtain ⟨hopen, hclose⟩ := findSub_pair (by decide) ho hc hb rest
      rw [show findSub (wide ['<']) _ = _ from hopen, show findSub (wide ['>']) _ = _ from hclose]
      dsimp only
      rw [if_pos (by omega), cut_pair, ih (by
        simp only [List.length_append, List.length_cons] at hlen ⊢
        omega) ((grouped_group ho hc hb rest).mp hord), removeGroups_group ho hb,
        removeGroups_append ho]
    · obtain ⟨b, rest, rfl, hb⟩ := List.eq_append_cons_of_mem hrest
      obtain ⟨hclose, hopen⟩ := findSub_pair (by decide) hc ho hb rest
      rw [show findSub (wide ['<']) _ = _ from hopen, show findSub (wide ['>']) _ = _ from hclose]
      dsimp only
      rw [if_neg (by omega), removeGroups_of_not_hasGroup]
      rw [hasGroup_close ho]
      exact (grouped_close (by decide) ho hc _).mp hord

/-- A stray `>` in front of a tag leaves that tag. -/
theorem hasGroup_stripLoop : ∀ (fuel : Nat) {line : List UInt16}, line.length ≤ fuel →
    ¬ TagsOrdered line → HasGroup 60 62 (stripLoop fuel line) := by
  intro fuel
  induction fuel with
  | zero =>
    intro line hlen hord
    obtain rfl := List.length_eq_zero_iff.mp (Nat.le_zero.mp hlen)
    exact absurd trivial hord
  | succ fuel ih =>
    intro line hlen hord
    rw [stripLoop]
    rcases group_cases (by decide : (60 : UInt16) ≠ 62) line with
      hmiss | ⟨a, b, rest, rfl, ho, hc, hb⟩ | ⟨a, rest, rfl, ho, hc, hrest⟩
    · exact absurd (grouped_of_not_mem (by decide)
        (fun ys hys => not_hasGroup_of_not_mem (.inl hys)) hmiss) hord
    · obtain ⟨hopen, hclose⟩ := findSub_pair (by decide) ho hc hb rest
      rw [show findSub (wide ['<']) _ = _ from hopen, show findSub (wide ['>']) _ = _ from hclose]
      dsimp only
      rw [if_pos (by omega), cut_pair]
      refine ih ?_ fun hrest => hord ((grouped_group ho hc hb rest).mpr hrest)
      simp only [List.length_append, List.length_cons] at hlen ⊢
      omega
    · have hgroup : HasGroup 60 62 rest := by
        by_contra hnone
        exact hord ((grouped_close (by decide) ho hc rest).mpr hnone)
      obtain ⟨b, rest, rfl, hb⟩ := List.eq_append_cons_of_mem hrest
      obtain ⟨hclose, hopen⟩ := findSub_pair (by decide) hc ho hb rest
      rw [show findSub (wide ['<']) _ = _ from hopen, show findSub (wide ['>']) _ = _ from hclose]
      dsimp only
      rw [if_neg (by omega), hasGroup_close ho]
      exact hgroup

/-- **The text is right** exactly when its tags are in their order. -/
theorem stripTags_iff : (¬ HasGroup 60 62 (stripTags line) ∧
    stripTags line = removeGroups 60 62 false line) ↔ TagsOrdered line := by
  constructor
  · rintro ⟨hnone, -⟩
    by_contra hord
    exact hnone (hasGroup_stripLoop _ (Nat.le_refl _) hord)
  · intro hord
    have hstrip := stripLoop_of_ordered _ (Nat.le_refl _) hord
    refine ⟨?_, hstrip⟩
    rw [stripTags, hstrip]
    exact not_hasGroup_removeGroups false

/-! ## What is kept of the offset -/

theorem wtoi_takeWhile (body : List UInt16) (h : 62 ∈ body) :
    wtoi (body.takeWhile (· ≠ 62)) = wtoi body := by
  obtain ⟨n, rest, rfl, hn⟩ := List.eq_append_cons_of_mem h
  have htake : (n ++ 62 :: rest).takeWhile (· ≠ 62) = n := by
    rw [List.takeWhile_append_of_pos, List.takeWhile_cons_of_neg (by decide), List.append_nil]
    intro c hc
    rw [decide_eq_true_eq]
    rintro rfl
    exact hn hc
  have hscan := scanInt_append (c := 62) (by decide) (by decide) (by decide) (by decide) n rest
  rw [htake, wtoi, wtoi]
  cases hleft : scanInt n with
  | none =>
    rw [hleft, Option.map_none, Option.map_eq_none_iff] at hscan
    rw [hscan]
  | some r =>
    rw [hleft, Option.map_some] at hscan
    obtain ⟨r', hr', hfst⟩ := Option.map_eq_some_iff.mp hscan
    rw [hr']
    dsimp only
    rw [hfst]

/-- **The offset is right** exactly when `<offset=` is closed. -/
theorem findOffset_eq_iff : findOffset line = tagOffset line ↔ OffsetClosed line := by
  unfold findOffset tagOffset OffsetClosed
  cases findSub offsetTag line with
  | none => simp
  | some p =>
    rw [Option.map_some]
    dsimp only
    by_cases hclosed : 62 ∈ line.drop (p + offsetTag.length)
    · rw [if_pos hclosed, wtoi_takeWhile _ hclosed]
      simpa using hclosed
    · rw [if_neg hclosed]
      simpa using hclosed

/-! ## What is stored -/

variable {s s' : SrtParser} {start stop : Int}

theorem stored_of_directAddSubtitle (h : s.directAddSubtitle line start stop = some (s', 0)) :
    ∃ e, s'.mIndex = s.mIndex ++ [e] ∧ cstrAt s'.mTextData e.pos = s.storedText line ∧
      (if e.hasOffset = true then some e.offset else none) = findOffset (s.warned line) := by
  rcases SrtParser.directAddSubtitle_cases h with ⟨-, -, hrtn⟩ | ⟨-, -, textData, hcopy, rfl⟩
  · cases hrtn
  · refine ⟨_, rfl, cstrAt_wcscpyAt hcopy (SrtParser.not_mem_storedText s line), ?_⟩
    cases findOffset (s.warned line) with
    | none => rfl
    | some n => rfl

/-- **What is stored is right** exactly when no stray `>` stands in front of a tag and the first
`<offset=` is closed. -/
theorem storesStripped_iff (h : s.directAddSubtitle line start stop = some (s', 0)) :
    StoresStripped s line s' ↔ TagsOrdered (s.warned line) ∧ OffsetClosed (s.warned line) := by
  obtain ⟨e, hindex, htext, hoffset⟩ := stored_of_directAddSubtitle h
  rw [← stripTags_iff, ← findOffset_eq_iff]
  constructor
  · rintro ⟨e', hindex', hnone, hleft, hoffset'⟩
    obtain rfl : e = e' := by
      rw [hindex, List.append_cancel_left_eq, List.singleton_inj] at hindex'
      exact hindex'
    rw [htext] at hnone hleft
    exact ⟨⟨hnone, hleft⟩, hoffset.symm.trans hoffset'⟩
  · rintro ⟨⟨hnone, hleft⟩, hfound⟩
    refine ⟨e, hindex, ?_, ?_, hoffset.trans hfound⟩
    · rw [htext]
      exact hnone
    · rw [htext]
      exact hleft

def roomForOne : SrtParser := .init 1 (List.replicate 16 1) []

theorem storesStripped_iff_bold :
    StoresStripped roomForOne (wide ['<', 'b', '>', 'x'])
        ((roomForOne.directAddSubtitle (wide ['<', 'b', '>', 'x']) 0 9).getD (roomForOne, 0)).1 ↔
      TagsOrdered (roomForOne.warned (wide ['<', 'b', '>', 'x'])) ∧
        OffsetClosed (roomForOne.warned (wide ['<', 'b', '>', 'x'])) := by
  have hadd : roomForOne.directAddSubtitle (wide ['<', 'b', '>', 'x']) 0 9 =
      some (((roomForOne.directAddSubtitle (wide ['<', 'b', '>', 'x']) 0 9).getD
        (roomForOne, 0)).1, 0) := by decide
  exact storesStripped_iff hadd

/-- **A stray `>` keeps the tag behind it.** -/
theorem tag_behind_stray_is_kept :
    (roomForOne.directAddSubtitle (wide ['>', '<', 'b', '>']) 0 9).isSome = true ∧
      ¬ StoresStripped roomForOne (wide ['>', '<', 'b', '>'])
        ((roomForOne.directAddSubtitle (wide ['>', '<', 'b', '>']) 0 9).getD
          (roomForOne, 0)).1 := by
  refine ⟨by decide, ?_⟩
  rintro ⟨e, hindex, hnone, -⟩
  have hkept : ((roomForOne.directAddSubtitle (wide ['>', '<', 'b', '>']) 0 9).getD
      (roomForOne, 0)).1.mIndex = [⟨0, 9, 0, 0, false⟩] := by decide
  rw [hkept] at hindex
  obtain rfl : (⟨0, 9, 0, 0, false⟩ : SubtitleIndex) = e := List.singleton_inj.mp hindex
  exact hnone (by decide)

end DWindow.Srt
