import DWindow.Subtitle.Renderers

/-!
# Looking up one subtitle or all of them

`get_subtitle` of `srt_parser` leaves the first subtitle of a time in `out`, or, with `multi`
set, the texts of all of them, from the last one to the first.  For the first subtitle it asks
only whether the start or the end of the query lies in it, so that a subtitle that begins and
ends inside of the query is found by `multi` alone.  The two agree exactly when, for any text
that `multi` finds, the first subtitle with an end of the query in it is there and has a text
(`lookupsAgree_iff`).
-/

namespace DWindow.Subtitle

open Srt WString

/-- The four tests of `get_subtitle` with `multi` set. -/
def meets (timeStart timeEnd start stop : Int) : Bool :=
  (decide (start ≤ timeStart) && decide (timeStart ≤ stop)) ||
  (decide (start ≤ timeEnd) && decide (timeEnd ≤ stop)) ||
  (decide (timeStart ≤ start) && decide (start ≤ timeEnd)) ||
  (decide (timeStart ≤ stop) && decide (stop ≤ timeEnd))

/-- A text behind those that are in `out`. -/
def joinText (out text : List UInt16) : List UInt16 :=
  if out = [] then text else out ++ 10 :: text

def textOf (p : SrtParser) (i : SubtitleIndex) : List UInt16 := cstrAt p.mTextData i.pos

/-- What `get_subtitle` leaves in `out` with `multi` set. -/
def srtFindAll (p : SrtParser) (start stop : Int) : List UInt16 :=
  if start > stop then []
  else
    p.mIndex.reverse.foldl (fun out i =>
      if meets i.timeStart i.timeEnd start stop then joinText out (textOf p i) else out) []

/-! ## The three tests -/

/-- Some moment of the subtitle is one of the query. -/
def Intersects (i : SubtitleIndex) (start stop : Int) : Prop :=
  ∃ t, (start ≤ t ∧ t ≤ stop) ∧ i.timeStart ≤ t ∧ t ≤ i.timeEnd

variable {p : SrtParser} {i : SubtitleIndex} {start stop : Int}

theorem meets_iff {timeStart timeEnd : Int} : meets timeStart timeEnd start stop = true ↔
    (start ≤ timeStart ∧ timeStart ≤ stop) ∨ (start ≤ timeEnd ∧ timeEnd ≤ stop) ∨
      (timeStart ≤ start ∧ start ≤ timeEnd) ∨ (timeStart ≤ stop ∧ stop ≤ timeEnd) := by
  simp only [meets, Bool.or_eq_true, Bool.and_eq_true, decide_eq_true_eq, or_assoc]

/-- A subtitle with an end of the query in it intersects the query. -/
theorem intersects_of_covers (h : start ≤ stop)
    (hcovers : covers i.timeStart i.timeEnd start stop = true) : Intersects i start stop := by
  simp only [covers, Bool.or_eq_true, Bool.and_eq_true, decide_eq_true_eq] at hcovers
  rcases hcovers with hstart | hstop
  · exact ⟨start, ⟨le_refl start, h⟩, hstart⟩
  · exact ⟨stop, ⟨h, le_refl stop⟩, hstop⟩

/-- One that intersects the query passes a test of `multi`. -/
theorem meets_of_intersects (h : Intersects i start stop) :
    meets i.timeStart i.timeEnd start stop = true := by
  obtain ⟨t, hquery, hsub⟩ := h
  rw [meets_iff]
  omega

/-- For a subtitle that does not end before it begins the tests of `multi` are right. -/
theorem intersects_iff_meets (h : start ≤ stop) (hsub : i.timeStart ≤ i.timeEnd) :
    Intersects i start stop ↔ meets i.timeStart i.timeEnd start stop = true := by
  refine ⟨meets_of_intersects, fun hmeets => ?_⟩
  rw [meets_iff] at hmeets
  exact ⟨max start i.timeStart, by omega⟩

/-! ## What is found -/

theorem joinText_ne_nil {out text : List UInt16} :
    joinText out text ≠ [] ↔ out ≠ [] ∨ text ≠ [] := by
  unfold joinText
  split
  · next h => simp [h]
  · next h => simp [h]

/-- `out` has a character when a subtitle that was joined has one. -/
theorem foldl_joinText_ne_nil (test : SubtitleIndex → Bool) :
    ∀ (index : List SubtitleIndex) (out : List UInt16),
      index.foldl (fun out i => if test i then joinText out (textOf p i) else out) out ≠ [] ↔
        out ≠ [] ∨ ∃ i ∈ index, test i = true ∧ textOf p i ≠ [] := by
  intro index
  induction index with
  | nil => intro out; simp
  | cons i index ih =>
    intro out
    rw [List.foldl_cons, ih, List.exists_mem_cons_iff]
    by_cases htest : test i = true
    · rw [if_pos htest, joinText_ne_nil, or_assoc]
      simp [htest]
    · simp [htest]

theorem srtFindAll_ne_nil (h : start ≤ stop) : srtFindAll p start stop ≠ [] ↔
    ∃ i ∈ p.mIndex, meets i.timeStart i.timeEnd start stop = true ∧ textOf p i ≠ [] := by
  rw [srtFindAll, if_neg (by omega)]
  refine (foldl_joinText_ne_nil (fun i => meets i.timeStart i.timeEnd start stop) _ _).trans ?_
  simp only [ne_eq, not_true_eq_false, false_or, List.mem_reverse]

/-- The first subtitle with an end of the query in it has a text. -/
def FirstHasText (p : SrtParser) (start stop : Int) : Prop :=
  ∃ before i after, p.mIndex = before ++ i :: after ∧
    covers i.timeStart i.timeEnd start stop = true ∧ textOf p i ≠ [] ∧
    ∀ j ∈ before, covers j.timeStart j.timeEnd start stop = false

theorem srtFind_ne_nil (h : start ≤ stop) :
    (srtFind p start stop).text ≠ [] ↔ FirstHasText p start stop := by
  rw [srtFind, if_neg (by omega)]
  constructor
  · intro htext
    split at htext
    · next i hi =>
      obtain ⟨hcovers, before, after, hindex, hbefore⟩ := List.find?_eq_some_iff_append.mp hi
      exact ⟨before, i, after, hindex, hcovers, htext, fun j hj => by simpa using hbefore j hj⟩
    · exact absurd rfl htext
  · rintro ⟨before, i, after, hindex, hcovers, htext, hbefore⟩
    have hfind : p.mIndex.find? (fun i => covers i.timeStart i.timeEnd start stop) = some i :=
      List.find?_eq_some_iff_append.mpr
        ⟨hcovers, before, after, hindex, fun j hj => by simpa using hbefore j hj⟩
    rw [hfind]
    exact htext

/-! ## When they agree -/

/-- **Both ways answer the query alike**: with a text exactly when a subtitle with a text
intersects the query. -/
structure LookupsAgree (p : SrtParser) (start stop : Int) : Prop where
  single : (srtFind p start stop).text ≠ [] ↔ srtFindAll p start stop ≠ []
  multi : srtFindAll p start stop ≠ [] ↔ ∃ i ∈ p.mIndex, textOf p i ≠ [] ∧ Intersects i start stop

/-- **The two ways agree** exactly when the first subtitle with an end of the query in it has a
text, or `multi` finds no text. -/
theorem lookupsAgree_iff (h : start ≤ stop) :
    LookupsAgree p start stop ↔
      ∀ i ∈ p.mIndex, textOf p i ≠ [] → meets i.timeStart i.timeEnd start stop = true →
        FirstHasText p start stop := by
  constructor
  · intro hagree i hi htext hmeets
    exact (srtFind_ne_nil h).mp
      (hagree.single.mpr ((srtFindAll_ne_nil h).mpr ⟨i, hi, hmeets, htext⟩))
  · intro hfirst
    have hshown : FirstHasText p start stop →
        ∃ i ∈ p.mIndex, textOf p i ≠ [] ∧ Intersects i start stop := by
      rintro ⟨before, i, after, hindex, hcovers, htext, -⟩
      exact ⟨i, by rw [hindex]; simp, htext, intersects_of_covers h hcovers⟩
    have hmeets : (∃ i ∈ p.mIndex, textOf p i ≠ [] ∧ Intersects i start stop) →
        srtFindAll p start stop ≠ [] := by
      rintro ⟨i, hi, htext, hsub⟩
      exact (srtFindAll_ne_nil h).mpr ⟨i, hi, meets_of_intersects hsub, htext⟩
    have hall : srtFindAll p start stop ≠ [] → FirstHasText p start stop := by
      intro hfound
      obtain ⟨i, hi, hmeets, htext⟩ := (srtFindAll_ne_nil h).mp hfound
      exact hfirst i hi htext hmeets
    exact ⟨⟨fun hone => hmeets (hshown ((srtFind_ne_nil h).mp hone)),
      fun hfound => (srtFind_ne_nil h).mpr (hall hfound)⟩, fun hfound => hshown (hall hfound),
      hmeets⟩

/-- The text `a`, from 100 to 200. -/
def oneShort : SrtParser :=
  { SrtParser.init 1 [97, 0] [] with
    mIndex := [⟨100, 200, 0, 0, false⟩]
    mTextData := [97, 0] }

theorem lookupsAgree_iff_oneShort : LookupsAgree oneShort 150 300 ↔
    ∀ i ∈ oneShort.mIndex, textOf oneShort i ≠ [] →
      meets i.timeStart i.timeEnd 150 300 = true → FirstHasText oneShort 150 300 :=
  lookupsAgree_iff (by decide)

/-- **A subtitle inside of the query** is found by `multi` alone. -/
theorem inside_query_is_missed : (srtFind oneShort 0 300).text = [] ∧
    srtFindAll oneShort 0 300 = [97] ∧ ¬ LookupsAgree oneShort 0 300 := by
  have hone : (srtFind oneShort 0 300).text = [] := by decide
  have hall : srtFindAll oneShort 0 300 = [97] := by decide
  refine ⟨hone, hall, fun hagree => ?_⟩
  exact hagree.single.mpr (by rw [hall]; exact List.cons_ne_nil _ _) hone

end DWindow.Subtitle
