import DWindow.Srt.Parser

/-!
# Where the texts land

`direct_add_subtitle` finds the place for a text behind the last one, unless the
buffer begins with a zero.  So there are two kinds of states.  In a `Filled` one
the first character is not zero and every text ends in front of `endPos`, where
the next one goes: texts are added and none is touched.  In a `Blank` one every
text so far was empty, and every one of them stands at place zero, where the next
text goes as well.  The first text that is not empty turns a blank state into a
filled one and shows up in all the entries before it.

`texts_addAll` says what the entries read after any sequence of calls, and
`texts_eq_stored_iff` when that is what the calls stored.
-/

namespace DWindow.Srt

open WString

/-- One call of `direct_add_subtitle`. -/
structure Call where
  line : List UInt16
  start : Int
  stop : Int
deriving DecidableEq, Repr

namespace SrtParser

/-- Any number of calls: the state, and the texts that the accepted ones stored. -/
def addAll (s : SrtParser) : List Call → Option (SrtParser × List (List UInt16))
  | [] => some (s, [])
  | c :: cs => do
    let (s', rtn) ← s.directAddSubtitle c.line c.start c.stop
    let (s'', stored) ← s'.addAll cs
    some (s'', if rtn = 0 then s.storedText c.line :: stored else stored)

def texts (s : SrtParser) : List (List UInt16) :=
  s.mIndex.map (fun e => cstrAt s.mTextData e.pos)

def endPos (s : SrtParser) : Nat := s.mTextPos + (cstrAt s.mTextData s.mTextPos).length + 1

/-! ## One call -/

theorem not_mem_stripLoop : ∀ (fuel : Nat) (line : List UInt16), (0 : UInt16) ∉ line →
    (0 : UInt16) ∉ stripLoop fuel line := by
  intro fuel
  induction fuel with
  | zero => intro line h; exact h
  | succ fuel ih =>
    intro line h
    rw [stripLoop]
    split
    · split
      · refine ih _ ?_
        rw [List.mem_append, not_or]
        exact ⟨fun hm => h (List.mem_of_mem_take hm), fun hm => h (List.mem_of_mem_drop hm)⟩
      · exact h
    · exact h

theorem not_mem_storedText (s : SrtParser) (line : List UInt16) :
    (0 : UInt16) ∉ s.storedText line := by
  refine not_mem_stripLoop _ _ ?_
  rw [warned]
  split
  · rw [List.mem_append, List.mem_append, not_or, not_or]
    exact ⟨⟨not_mem_cstr _, by decide⟩, not_mem_cstr _⟩
  · exact not_mem_cstr _

/-- The state after a call that stored `text`. -/
def added (s : SrtParser) (entry : SubtitleIndex) (textData : List UInt16) : SrtParser :=
  { s with
    mIndex := s.mIndex ++ [entry]
    mTextPos := entry.pos
    mTextData := textData }

/-- **What a call does**: nothing for a duplicate, else it copies the text to the
next place and adds an entry that points there. -/
theorem directAddSubtitle_cases {s s' : SrtParser} {line : List UInt16} {start stop rtn : Int}
    (h : s.directAddSubtitle line start stop = some (s', rtn)) :
    (s.mIndex.any (fun i => isDuplicate i start stop) = true ∧ s' = s ∧ rtn = -1) ∨
    (s.mIndex.any (fun i => isDuplicate i start stop) = false ∧ rtn = 0 ∧ ∃ textData,
      wcscpyAt s.mTextData s.nextPos (s.storedText line) = some textData ∧
      s' = s.added ⟨start, stop, s.nextPos, (findOffset (s.warned line)).getD 0,
        (findOffset (s.warned line)).isSome⟩ textData) := by
  rw [directAddSubtitle] at h
  dsimp only at h
  cases hdup : s.mIndex.any (fun i => isDuplicate i start stop) with
  | true =>
    rw [hdup, if_pos rfl, Option.some.injEq, Prod.mk.injEq] at h
    exact Or.inl ⟨rfl, h.1.symm, h.2.symm⟩
  | false =>
    rw [hdup, if_neg (by decide)] at h
    split at h
    · rw [Option.bind_eq_bind, Option.bind_eq_some_iff] at h
      obtain ⟨textData, hcopy, h⟩ := h
      rw [Option.some.injEq, Prod.mk.injEq] at h
      exact Or.inr ⟨rfl, h.2.symm, textData, hcopy, h.1.symm⟩
    · exact absurd h (by simp)

/-! ## Filled states -/

/-- The buffer begins with a text, and every text ends in front of the next
place. -/
structure Filled (s : SrtParser) : Prop where
  head : s.mTextData.head? ≠ some 0
  fits : s.endPos ≤ s.mTextData.length
  before : ∀ e ∈ s.mIndex, e.pos + (cstrAt s.mTextData e.pos).length + 1 ≤ s.endPos

theorem Filled.nextPos {s : SrtParser} (hs : s.Filled) : s.nextPos = s.endPos := if_pos hs.head

theorem head?_wcscpyAt {mem mem' str : List UInt16} {p : Nat} (hp : 0 < p)
    (h : wcscpyAt mem p str = some mem') : mem'.head? = mem.head? := by
  obtain ⟨hle, rfl⟩ := wcscpyAt_eq_some h
  cases mem with
  | nil => simp at hle
  | cons c cs =>
    obtain ⟨p, rfl⟩ : ∃ n, p = n + 1 := ⟨p - 1, by omega⟩
    rfl

/-- **A text added to a filled state** leaves the others alone. -/
theorem Filled.added {s : SrtParser} (hs : s.Filled) {text textData : List UInt16}
    (h0 : (0 : UInt16) ∉ text) (hcopy : wcscpyAt s.mTextData s.nextPos text = some textData)
    (entry : SubtitleIndex) (hpos : entry.pos = s.nextPos) :
    (s.added entry textData).Filled ∧ (s.added entry textData).texts = s.texts ++ [text] ∧
      (s.added entry textData).endPos = s.endPos + text.length + 1 := by
  have hnext : s.nextPos = s.endPos := hs.nextPos
  have hnew : cstrAt textData entry.pos = text := by
    rw [hpos]
    exact cstrAt_wcscpyAt hcopy h0
  have hold : ∀ e ∈ s.mIndex, cstrAt textData e.pos = cstrAt s.mTextData e.pos := by
    intro e he
    exact cstrAt_wcscpyAt_of_le hcopy (by rw [hnext]; exact hs.before e he)
  have hend : (s.added entry textData).endPos = s.endPos + text.length + 1 := by
    have : (s.added entry textData).endPos =
        entry.pos + (cstrAt textData entry.pos).length + 1 := rfl
    rw [this, hnew, hpos, hnext]
  refine ⟨⟨?_, ?_, ?_⟩, ?_, hend⟩
  · rw [SrtParser.added]
    dsimp only
    rw [head?_wcscpyAt (by rw [hnext, endPos]; omega) hcopy]
    exact hs.head
  · have hle := (wcscpyAt_eq_some hcopy).1
    have hlen := length_wcscpyAt hcopy
    rw [hend]
    rw [SrtParser.added]
    dsimp only
    omega
  · intro e he
    rw [hend]
    rcases List.mem_append.mp he with he | he
    · have := hs.before e he
      rw [SrtParser.added]
      dsimp only
      rw [hold e he]
      omega
    · rw [List.mem_singleton.mp he, SrtParser.added]
      dsimp only
      rw [hnew, hpos, hnext]
  · rw [texts, SrtParser.added]
    dsimp only
    rw [List.map_append, List.map_singleton, hnew]
    congr 1
    exact List.map_congr_left hold

theorem addAll_cons {s s'' : SrtParser} {c : Call} {cs : List Call} {stored : List (List UInt16)}
    (h : s.addAll (c :: cs) = some (s'', stored)) :
    ∃ s' rtn stored', s.directAddSubtitle c.line c.start c.stop = some (s', rtn) ∧
      s'.addAll cs = some (s'', stored') ∧
      stored = if rtn = 0 then s.storedText c.line :: stored' else stored' := by
  rw [addAll, Option.bind_eq_bind, Option.bind_eq_some_iff] at h
  obtain ⟨⟨s', rtn⟩, hadd, h⟩ := h
  dsimp only at h
  rw [Option.bind_eq_bind, Option.bind_eq_some_iff] at h
  obtain ⟨⟨s₂, stored'⟩, hall, h⟩ := h
  rw [Option.some.injEq, Prod.mk.injEq] at h
  obtain ⟨rfl, rfl⟩ := h
  exact ⟨s', rtn, stored', hadd, hall, rfl⟩

/-- In a filled state every call adds its own text. -/
theorem Filled.addAll : ∀ (calls : List Call) {s s' : SrtParser} {stored : List (List UInt16)},
    s.Filled → s.addAll calls = some (s', stored) → s'.texts = s.texts ++ stored := by
  intro calls
  induction calls with
  | nil =>
    intro s s' stored _ h
    rw [SrtParser.addAll, Option.some.injEq, Prod.mk.injEq] at h
    rw [← h.1, ← h.2, List.append_nil]
  | cons c cs ih =>
    intro s s' stored hs h
    obtain ⟨s₁, rtn, stored', hadd, hall, rfl⟩ := addAll_cons h
    rcases directAddSubtitle_cases hadd with ⟨-, rfl, rfl⟩ | ⟨-, rfl, textData, hcopy, rfl⟩
    · exact ih hs hall
    · obtain ⟨hs₁, htexts, -⟩ := hs.added (not_mem_storedText s c.line) hcopy
        ⟨c.start, c.stop, s.nextPos, _, _⟩ rfl
      rw [ih hs₁ hall, htexts, List.append_assoc]
      rfl

/-- What a text in the list of texts says about the memory. -/
theorem cstrAt_of_texts_added {s : SrtParser} {new : SubtitleIndex} {textData text : List UInt16}
    (h : (s.added new textData).texts = s.texts ++ [text]) :
    (∀ e ∈ s.mIndex, cstrAt textData e.pos = cstrAt s.mTextData e.pos) ∧
      cstrAt textData new.pos = text := by
  have hsplit : (s.added new textData).texts =
      s.mIndex.map (fun e => cstrAt textData e.pos) ++ [cstrAt textData new.pos] :=
    List.map_append
  rw [hsplit] at h
  obtain ⟨hold, hnew⟩ := List.append_inj' h rfl
  exact ⟨fun e he => List.map_inj_left.mp hold e he, List.singleton_inj.mp hnew⟩

/-! ## Blank states -/

structure Blank (s : SrtParser) : Prop where
  head : s.mTextData.head? = some 0
  textPos : s.mTextPos = 0
  pos : ∀ e ∈ s.mIndex, e.pos = 0

theorem Blank.nextPos {s : SrtParser} (hs : s.Blank) : s.nextPos = 0 := by
  rw [SrtParser.nextPos, hs.head, if_neg (not_not_intro rfl), hs.textPos]

theorem blank_init (num : Nat) {heap : List UInt16} (hheap : heap ≠ [])
    (fontsLoading : List UInt16) : (init num heap fontsLoading).Blank := by
  obtain ⟨c, cs, rfl⟩ := List.exists_cons_of_ne_nil hheap
  exact ⟨rfl, rfl, fun e he => absurd he List.not_mem_nil⟩

/-- **A text added to a blank state** is what every entry reads. -/
theorem Blank.added {s : SrtParser} (hs : s.Blank) {text textData : List UInt16}
    (h0 : (0 : UInt16) ∉ text) (hcopy : wcscpyAt s.mTextData s.nextPos text = some textData)
    (entry : SubtitleIndex) (hpos : entry.pos = s.nextPos) :
    (s.added entry textData).texts = List.replicate (s.mIndex.length + 1) text ∧
      (text = [] → (s.added entry textData).Blank) ∧
      (text ≠ [] → (s.added entry textData).Filled ∧
        (s.added entry textData).endPos = text.length + 1) := by
  have hnext : s.nextPos = 0 := hs.nextPos
  rw [hnext] at hcopy hpos
  have hread : cstrAt textData 0 = text := cstrAt_wcscpyAt hcopy h0
  have hall : ∀ e ∈ (s.added entry textData).mIndex, e.pos = 0 := by
    intro e he
    rcases List.mem_append.mp he with he | he
    · exact hs.pos e he
    · rw [List.mem_singleton.mp he, hpos]
  have hend : (s.added entry textData).endPos = text.length + 1 := by
    have : (s.added entry textData).endPos =
        entry.pos + (cstrAt textData entry.pos).length + 1 := rfl
    rw [this, hpos, hread, Nat.zero_add]
  obtain ⟨hle, hdata⟩ := wcscpyAt_eq_some hcopy
  rw [List.take_zero, List.nil_append, Nat.zero_add] at hdata
  refine ⟨?_, ?_, ?_⟩
  · rw [texts, List.eq_replicate_iff]
    refine ⟨by rw [List.length_map, SrtParser.added, List.length_append]; rfl, ?_⟩
    intro t ht
    obtain ⟨e, he, rfl⟩ := List.mem_map.mp ht
    rw [hall e he]
    exact hread
  · intro htext
    refine ⟨?_, hpos, hall⟩
    rw [SrtParser.added]
    dsimp only
    rw [hdata, htext]
    rfl
  · intro htext
    refine ⟨⟨?_, ?_, ?_⟩, hend⟩
    · obtain ⟨c, cs, rfl⟩ := List.exists_cons_of_ne_nil htext
      rw [SrtParser.added]
      dsimp only
      rw [hdata, List.cons_append, List.head?_cons, ne_eq, Option.some.injEq]
      rintro rfl
      exact h0 (List.mem_cons_self ..)
    · rw [hend, SrtParser.added]
      dsimp only
      rw [length_wcscpyAt hcopy]
      omega
    · intro e he
      rw [hend, hall e he]
      exact (by rw [SrtParser.added]; dsimp only; rw [hread]; omega)

/-- What entries read that stored these texts: the empty texts at the front are
overwritten by the first one that is not empty. -/
def overlaid (stored : List (List UInt16)) : List (List UInt16) :=
  let full := stored.dropWhile List.isEmpty
  (stored.takeWhile List.isEmpty).map (fun _ => full.headD []) ++ full

theorem Blank.addAll : ∀ (calls : List Call) {s s' : SrtParser} {stored : List (List UInt16)},
    s.Blank → s.addAll calls = some (s', stored) →
      s'.texts = List.replicate s.mIndex.length ((stored.dropWhile List.isEmpty).headD []) ++
        overlaid stored := by
  intro calls
  induction calls with
  | nil =>
    intro s s' stored hs h
    rw [SrtParser.addAll, Option.some.injEq, Prod.mk.injEq] at h
    obtain ⟨rfl, rfl⟩ := h
    have hempty : cstrAt s.mTextData 0 = [] := cstr_of_head? hs.head
    rw [overlaid, List.takeWhile_nil, List.dropWhile_nil, List.map_nil, List.append_nil,
      List.append_nil, texts, List.eq_replicate_iff]
    refine ⟨List.length_map .., fun t ht => ?_⟩
    obtain ⟨e, he, rfl⟩ := List.mem_map.mp ht
    rw [hs.pos e he]
    exact hempty
  | cons c cs ih =>
    intro s s' stored hs h
    obtain ⟨s₁, rtn, stored', hadd, hall, rfl⟩ := addAll_cons h
    rcases directAddSubtitle_cases hadd with ⟨-, rfl, rfl⟩ | ⟨-, rfl, textData, hcopy, rfl⟩
    · exact ih hs hall
    · obtain ⟨htexts, hblank, hfilled⟩ := hs.added (not_mem_storedText s c.line) hcopy
        ⟨c.start, c.stop, s.nextPos, _, _⟩ rfl
      rw [if_pos rfl]
      rcases eq_or_ne (s.storedText c.line) [] with htext | htext
      · -- still blank
        rw [ih (hblank htext) hall, htext, overlaid, overlaid]
        simp [SrtParser.added, List.replicate_succ', List.append_assoc]
      · rw [Filled.addAll cs (hfilled htext).1 hall, htexts, overlaid]
        have hne : ¬ (s.storedText c.line).isEmpty = true := by rwa [List.isEmpty_iff]
        rw [List.takeWhile_cons_of_neg hne, List.dropWhile_cons_of_neg hne, List.map_nil,
          List.nil_append, List.headD_cons, List.replicate_succ', List.append_assoc,
          List.singleton_append]

theorem overlaid_eq_iff : ∀ stored : List (List UInt16),
    overlaid stored = stored ↔ stored.head? ≠ some [] ∨ ∀ t ∈ stored, t = [] := by
  intro stored
  have hsplit := List.takeWhile_append_dropWhile (p := List.isEmpty) (l := stored)
  have hlead : ∀ t ∈ stored.takeWhile List.isEmpty, t = [] := by
    intro t ht
    exact List.isEmpty_iff.mp (List.mem_takeWhile_imp ht)
  constructor
  · intro h
    cases stored with
    | nil => exact Or.inr (fun t ht => absurd ht List.not_mem_nil)
    | cons t ts =>
      rcases eq_or_ne t [] with rfl | ht
      · -- the first entry reads the first text that is not empty: there is none
        refine Or.inr ?_
        rw [overlaid] at h
        rw [List.takeWhile_cons_of_pos rfl, List.map_cons, List.cons_append, List.cons.injEq] at h
        cases hfull : ([] :: ts).dropWhile List.isEmpty with
        | nil =>
          rw [hfull, List.append_nil] at hsplit
          rw [← hsplit]
          exact hlead
        | cons u us =>
          have hu : u.isEmpty = false := by
            have hhead := List.head_dropWhile_not List.isEmpty (l := [] :: ts)
              (by rw [hfull]; simp)
            simpa only [hfull, List.head_cons] using hhead
          rw [hfull, List.headD_cons] at h
          rw [h.1] at hu
          exact absurd hu (by decide)
      · exact Or.inl (by rw [List.head?_cons, ne_eq, Option.some.injEq]; exact ht)
  · rintro (h | h)
    · have hnil : stored.takeWhile List.isEmpty = [] := by
        cases stored with
        | nil => rfl
        | cons t ts =>
          rw [List.head?_cons, ne_eq, Option.some.injEq] at h
          exact List.takeWhile_cons_of_neg (by rwa [List.isEmpty_iff])
      rw [hnil, List.nil_append] at hsplit
      rw [overlaid, hnil, hsplit, List.map_nil, List.nil_append]
    · have hnil : stored.dropWhile List.isEmpty = [] := by
        rw [List.dropWhile_eq_nil_iff]
        intro t ht
        rw [h t ht]
        rfl
      rw [hnil, List.append_nil] at hsplit
      rw [overlaid, hnil, hsplit, List.append_nil]
      calc stored.map (fun _ => ([] : List (List UInt16)).headD [])
          = stored.map id := List.map_congr_left (fun t ht => (h t ht).symm)
        _ = stored := List.map_id _

end SrtParser

/-! ## All calls -/

/-- **What the entries read** after any calls that fit: what the calls stored,
except for empty texts at the front. -/
theorem texts_addAll {num : Nat} {heap fontsLoading : List UInt16} (hheap : heap ≠ [])
    {calls : List Call} {s : SrtParser} {stored : List (List UInt16)}
    (h : (SrtParser.init num heap fontsLoading).addAll calls = some (s, stored)) :
    s.texts = SrtParser.overlaid stored := by
  have := (SrtParser.blank_init num hheap fontsLoading).addAll calls h
  simpa [SrtParser.init] using this

/-- **Texts stay as they were stored exactly when the first one is not empty, or
all of them are.** -/
theorem texts_eq_stored_iff (num : Nat) (heap fontsLoading : List UInt16) (hheap : heap ≠ [])
    (calls : List Call) (s : SrtParser) (stored : List (List UInt16))
    (h : (SrtParser.init num heap fontsLoading).addAll calls = some (s, stored)) :
    s.texts = stored ↔ stored.head? ≠ some [] ∨ ∀ t ∈ stored, t = [] := by
  rw [texts_addAll hheap h]
  exact SrtParser.overlaid_eq_iff stored

theorem texts_eq_stored_iff_two : ∃ s,
    (SrtParser.init 2 (List.replicate 8 65) []).addAll
      [⟨wide ['a', 'b'], 0, 100⟩, ⟨wide ['<', 'i', '>', 'c'], 200, 300⟩] =
        some (s, [wide ['a', 'b'], wide ['c']]) ∧
    s.texts = [wide ['a', 'b'], wide ['c']] := by
  obtain ⟨s, hs⟩ : ∃ s, (SrtParser.init 2 (List.replicate 8 65) []).addAll
      [⟨wide ['a', 'b'], 0, 100⟩, ⟨wide ['<', 'i', '>', 'c'], 200, 300⟩] =
        some (s, [wide ['a', 'b'], wide ['c']]) := ⟨_, rfl⟩
  exact ⟨s, hs, (texts_eq_stored_iff 2 _ [] (by decide) _ s _ hs).mpr (by decide)⟩

/-- A text that is empty without its tags, and then one that is not: both entries
read the second. -/
theorem texts_ne_stored : ∃ s,
    (SrtParser.init 2 (List.replicate 8 65) []).addAll
      [⟨wide ['<', 'b', '>'], 0, 100⟩, ⟨wide ['c'], 200, 300⟩] = some (s, [[], wide ['c']]) ∧
    s.texts = [wide ['c'], wide ['c']] ∧ s.texts ≠ [[], wide ['c']] :=
  ⟨_, rfl, by decide, by decide⟩

end DWindow.Srt
