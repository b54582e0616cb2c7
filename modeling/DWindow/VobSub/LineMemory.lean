import DWindow.Net.Explode
import DWindow.Subtitle.Tables

/-!
# The strings of an index line

`handle_line` works on the strings that `wcsexplode` makes of a line and on what `wcsstr` finds in
them.  `out` is not set to anything before, so a line without a text behind a colon leaves `out[1]`
as the stack had it; a line of one character gets two bytes for two units; and the length of a key
is added to what `wcsstr` returns whether it has found the key or not.

`accesses` are the places that a call touches, and `safeCalls_iff` says for which lines all of
them are inside.
-/

namespace DWindow.VobSub

open WString Scanf CInt Net VobSubParser

inductive Block
  | line
  | id
  | entry
  | str
  | subtitles
deriving DecidableEq

/-- A place in a block, one that was reckoned from NULL, and what the stack held. -/
inductive Pointer
  | inside (block : Block) (offset : Nat)
  | null (offset : Nat)
  | unset
deriving DecidableEq

/-- A call touches so many elements from a pointer on, or frees it. -/
inductive Access
  | touch (pointer : Pointer) (count : Nat)
  | free (pointer : Pointer)
deriving DecidableEq

/-- An access stays in a block that has `room` elements, and what is freed was allocated. -/
def Access.Inside (room : Block → Nat) : Access → Prop
  | .touch (.inside block offset) count => offset + count ≤ room block
  | .free (.inside .entry 0) => 0 < room .entry
  | .free (.inside .str 0) => 0 < room .str
  | _ => False

def fields (line : List UInt16) : List (List UInt16) := wcsexplode line [58] 2

/-- The elements of the blocks, in a call with a line.  `malloc(2)` is one unit. -/
def room (line : List UInt16) : Block → Nat
  | .line => line.length + 1
  | .id => 1024
  | .entry => if line.length ≤ 1 then 1 else line.length + 1
  | .str => ((fields line)[1]?.map (·.length + 1)).getD 0
  | .subtitles => 40960

def whole (block : Block) (str : List UInt16) : Access :=
  .touch (.inside block 0) (str.length + 1)

/-- The string at `wcsstr(str, sub) + wcslen(sub)`. -/
def suffix (block : Block) (sub : String) (str : List UInt16) : Access :=
  match findSub (wide sub.toList) str with
  | some i => .touch (.inside block (i + sub.length)) ((str.drop (i + sub.length)).length + 1)
  | none => .touch (.null sub.length) 1

/-- The cases of `handle_line`. -/
inductive Keyword
  | size
  | scale
  | offset
  | palette
  | customColors
  | id
  | timestamp
  | other
deriving DecidableEq

def keyword (key : List UInt16) : Keyword :=
  if has "size" key then .size
  else if has "scale" key then .scale
  else if has "time offset" key ∨ has "delay" key then .offset
  else if has "palette" key then .palette
  else if has "custom colors" key then .customColors
  else if has "id" key then .id
  else if has "timestamp" key then .timestamp
  else .other

/-- The key and the text, as the cases see them. -/
def lowered (str : List UInt16) : List UInt16 := wcslower (wcstrim 32 str)

namespace VobSubParser

/-- The write of a subtitle, when its packet is read. -/
def storeAccesses (w : World) (p : VobSubParser) (part : List UInt16) : List Access :=
  if p.mSubFile then
    match p.packetOf w part with
    | some (true, _) => [.touch (.inside .subtitles p.mSubtitles.length) 1]
    | _ => []
  else []

def caseAccesses (w : World) (p : VobSubParser) (entry part : List UInt16) : List Access :=
  let str := lowered part
  match keyword (lowered entry) with
  | .size | .scale | .palette => [whole .str str]
  | .customColors => [whole .str str, suffix .str "tridx:" str, suffix .str "colors:" str]
  | .timestamp =>
    -- `str[12] = NULL`, and `time_to_decimal`
    [whole .str str, suffix .str "filepos:" str, .touch (.inside .str 12) 1,
      .touch (.inside .str 0) (min str.length 12 + 1)] ++ p.storeAccesses w part
  | .offset | .id | .other => []

/-- `wcsexplode` and the rest of the branch.  From the first use of an `out[1]` that was not set on,
anything may follow. -/
def entryAccesses (w : World) (p : VobSubParser) (line : List UInt16) : List Access :=
  [whole .line line, whole .entry line] ++
    match fields line with
    | [entry, part] =>
      [whole .str part, whole .entry entry, whole .str part, whole .entry (lowered entry),
        whole .str (lowered part)] ++ p.caseAccesses w entry part ++
        [.free (.inside .entry 0), .free (.inside .str 0)]
    | _ => [.touch .unset 1]

def scanAccesses (line : List UInt16) : List Access :=
  whole .line line ::
    if has "id:" line ∧ has "index:" line then
      [suffix .line "index:" line, whole .id ((behind "index:" line).getD [])]
    else []

/-- The places that `handle_line` touches. -/
def accesses (w : World) (p : VobSubParser) (line : List UInt16) : List Access :=
  if p.mScanForLangId then scanAccesses line
  else if p.mFirstLine then [whole .line line]
  else if line.head? = some 35 ∨ line = [] then [.touch (.inside .line 0) 1]
  else p.entryAccesses w line

end VobSubParser

/-- `read_packet_from_subfile` returns. -/
def World.Reads (w : World) : Prop := ∀ langId pos sub, (w.readPacket langId pos sub).isSome

/-- **A call is safe**: it touches and frees only what is allocated, and returns, whatever is wrong
with the line. -/
structure SafeCall (w : World) (p : VobSubParser) (line : List UInt16) : Prop where
  inside : ∀ a ∈ p.accesses w line, a.Inside (room line)
  returns : w.Reads → ∃ q, p.handleLine w line = some q

/-- **When a call is safe**: there is a text behind the first colon, with the keys that the case
looks for, a timestamp is long enough, and the table has room. -/
def Sound (w : World) (p : VobSubParser) (line : List UInt16) : Prop :=
  p.mScanForLangId = true ∨ p.mFirstLine = true ∨ line.head? = some 35 ∨ line = [] ∨
    ∃ entry part, line = entry ++ 58 :: part ∧ 58 ∉ entry ∧ part ≠ [] ∧
      (keyword (lowered entry) = .customColors →
        has "tridx:" (lowered part) ∧ has "colors:" (lowered part)) ∧
      (keyword (lowered entry) = .timestamp →
        has "filepos:" (lowered part) ∧ 12 ≤ part.length ∧
          (p.mSubFile = true → (∃ r ∈ p.packetOf w part, r.1 = true) →
            p.mSubtitles.length < 40960))

variable {w : World} {p q : VobSubParser}

theorem length_lowered_le (str : List UInt16) : (lowered str).length ≤ str.length := by
  rw [lowered, wcslower, List.length_map]
  exact length_wcstrim_le 32 str

theorem inside_whole {line : List UInt16} {block : Block} {str : List UInt16} :
    (whole block str).Inside (room line) ↔ str.length + 1 ≤ room line block := by
  rw [whole, Access.Inside, Nat.zero_add]

/-- The string behind a key is inside exactly when the key is there. -/
theorem inside_suffix {line : List UInt16} {block : Block} {sub : String} {str : List UInt16}
    (h : str.length + 1 ≤ room line block) :
    (suffix block sub str).Inside (room line) ↔ has sub str := by
  rw [suffix, has]
  cases hfind : findSub (wide sub.toList) str with
  | none => simp [Access.Inside]
  | some i =>
    have hlen := findSub_add_length_le hfind
    rw [wide, List.length_map, String.length_toList] at hlen
    simp only [Access.Inside, List.length_drop, Option.isSome_some, iff_true]
    omega

theorem findSub_of_has {sub : String} {str : List UInt16} (h : has sub str) :
    ∃ i, findSub (wide sub.toList) str = some i := Option.isSome_iff_exists.mp h

/-- The fields of a line with a text behind the first colon. -/
theorem fields_of_colon {entry part : List UInt16} (hentry : 58 ∉ entry) (hpart : part ≠ []) :
    fields (entry ++ 58 :: part) = [entry, part] ∧
      explode (entry ++ 58 :: part) = some (entry, part) := by
  have hlength : ¬(([58] : List UInt16).length = 0 ∨
      (entry ++ 58 :: part).length ≤ ([58] : List UInt16).length) := by
    have hpos := List.length_pos_iff.mpr hpart
    simp only [List.length_append, List.length_cons, List.length_nil]
    omega
  have hcut : Cut.cut [58] (entry ++ 58 :: part) = some (entry, part) :=
    Cut.cut_singleton_eq_some.mpr ⟨hentry, rfl⟩
  constructor
  · rw [fields, wcsexplode, if_neg hlength, explodeFrom, hcut]
    dsimp only
    rw [if_neg hpart, explodeFrom]
  · have hne : ∀ c ∈ entry, decide (c ≠ 58) = true := fun c hc =>
      decide_eq_true fun h => hentry (h ▸ hc)
    rw [explode, List.dropWhile_append_of_pos hne, List.takeWhile_append_of_pos hne]
    cases part with
    | nil => exact absurd rfl hpart
    | cons c part =>
      rw [List.dropWhile_cons_of_neg (by decide), List.takeWhile_cons_of_neg (by decide),
        List.append_nil]

/-- A line with a text behind a colon, or one with a single field. -/
theorem colon_cases (line : List UInt16) :
    (∃ entry part, line = entry ++ 58 :: part ∧ 58 ∉ entry ∧ part ≠ []) ∨
      (∃ field, fields line = [field]) ∧
        ¬∃ entry part, line = entry ++ 58 :: part ∧ 58 ∉ entry ∧ part ≠ [] := by
  by_cases h : ∃ entry part, line = entry ++ 58 :: part ∧ 58 ∉ entry ∧ part ≠ []
  · exact .inl h
  refine .inr ⟨?_, h⟩
  rw [fields, wcsexplode]
  split
  · exact ⟨line, rfl⟩
  rw [explodeFrom]
  cases hcut : Cut.cut [58] line with
  | none => exact ⟨line, rfl⟩
  | some r =>
    obtain ⟨field, rest⟩ := r
    obtain ⟨hfield, rfl⟩ := Cut.cut_singleton_eq_some.mp hcut
    dsimp only
    split
    · exact ⟨field, rfl⟩
    · next hrest => exact absurd ⟨field, rest, rfl, hfield, hrest⟩ h

theorem handleEntry_eq (entry part : List UInt16) : p.handleEntry w entry part =
    match keyword (lowered entry) with
    | .size => some (p.handleSize (lowered part))
    | .scale => some (p.handleScale (lowered part))
    | .palette => some (p.handlePalette (lowered part))
    | .customColors => p.handleCustomColors w (lowered part)
    | .timestamp => p.handleTimestamp w part.length (lowered part)
    | .offset | .id | .other => some p := by
  rw [handleEntry, keyword]
  dsimp only [lowered]
  split_ifs <;> simp only [*, ↓reduceIte, Bool.false_eq_true]

/-! ## One call -/

theorem inside_storeAccesses (line part : List UInt16) :
    (∀ a ∈ p.storeAccesses w part, a.Inside (room line)) ↔
      (p.mSubFile = true → (∃ r ∈ p.packetOf w part, r.1 = true) →
        p.mSubtitles.length < 40960) := by
  rw [storeAccesses]
  cases p.mSubFile with
  | false => simp
  | true =>
    rcases p.packetOf w part with - | ⟨read, sub⟩
    · simp
    · cases read with
      | false => simp
      | true => simp [Access.Inside, room]

/-- **What the cases touch** is inside exactly for the lines with the keys. -/
theorem inside_caseAccesses {line entry part : List UInt16}
    (hroom : room line .str = part.length + 1) :
    (∀ a ∈ p.caseAccesses w entry part, a.Inside (room line)) ↔
      (keyword (lowered entry) = .customColors →
        has "tridx:" (lowered part) ∧ has "colors:" (lowered part)) ∧
      (keyword (lowered entry) = .timestamp →
        has "filepos:" (lowered part) ∧ 12 ≤ part.length ∧
          (p.mSubFile = true → (∃ r ∈ p.packetOf w part, r.1 = true) →
            p.mSubtitles.length < 40960)) := by
  have hle : (lowered part).length + 1 ≤ room line .str := by
    rw [hroom]
    exact Nat.succ_le_succ (length_lowered_le part)
  have hwhole : (whole .str (lowered part)).Inside (room line) := inside_whole.mpr hle
  rw [caseAccesses]
  cases keyword (lowered entry) with
  | size | scale | palette => simpa using hwhole
  | offset | id | other => simp
  | customColors => simp [hwhole, inside_suffix hle]
  | timestamp =>
    have hend : (Access.touch (.inside .str 12) 1).Inside (room line) ↔ 12 ≤ part.length := by
      rw [Access.Inside, hroom, Nat.add_le_add_iff_right]
    have htime : (Access.touch (.inside .str 0) (min (lowered part).length 12 + 1)).Inside
        (room line) := by
      rw [Access.Inside, Nat.zero_add]
      exact (Nat.succ_le_succ (Nat.min_le_left ..)).trans hle
    simp only [List.forall_mem_append, List.forall_mem_cons, inside_storeAccesses, hwhole, hend,
      htime, inside_suffix hle, List.not_mem_nil, false_imp_iff, implies_true, true_and, and_true,
      reduceCtorEq, forall_const, and_assoc]

theorem inside_entryAccesses {entry part : List UInt16} (hentry : 58 ∉ entry) (hpart : part ≠ []) :
    (∀ a ∈ p.entryAccesses w (entry ++ 58 :: part), a.Inside (room (entry ++ 58 :: part))) ↔
      ∀ a ∈ p.caseAccesses w entry part, a.Inside (room (entry ++ 58 :: part)) := by
  have hfields := (fields_of_colon hentry hpart).1
  have hlen : (entry ++ 58 :: part).length = entry.length + part.length + 1 := by
    rw [List.length_append, List.length_cons, Nat.add_assoc]
  have hpos := List.length_pos_iff.mpr hpart
  have hstr : room (entry ++ 58 :: part) .str = part.length + 1 := by
    rw [room, hfields]
    rfl
  have hroom : room (entry ++ 58 :: part) .entry = entry.length + part.length + 2 := by
    rw [room, hlen, if_neg (by omega)]
  have hline : room (entry ++ 58 :: part) .line = entry.length + part.length + 2 := by
    rw [room, hlen]
  have hfree : (Access.free (.inside .entry 0)).Inside (room (entry ++ 58 :: part)) ∧
      (Access.free (.inside .str 0)).Inside (room (entry ++ 58 :: part)) := by
    rw [Access.Inside, Access.Inside, hroom, hstr]
    exact ⟨Nat.succ_pos _, Nat.succ_pos _⟩
  have hle₁ := length_lowered_le entry
  have hle₂ := length_lowered_le part
  rw [entryAccesses, hfields]
  simp only [List.forall_mem_append, List.forall_mem_cons, inside_whole, hstr, hroom, hline, hlen,
    hfree, List.not_mem_nil, false_imp_iff, implies_true, and_true]
  constructor
  · exact fun h => h.2.2
  · exact fun h => ⟨by omega, by omega, h⟩

/-- The branch that looks for languages only touches the line and a copy that fits. -/
theorem inside_scanAccesses {line : List UInt16} (hline : line.length ≤ 1023) :
    ∀ a ∈ scanAccesses line, a.Inside (room line) := by
  have hle : line.length + 1 ≤ room line .line := le_rfl
  rw [scanAccesses, List.forall_mem_cons]
  refine ⟨inside_whole.mpr hle, ?_⟩
  split
  · next h =>
    rw [List.forall_mem_cons, List.forall_mem_singleton]
    refine ⟨(inside_suffix hle).mpr h.2, inside_whole.mpr ?_⟩
    obtain ⟨i, hi⟩ := findSub_of_has h.2
    rw [behind, hi, Option.map_some, Option.getD_some, List.length_drop, room]
    omega
  · exact fun a ha => absurd ha List.not_mem_nil

theorem inside_accesses_iff {line : List UInt16} (hline : line.length ≤ 1023) :
    (∀ a ∈ p.accesses w line, a.Inside (room line)) ↔ Sound w p line := by
  rw [accesses, Sound]
  by_cases hscan : p.mScanForLangId = true
  · rw [if_pos hscan]
    exact iff_of_true (inside_scanAccesses hline) (.inl hscan)
  rw [if_neg hscan, or_iff_right hscan]
  by_cases hfirst : p.mFirstLine = true
  · rw [if_pos hfirst, List.forall_mem_singleton]
    exact iff_of_true (inside_whole.mpr le_rfl) (.inl hfirst)
  rw [if_neg hfirst, or_iff_right hfirst, ← or_assoc]
  by_cases hskip : line.head? = some 35 ∨ line = []
  · rw [if_pos hskip, List.forall_mem_singleton]
    refine iff_of_true ?_ (.inl hskip)
    rw [Access.Inside, room]
    exact Nat.le_add_left ..
  rw [if_neg hskip, or_iff_right hskip]
  rcases colon_cases line with ⟨entry, part, rfl, hentry, hpart⟩ | ⟨⟨field, hfield⟩, hno⟩
  · have hroom : room (entry ++ 58 :: part) .str = part.length + 1 := by
      rw [room, (fields_of_colon hentry hpart).1]
      rfl
    rw [inside_entryAccesses hentry hpart, inside_caseAccesses hroom]
    constructor
    · exact fun h => ⟨entry, part, rfl, hentry, hpart, h⟩
    · rintro ⟨entry', part', heq, hentry', hpart', h⟩
      have hsame := (fields_of_colon hentry hpart).1.symm.trans
        (heq ▸ (fields_of_colon hentry' hpart').1)
      obtain ⟨rfl, hparts⟩ := List.cons.inj hsame
      obtain rfl := (List.cons.inj hparts).1
      exact h
  · rw [entryAccesses, hfield]
    refine iff_of_false (fun h => ?_) fun ⟨entry, part, h⟩ => hno ⟨entry, part, h.1, h.2.1, h.2.2.1⟩
    exact h (.touch .unset 1) (List.mem_append_right _ List.mem_cons_self)

/-! ## Returning -/

theorem behind_of_has {sub : String} {str : List UInt16} (h : has sub str) :
    ∃ rest, behind sub str = some rest := by
  obtain ⟨i, hi⟩ := findSub_of_has h
  exact ⟨_, congrArg (Option.map _) hi⟩

theorem handleCustomColors_returns {str : List UInt16} (htridx : has "tridx:" str)
    (hcolors : has "colors:" str) : ∃ q, p.handleCustomColors w str = some q := by
  obtain ⟨sTridx, hsTridx⟩ := behind_of_has htridx
  obtain ⟨sColor, hsColor⟩ := behind_of_has hcolors
  rw [handleCustomColors, hsTridx, hsColor]
  exact ⟨_, rfl⟩

theorem handleTimestamp_returns (hw : w.Reads) {part : List UInt16}
    (hfilepos : has "filepos:" (lowered part)) (hpart : 12 ≤ part.length)
    (hstore : p.mSubFile = true → (∃ r ∈ p.packetOf w part, r.1 = true) →
      p.mSubtitles.length < 40960) :
    ∃ q, p.handleTimestamp w part.length (lowered part) = some q := by
  obtain ⟨i, hi⟩ := findSub_of_has hfilepos
  have hpacket := VobSubParser.packetOf.eq_1 w p part
  rw [← lowered, hi] at hpacket
  rw [handleTimestamp, hi]
  dsimp only [Option.bind_some, bad] at hpacket ⊢
  rw [if_neg (not_lt.mpr hpart)] at hpacket ⊢
  split
  · next hsub =>
    obtain ⟨⟨read, sub⟩, hr⟩ : ∃ r, p.packetOf w part = some r := by
      rw [hpacket]
      exact Option.isSome_iff_exists.mp (hw ..)
    rw [← hpacket, hr, Option.bind_some]
    cases read with
    | false => exact ⟨_, rfl⟩
    | true =>
      have hlt := hstore hsub ⟨_, hr, rfl⟩
      exact ⟨_, (if_pos rfl).trans (if_pos hlt)⟩
  · exact ⟨_, rfl⟩

theorem handleLine_returns (hw : w.Reads) {line : List UInt16} (h : Sound w p line) :
    ∃ q, p.handleLine w line = some q := by
  rw [handleLine]
  split
  · exact ⟨_, rfl⟩
  next hscan =>
  split
  · exact ⟨_, rfl⟩
  next hfirst =>
  split
  · exact ⟨_, rfl⟩
  next hskip =>
  rw [Sound, or_iff_right hscan, or_iff_right hfirst, ← or_assoc, or_iff_right hskip] at h
  obtain ⟨entry, part, rfl, hentry, hpart, hcolors, htimestamp⟩ := h
  rw [(fields_of_colon hentry hpart).2, Option.bind_some, handleEntry_eq]
  cases hkey : keyword (lowered entry) with
  | customColors => exact handleCustomColors_returns (hcolors hkey).1 (hcolors hkey).2
  | timestamp =>
    obtain ⟨hfilepos, hlength, hstore⟩ := htimestamp hkey
    exact handleTimestamp_returns hw hfilepos hlength hstore
  | size | scale | palette | offset | id | other => exact ⟨_, rfl⟩

/-- **The lines of an index file**: in any sequence of lines, the calls are safe exactly for those
of `Sound`. -/
theorem safeCalls_iff (w : World) (p : VobSubParser) {lines : List (List UInt16)}
    (hlines : ∀ line ∈ lines, line.length ≤ 1023) :
    (∀ done line rest, lines = done ++ line :: rest → ∀ q,
        done.foldlM (fun p line => p.handleLine w line) p = some q → SafeCall w q line) ↔
      ∀ done line rest, lines = done ++ line :: rest → ∀ q,
        done.foldlM (fun p line => p.handleLine w line) p = some q → Sound w q line := by
  have hcall : ∀ line ∈ lines, ∀ q, SafeCall w q line ↔ Sound w q line := by
    refine fun line hmem q => ⟨fun h => (inside_accesses_iff (hlines line hmem)).mp h.inside, ?_⟩
    exact fun h => ⟨(inside_accesses_iff (hlines line hmem)).mpr h, fun hw =>
      handleLine_returns hw h⟩
  have hmem : ∀ {done line rest}, lines = done ++ line :: rest → line ∈ lines := fun h =>
    h ▸ List.mem_append_right _ List.mem_cons_self
  constructor
  · exact fun h done line rest heq q hq => (hcall line (hmem heq) q).mp (h done line rest heq q hq)
  · exact fun h done line rest heq q hq => (hcall line (hmem heq) q).mpr (h done line rest heq q hq)

/-- The size of the picture. -/
theorem safeCalls_iff_size : SafeCall latinWorld idle (wide "size: 720x576".toList) := by
  refine (safeCalls_iff latinWorld idle (List.forall_mem_singleton.mpr (by decide))).mpr ?_
    [] _ [] rfl idle rfl
  rintro (- | ⟨x, done⟩) line rest heq q -
  · obtain ⟨rfl, -⟩ := List.cons.inj heq
    refine .inr (.inr (.inr (.inr ⟨wide "size".toList, wide " 720x576".toList, rfl, ?_, ?_, ?_⟩)))
    · decide
    · decide
    · have hkey : keyword (lowered (wide "size".toList)) = .size := by decide
      rw [hkey]
      exact ⟨nofun, nofun⟩
  · exact absurd (List.cons.inj heq).2 (by simp)

/-- A line without a colon: `wcstrim` gets an `out[1]` that nothing was written to. -/
theorem out_not_set : ¬∀ done line rest, [wide "size".toList] = done ++ line :: rest → ∀ q,
    done.foldlM (fun p line => p.handleLine latinWorld line) idle = some q →
      SafeCall latinWorld q line := by
  intro h
  have hcall := h [] _ [] rfl idle rfl
  have hunset : Access.touch .unset 1 ∈ idle.accesses latinWorld (wide "size".toList) := by decide
  exact hcall.inside _ hunset

end DWindow.VobSub
