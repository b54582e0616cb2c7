import Mathlib.Data.List.Induction
import DWindow.VobSub.Encodings

/-!
# The files of a text that are alike

`handle_data_16` reads twice as many units of a big-endian file as there are, so no text whose
file is known as one is read the same way everywhere.  A text whose first character has low
byte zero is read as bytes from its files in UTF-16; then the settings depend on what the ANSI
code page makes of the first string in them, unless nothing in the files ends a line.
-/

namespace DWindow.VobSub

open CInt WString Scanf Utf

variable {w : World}

/-! ## Code pages that matter -/

def sizeText (one : Bool) : List UInt16 := wide (if one then "size: 1x1" else "size: 2x2").toList

def sizeOf (one : Bool) : Int := if one then 1 else 2

/-- A code page that makes the text of one string, and nothing of the others. -/
def sizeWorld (str : List UInt8) (hstr : str ≠ []) (one : Bool) : World where
  multiByteToWideChar codePage bytes := if codePage = .acp ∧ bytes = str then sizeText one else []
  convert_nil := fun _ => if_neg fun h => hstr h.2.symm
  readPacket := fun _ _ sub => some (false, sub)
  stack := fun _ => 0

structure Takes (p : VobSubParser) : Prop where
  scan : p.mScanForLangId = false
  first : p.mFirstLine = false

theorem handleLine_nil {p : VobSubParser} (hp : Takes p) : p.handleLine w [] = some p := by
  rw [VobSubParser.handleLine, hp.scan, if_neg Bool.false_ne_true, hp.first,
    if_neg Bool.false_ne_true, if_pos (Or.inr rfl)]

theorem handleLine_sizeText {p : VobSubParser} (hp : Takes p) (one : Bool) :
    ∃ q, p.handleLine w (sizeText one) = some q ∧ Takes q ∧ q.mTotalWidth = sizeOf one := by
  have hcomment : ¬((sizeText one).head? = some 35 ∨ sizeText one = []) := by
    cases one <;> decide
  have hexplode : explode (sizeText one) =
      some (wide "size".toList, wide (if one then " 1x1" else " 2x2").toList) := by
    cases one <;> decide
  have hhas : has "size" (wcslower (wcstrim 32 (wide "size".toList))) = true := by decide
  have hscanf : scanf [.int, .literal 120, .int]
      (wcslower (wcstrim 32 (wide (if one then " 1x1" else " 2x2").toList))) =
        [sizeOf one, sizeOf one] := by
    cases one <;> decide
  have hint : toInt32 (sizeOf one) = sizeOf one := by
    cases one <;> decide
  rw [VobSubParser.handleLine, hp.scan, if_neg Bool.false_ne_true, hp.first,
    if_neg Bool.false_ne_true, if_neg hcomment, hexplode, Option.bind_some,
    VobSubParser.handleEntry, hhas, if_pos rfl, VobSubParser.handleSize, hscanf]
  exact ⟨_, rfl, ⟨hp.scan, hp.first⟩, hint⟩

theorem lineOf_sizeWorld {str : List UInt8} (hstr : str ≠ []) (one : Bool) (bytes : List UInt8) :
    lineOf (sizeWorld str hstr one) .acp bytes =
      if bytes.takeWhile (· ≠ 0) = str then sizeText one else [] := by
  have htrim : wcstrim 32 (cstr (sizeText one)) = sizeText one := by
    cases one <;> decide
  show wcstrim 32 (cstr (if CodePage.acp = .acp ∧ _ = str then sizeText one else [])) = _
  by_cases h : bytes.takeWhile (· ≠ 0) = str
  · rw [if_pos ⟨rfl, h⟩, if_pos h, htrim]
  · rw [if_neg fun h' => h h'.2, if_neg h]
    rfl

theorem lineOf_utf8_sizeWorld {str : List UInt8} (hstr : str ≠ []) (one : Bool)
    (bytes : List UInt8) : lineOf (sizeWorld str hstr one) .utf8 bytes = [] := by
  have hnone :
      (sizeWorld str hstr one).multiByteToWideChar .utf8 (bytes.takeWhile (· ≠ 0)) = [] := by
    simp [sizeWorld]
  rw [lineOf, hnone]
  rfl

/-- **Once set, the size stays.** -/
theorem handleData8_sizeWorld {str : List UInt8} (hstr : str ≠ []) (one : Bool)
    {p q : VobSubParser} {data : List UInt8} (hp : Takes p) (hwidth : p.mTotalWidth = sizeOf one)
    (h : p.handleData8 (sizeWorld str hstr one) .acp data = some q) :
    q.mTotalWidth = sizeOf one := by
  rw [VobSubParser.handleData8, Option.map_eq_some_iff] at h
  obtain ⟨s, hs, rfl⟩ := h
  have hstep : ∀ s b s', Takes s.2 ∧ s.2.mTotalWidth = sizeOf one →
      VobSubParser.feed8 (sizeWorld str hstr one) .acp s b = some s' →
        Takes s'.2 ∧ s'.2.mTotalWidth = sizeOf one := by
    rintro ⟨line, p⟩ b s' ⟨hp, hwidth⟩ hstep
    rw [VobSubParser.feed8] at hstep
    split at hstep
    · cases hstep
      exact ⟨hp, hwidth⟩
    · split at hstep
      · split at hstep
        · obtain ⟨q, hq, rfl⟩ := Option.map_eq_some_iff.mp hstep
          have hline := lineOf_sizeWorld hstr one line
          rw [lineOf] at hline
          dsimp only at hq
          rw [hline] at hq
          split at hq
          · obtain ⟨q', hq', htakes, hq'width⟩ := handleLine_sizeText hp one
            obtain rfl : q' = q := Option.some.inj (hq'.symm.trans hq)
            exact ⟨htakes, hq'width⟩
          · obtain rfl : p = q := Option.some.inj ((handleLine_nil hp).symm.trans hq)
            exact ⟨hp, hwidth⟩
        · cases hstep
      · cases hstep
        exact ⟨hp, hwidth⟩
  exact (Fallible.foldlM_invariant (fun s => Takes s.2 ∧ s.2.mTotalWidth = sizeOf one) hstep data
    ([], p) s ⟨hp, hwidth⟩ hs).2

theorem handleData8_utf8_sizeWorld {str : List UInt8} (hstr : str ≠ []) (p : VobSubParser)
    (data : List UInt8) : p.handleData8 (sizeWorld str hstr true) .utf8 data =
      p.handleData8 (sizeWorld str hstr false) .utf8 data := by
  have hnil : ∀ (w w' : World) (p : VobSubParser), p.handleLine w [] = p.handleLine w' [] := by
    intro w w' p
    rw [VobSubParser.handleLine, VobSubParser.handleLine]
    simp
  have hfeed : VobSubParser.feed8 (sizeWorld str hstr true) .utf8 =
      VobSubParser.feed8 (sizeWorld str hstr false) .utf8 := by
    funext s b
    have htrue := lineOf_utf8_sizeWorld hstr true s.1
    have hfalse := lineOf_utf8_sizeWorld hstr false s.1
    rw [lineOf] at htrue hfalse
    rw [VobSubParser.feed8, VobSubParser.feed8]
    dsimp only
    rw [htrue, hfalse, hnil (sizeWorld str hstr true) (sizeWorld str hstr false)]
  rw [VobSubParser.handleData8, VobSubParser.handleData8, hfeed]

/-! ## The first line end among bytes -/

theorem exists_first_newline : ∀ {cs : List UInt16},
    (∃ c ∈ cs, IsNewline (low c) ∨ IsNewline (high c)) →
      ∃ pre c post, cs = pre ++ c :: post ∧
        (∀ x ∈ pre, ¬IsNewline (low x) ∧ ¬IsNewline (high x)) ∧
        (IsNewline (low c) ∨ IsNewline (high c)) := by
  intro cs
  induction cs with
  | nil =>
    rintro ⟨c, hc, -⟩
    exact absurd hc List.not_mem_nil
  | cons c cs ih =>
    intro h
    by_cases hc : IsNewline (low c) ∨ IsNewline (high c)
    · exact ⟨[], c, cs, rfl, fun x hx => absurd hx List.not_mem_nil, hc⟩
    · obtain ⟨x, hx, hnewline⟩ := h
      rcases List.mem_cons.mp hx with rfl | hx
      · exact absurd hnewline hc
      · obtain ⟨pre, y, post, rfl, hpre, hy⟩ := ih ⟨x, hx, hnewline⟩
        refine ⟨c :: pre, y, post, rfl, fun z hz => ?_, hy⟩
        rcases List.mem_cons.mp hz with rfl | hz
        · exact not_or.mp hc
        · exact hpre z hz

section Pairs

variable (f g : UInt16 → UInt8)

/-- The bytes in front of the first line end in a file. -/
def front (b0 b1 : UInt8) (pre : List UInt16) (c : UInt16) : List UInt8 :=
  b0 :: b1 :: (pairs f g pre ++ if IsNewline (f c) then [] else [f c])

variable {f g} {b0 b1 : UInt8} {pre : List UInt16} {c : UInt16}

theorem length_front (f g : UInt16 → UInt8) (b0 b1 : UInt8) (pre : List UInt16) (c : UInt16) :
    (front f g b0 b1 pre c).length =
    2 + 2 * pre.length + if IsNewline (f c) then 0 else 1 := by
  rw [front, List.length_cons, List.length_cons, List.length_append, length_pairs]
  split
  · show 2 * pre.length + 0 + 1 + 1 = 2 + 2 * pre.length + 0
    omega
  · show 2 * pre.length + 1 + 1 + 1 = 2 + 2 * pre.length + 1
    omega

/-- **The first line end of a file** of pairs. -/
theorem handleData8_pairs (hb : ¬IsNewline b0 ∧ ¬IsNewline b1)
    (hpre : ∀ x ∈ pre, ¬IsNewline (f x) ∧ ¬IsNewline (g x)) (hc : IsNewline (f c) ∨ IsNewline (g c))
    (hlength : pre.length ≤ 1022) (post : List UInt16) : ∃ rest, ∀ (w : World) (p : VobSubParser),
      p.handleData8 w .acp (b0 :: b1 :: pairs f g (pre ++ c :: post)) =
        if (front f g b0 b1 pre c).length = 1024 then none
        else (p.handleLine w (lineOf w .acp (buffered (front f g b0 b1 pre c)))).bind fun q =>
          q.handleData8 w .acp rest := by
  have hplain : ∀ b ∈ front f g b0 b1 pre c, ¬IsNewline b := by
    intro b hmem
    rw [front, List.mem_cons, List.mem_cons, List.mem_append] at hmem
    rcases hmem with rfl | rfl | hmem | hmem
    · exact hb.1
    · exact hb.2
    · obtain ⟨x, hx, hmem⟩ := List.mem_flatMap.mp hmem
      rcases List.mem_pair.mp hmem with rfl | rfl
      · exact (hpre x hx).1
      · exact (hpre x hx).2
    · split at hmem
      · exact absurd hmem List.not_mem_nil
      · next h =>
        rw [List.mem_singleton.mp hmem]
        exact h
  have hle : (front f g b0 b1 pre c).length ≤ 2048 := by
    rw [length_front]
    split
    · omega
    · omega
  have hpairs : pairs f g (pre ++ c :: post) =
      pairs f g pre ++ (f c :: g c :: pairs f g post) := List.flatMap_append
  by_cases hf : IsNewline (f c)
  · refine ⟨g c :: pairs f g post, fun w p => ?_⟩
    rw [← handleData8_newline .acp p _ hplain hf hle, hpairs, front, if_pos hf, List.append_nil]
    rfl
  · refine ⟨pairs f g post, fun w p => ?_⟩
    rw [← handleData8_newline .acp p _ hplain (hc.resolve_left hf) hle, hpairs, front, if_neg hf,
      List.cons_append, List.cons_append, List.append_assoc]
    rfl

/-- **The first string of a file is not empty** if the bytes fit the buffer, or else the byte
that comes first behind the lost ones is not zero. -/
theorem takeWhile_buffered_ne_nil (hb0 : b0 ≠ 0)
    (hlast : 512 ≤ pre.length → ∀ x, pre[511]? = some x → g x ≠ 0)
    (h : (front f g b0 b1 pre c).length < 1024 ∨ 512 ≤ pre.length) :
    (buffered (front f g b0 b1 pre c)).takeWhile (· ≠ 0) ≠ [] := by
  have hhead : ∀ {bytes : List UInt8} {b : UInt8}, bytes.head? = some b → b ≠ 0 →
      bytes.takeWhile (· ≠ 0) ≠ [] := by
    intro bytes b hbytes hb
    cases bytes with
    | nil => cases hbytes
    | cons b' bytes =>
      obtain rfl : b' = b := Option.some.inj hbytes
      rw [List.takeWhile_cons_of_pos (by simpa using hb)]
      exact List.cons_ne_nil _ _
  rw [buffered]
  split
  · exact hhead rfl hb0
  · next hlt =>
    have hlong : 512 ≤ pre.length := h.resolve_left hlt
    have hx : pre[511]? = some pre[511] := List.getElem?_eq_getElem (by omega)
    refine hhead (b := g pre[511]) ?_ (hlast hlong _ hx)
    have hget := getElem?_pairs f g pre 511
    rw [List.head?_drop, front, List.getElem?_cons_succ, List.getElem?_cons_succ,
      List.getElem?_append_left (by rw [length_pairs]; omega), hget, hx]
    rfl

end Pairs

/-! ## All files of a text -/

/-- A parser that nothing has been loaded into. -/
def idle : VobSubParser :=
  ⟨0, 0, 0, 0, 0, false, false, false, 0, [], [], false, false, -1, [],
    ⟨-1, 0, 0, 0, 0, 0, 0, 0, []⟩⟩

theorem takes_start : Takes (idle.start 0) := ⟨rfl, rfl⟩

/-- The settings do not depend on the code page in one file, and do in another. -/
theorem not_alike_of_string {text : IndexText} {encoding : Encoding}
    (hmark : mark (text.store encoding .lf) = some .unknown) {str : List UInt8} (hstr : str ≠ [])
    (hwidth : ∀ one p q, Takes p →
      p.handleData8 (sizeWorld str hstr one) .acp (text.store encoding .lf) = some q →
        q.mTotalWidth = sizeOf one) : ¬text.Alike := by
  intro h
  have hsize : ∀ one settings, (∀ encoding lineEnd, ∃ l,
      loadFile (sizeWorld str hstr one) idle 0 (text.store encoding lineEnd) = some l ∧
        l.parser.settings = settings ∧
        l.first + l.count = (text.store encoding lineEnd).length) →
      settings.width = sizeOf one := by
    intro one settings hall
    obtain ⟨l, hl, hsettings, -⟩ := hall encoding .lf
    rw [loadFile_unknown _ _ hmark, Option.map_eq_some_iff] at hl
    obtain ⟨q, hq, rfl⟩ := hl
    rw [← hsettings]
    exact hwidth one _ q takes_start hq
  obtain ⟨settings, htrue⟩ := h (sizeWorld str hstr true) idle 0
  obtain ⟨settings', hfalse⟩ := h (sizeWorld str hstr false) idle 0
  obtain ⟨l, hl, hsettings, -⟩ := htrue .utf8 .lf
  obtain ⟨l', hl', hsettings', -⟩ := hfalse .utf8 .lf
  rw [loadFile_utf8 _ _ (mark_utf8 text .lf)] at hl hl'
  rw [handleData8_utf8_sizeWorld hstr, hl', Option.some.injEq] at hl
  have hsame : settings = settings' := by rw [← hsettings, ← hsettings', hl]
  have hone := hsize true settings htrue
  have htwo := hsize false settings' hfalse
  rw [hsame, htwo] at hone
  cases hone

theorem width_of_run {data bytes rest : List UInt8}
    (hrun : ∀ (w : World) (p : VobSubParser), p.handleData8 w .acp data =
      if bytes.length = 1024 then none
      else (p.handleLine w (lineOf w .acp (buffered bytes))).bind fun q =>
        q.handleData8 w .acp rest)
    (hstr : (buffered bytes).takeWhile (· ≠ 0) ≠ []) (one : Bool) (p q : VobSubParser)
    (hp : Takes p) (h : p.handleData8 (sizeWorld _ hstr one) .acp data = some q) :
    q.mTotalWidth = sizeOf one := by
  rw [hrun, lineOf_sizeWorld, if_pos rfl] at h
  split at h
  · cases h
  · obtain ⟨p', hline, htakes, hwidth⟩ :=
      handleLine_sizeText (w := sizeWorld _ hstr one) hp one
    rw [hline, Option.bind_some] at h
    exact handleData8_sizeWorld hstr one htakes hwidth h

theorem ne_zero_of_mem_chars {text : IndexText} {c : UInt16} (h : c ∈ text.chars .lf) : c ≠ 0 := by
  rw [IndexText.chars, List.mem_append, List.mem_flatMap] at h
  rcases h with ⟨l, hl, h⟩ | h
  · rcases List.mem_append.mp h with h | h
    · exact (text.isText l (List.mem_cons_of_mem _ hl) c h).1
    · rw [List.mem_singleton.mp h]
      decide
  · exact (text.isText text.rest (List.mem_cons_self ..) c h).1

/-- The characters before the first that ends a line byte by byte are few. -/
theorem length_before_newline {text : IndexText} {c : UInt16} {cs pre post : List UInt16}
    {x : UInt16} (hchars : text.chars .lf = c :: cs) (hlow : low c = 0)
    (hsplit : text.chars .lf = pre ++ x :: post)
    (hpre : ∀ y ∈ pre, ¬IsNewline (low y) ∧ ¬IsNewline (high y)) : pre.length ≤ 1022 := by
  -- a line that starts with `c` is short, and the first line end behind it ends `pre`
  have hshort : ∀ l ∈ text.rest :: text.lines, ∀ l', l = c :: l' → l.length ≤ 1022 := by
    intro l hl l' hcons
    have hc := (text.isText l hl c (by rw [hcons]; exact List.mem_cons_self ..)).1
    have hbytes := text.short l hl
    have htwo := two_le_length_utf8 hc hlow
    have hl' := length_le_flatMap_utf8 l'
    rw [hcons, List.flatMap_cons, List.length_append] at hbytes
    rw [hcons, List.length_cons]
    omega
  have hten : ¬(c = 10) := by
    rintro rfl
    cases hlow
  cases hlines : text.lines with
  | nil =>
    have hrest : text.chars .lf = text.rest := by
      rw [IndexText.chars, hlines, List.flatMap_nil, List.nil_append]
    have hle := hshort text.rest (List.mem_cons_self ..) cs (by rw [← hrest, hchars])
    rw [← hrest, hsplit, List.length_append] at hle
    omega
  | cons l ls =>
    have hfirst : text.chars .lf = l ++ 10 :: (ls.flatMap (· ++ [10]) ++ text.rest) := by
      rw [IndexText.chars, hlines, List.flatMap_cons, List.append_assoc, List.append_assoc]
      rfl
    have hl : l.length ≤ 1022 := by
      cases l with
      | nil => exact Nat.zero_le _
      | cons y l =>
        obtain rfl : y = c := by
          rw [hfirst] at hchars
          exact (List.cons_eq_cons.mp hchars).1
        refine hshort (y :: l) (List.mem_cons_of_mem _ ?_) l rfl
        rw [hlines]
        exact List.mem_cons_self ..
    refine le_trans (Nat.le_of_not_lt fun hlt => ?_) hl
    have hget : pre[l.length]? = some 10 := by
      have hboth := congrArg (·[l.length]?) (hsplit.symm.trans hfirst)
      rw [List.getElem?_append_left hlt, List.getElem?_append_right (Nat.le_refl _),
        Nat.sub_self] at hboth
      exact hboth
    exact (hpre 10 (List.mem_of_getElem? hget)).1 (Or.inl rfl)

/-- **A text with something that ends a line** byte by byte is not the same everywhere. -/
theorem not_alike_of_newline {text : IndexText} {c : UInt16} {cs : List UInt16}
    (hchars : text.chars .lf = c :: cs) (hlow : low c = 0)
    (hnewline : ∃ x ∈ text.chars .lf, IsNewline (low x) ∨ IsNewline (high x)) : ¬text.Alike := by
  intro h
  obtain ⟨pre, x, post, hsplit, hpre, hx⟩ := exists_first_newline hnewline
  have hlength := length_before_newline hchars hlow hsplit hpre
  have hle : text.store .utf16le .lf = 0xff :: 0xfe :: pairs low high (pre ++ x :: post) := by
    rw [← hsplit]
    rfl
  have hbe : text.store .utf16be .lf = 0xfe :: 0xff :: pairs high low (pre ++ x :: post) := by
    rw [← hsplit]
    rfl
  have hmarkle := mark_utf16le hchars
  have hmarkbe := mark_utf16be hchars
  rw [if_neg fun h => h hlow] at hmarkle hmarkbe
  obtain ⟨restle, hrunle⟩ := handleData8_pairs
    (by decide : ¬IsNewline 0xff ∧ ¬IsNewline 0xfe) hpre hx hlength post
  obtain ⟨restbe, hrunbe⟩ := handleData8_pairs
    (by decide : ¬IsNewline 0xfe ∧ ¬IsNewline 0xff) (fun y hy => (hpre y hy).symm) hx.symm hlength
    post
  -- no file runs over the buffer
  have hfitsle : (front low high 0xff 0xfe pre x).length ≠ 1024 := by
    intro heq
    obtain ⟨_, hall⟩ := h (sizeWorld [1] (by decide) true) idle 0
    obtain ⟨l, hl, -⟩ := hall .utf16le .lf
    rw [loadFile_unknown _ _ hmarkle, hle, hrunle, if_pos heq] at hl
    cases hl
  have hfitsbe : (front high low 0xfe 0xff pre x).length ≠ 1024 := by
    intro heq
    obtain ⟨_, hall⟩ := h (sizeWorld [1] (by decide) true) idle 0
    obtain ⟨l, hl, -⟩ := hall .utf16be .lf
    rw [loadFile_unknown _ _ hmarkbe, hbe, hrunbe, if_pos heq] at hl
    cases hl
  have hlengthle := length_front low high 0xff 0xfe pre x
  have hlengthbe := length_front high low 0xfe 0xff pre x
  have hbound : (front low high 0xff 0xfe pre x).length < 1024 ∨ 512 ≤ pre.length := by
    by_contra hno
    rw [not_or] at hno
    rcases hx with hx | hx
    · rw [if_pos hx] at hlengthle
      omega
    · rw [if_pos hx] at hlengthbe
      split at hlengthle
      · omega
      · omega
  by_cases hhigh : 512 ≤ pre.length → ∀ y, pre[511]? = some y → high y ≠ 0
  · have hstr : (buffered (front low high 0xff 0xfe pre x)).takeWhile (· ≠ 0) ≠ [] :=
      takeWhile_buffered_ne_nil (by decide) hhigh hbound
    refine not_alike_of_string hmarkle hstr ?_ h
    rw [hle]
    exact width_of_run hrunle hstr
  · push Not at hhigh
    obtain ⟨hlong, y, hy, hzero⟩ := hhigh
    have hmem : y ∈ text.chars .lf := by
      rw [hsplit]
      exact List.mem_append_left _ (List.mem_of_getElem? hy)
    have hlast : ∀ y', pre[511]? = some y' → low y' ≠ 0 := by
      intro y' hy' hlow'
      obtain rfl : y = y' := Option.some.inj (hy.symm.trans hy')
      exact ne_zero_of_mem_chars hmem (eq_zero_of_low_high hlow' hzero)
    have hstr : (buffered (front high low 0xfe 0xff pre x)).takeWhile (· ≠ 0) ≠ [] :=
      takeWhile_buffered_ne_nil (by decide) (fun _ => hlast) (Or.inr hlong)
    refine not_alike_of_string hmarkbe hstr ?_ h
    rw [hbe]
    exact width_of_run hrunbe hstr

theorem not_isNewline_of_mem_utf8 {c : UInt16} (hlow : ¬IsNewline (low c)) {b : UInt8}
    (h : b ∈ utf8 c) : ¬IsNewline b := by
  intro hb
  have hsmall : b.toNat < 128 := by
    rcases hb with rfl | rfl
    · decide
    · decide
  have hnat := eq_of_mem_utf8 hsmall h
  refine hlow ?_
  have hb' : low c = b := by
    rw [low, hnat]
    exact UInt8.ofNat_toNat
  rwa [hb']

/-- **A text without lines** leaves every parser as it was started. -/
theorem IndexText.Untouched.loadFile {text : IndexText} (h : text.Untouched) (p : VobSubParser)
    (langId : Int) (encoding : Encoding) (lineEnd : LineEnd) : ∃ first count,
      loadFile w p langId (text.store encoding lineEnd) = some ⟨p.start langId, first, count⟩ ∧
        first + count = (text.store encoding lineEnd).length := by
  obtain ⟨hlines, ⟨c, hc, hlow⟩, hplain⟩ := h
  have hchars : text.chars lineEnd = text.rest := by
    rw [IndexText.chars, hlines, List.flatMap_nil, List.nil_append]
  obtain ⟨cs, hcs⟩ : ∃ cs, text.chars lineEnd = c :: cs := by
    rw [hchars]
    exact List.head?_eq_some_iff.mp hc
  have hmem : ∀ b ∈ text.rest.flatMap encoding.encode, ¬IsNewline b := by
    intro b hb
    obtain ⟨x, hx, hb⟩ := List.mem_flatMap.mp hb
    cases encoding with
    | utf8 => exact not_isNewline_of_mem_utf8 (hplain x hx).1 hb
    | utf16le =>
      rcases List.mem_pair.mp hb with rfl | rfl
      · exact (hplain x hx).1
      · exact (hplain x hx).2
    | utf16be =>
      rcases List.mem_pair.mp hb with rfl | rfl
      · exact (hplain x hx).2
      · exact (hplain x hx).1
  have hunknown : mark (text.store encoding lineEnd) = some .unknown →
      (∀ b ∈ encoding.bom, ¬IsNewline b) → ∃ first count,
        VobSub.loadFile w p langId (text.store encoding lineEnd) =
          some ⟨p.start langId, first, count⟩ ∧
        first + count = (text.store encoding lineEnd).length := by
    intro hmark hbom
    refine ⟨0, (text.store encoding lineEnd).length, ?_, Nat.zero_add _⟩
    rw [loadFile_unknown _ _ hmark, handleData8_plain]
    · rfl
    · rw [IndexText.store, hchars]
      exact List.forall_mem_append.mpr ⟨hbom, hmem⟩
  cases encoding with
  | utf8 =>
    refine ⟨3, ((text.store .utf8 lineEnd).drop 3).length, ?_, ?_⟩
    · rw [loadFile_utf8 _ _ (mark_utf8 text lineEnd), handleData8_plain]
      · rfl
      · show ∀ b ∈ (text.chars lineEnd).flatMap Encoding.utf8.encode, ¬IsNewline b
        rw [hchars]
        exact hmem
    · show 3 + ((text.chars lineEnd).flatMap Encoding.utf8.encode).length =
        ((text.chars lineEnd).flatMap Encoding.utf8.encode).length + 1 + 1 + 1
      omega
  | utf16le =>
    refine hunknown ?_ (List.forall_mem_cons.mpr ⟨by decide, List.forall_mem_singleton.mpr ?_⟩)
    · rw [mark_utf16le hcs, if_neg fun h => h hlow]
    · decide
  | utf16be =>
    refine hunknown ?_ (List.forall_mem_cons.mpr ⟨by decide, List.forall_mem_singleton.mpr ?_⟩)
    · rw [mark_utf16be hcs, if_neg fun h => h hlow]
    · decide

/-- **All six files lead to the same** if and only if none of them has a line. -/
theorem alike_iff (text : IndexText) : text.Alike ↔ text.Untouched := by
  constructor
  · intro h
    obtain ⟨_, hall⟩ := h (sizeWorld [1] (by decide) true) idle 0
    obtain ⟨l, hl, -⟩ := hall .utf16be .lf
    cases hchars : text.chars .lf with
    | nil =>
      -- the test of the mark looks behind the end
      rw [VobSub.loadFile, IndexText.store, hchars] at hl
      cases hl
    | cons c cs =>
      have hmark := mark_utf16be hchars
      by_cases hlow : low c = 0
      · by_cases hnewline : ∃ x ∈ text.chars .lf, IsNewline (low x) ∨ IsNewline (high x)
        · exact absurd h (not_alike_of_newline hchars hlow hnewline)
        · push Not at hnewline
          have hlines : text.lines = [] := by
            cases hlines : text.lines with
            | nil => rfl
            | cons l ls =>
              refine absurd (Or.inl rfl) (hnewline 10 ?_).1
              rw [IndexText.chars, hlines, List.flatMap_cons]
              exact List.mem_append_left _ (List.mem_append_left _
                (List.mem_append_right _ (List.mem_singleton_self 10)))
          have hrest : text.chars .lf = text.rest := by
            rw [IndexText.chars, hlines, List.flatMap_nil, List.nil_append]
          rw [hrest] at hchars hnewline
          exact ⟨hlines, ⟨c, by rw [hchars]; rfl, hlow⟩, hnewline⟩
      · rw [if_pos hlow] at hmark
        rw [loadFile_utf16be _ _ hmark (by rw [store_eq hchars]; exact Nat.le_add_left 3 _)] at hl
        cases hl
  · intro h w p langId
    refine ⟨(p.start langId).settings, fun encoding lineEnd => ?_⟩
    obtain ⟨first, count, hload, hcount⟩ := h.loadFile (w := w) p langId encoding lineEnd
    exact ⟨_, hload, rfl, hcount⟩

def oneLine : IndexText where
  lines := [wide "size: 4x2".toList]
  rest := []
  isText := by
    have hall : ([[], wide "size: 4x2".toList] : List (List UInt16)).all (fun l => l.all fun c =>
        decide (c ≠ 0 ∧ c ≠ 10 ∧ c ≠ 13 ∧ ¬(0xd800 ≤ c ∧ c ≤ 0xdfff))) = true := by decide
    intro l hl c hc
    exact of_decide_eq_true (List.all_eq_true.mp (List.all_eq_true.mp hall l hl) c hc)
  short := by decide

/-- Code pages that make a character of every byte. -/
def latinWorld : World where
  multiByteToWideChar _ bytes := bytes.map UInt8.toUInt16
  convert_nil := fun _ => rfl
  readPacket := fun _ _ sub => some (false, sub)
  stack := fun _ => 0

/-- In UTF-16 with line feeds its line is lost, and a big-endian file is read past its end. -/
theorem oneLine_not_alike :
    ¬oneLine.Alike ∧
    (loadFile latinWorld idle 0 (oneLine.store .utf8 .lf)).map (·.parser.mTotalWidth) = some 4 ∧
    (loadFile latinWorld idle 0 (oneLine.store .utf16le .lf)).map (·.parser.mTotalWidth) =
      some 720 ∧
    loadFile latinWorld idle 0 (oneLine.store .utf16be .lf) = none := by
  have hnone : loadFile latinWorld idle 0 (oneLine.store .utf16be .lf) = none := by
    decide
  refine ⟨fun h => ?_, by decide, by decide, hnone⟩
  obtain ⟨_, hall⟩ := h latinWorld idle 0
  obtain ⟨l, hl, -⟩ := hall .utf16be .lf
  rw [hnone] at hl
  cases hl

end DWindow.VobSub
