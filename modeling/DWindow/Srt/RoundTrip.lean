import DWindow.Srt.Collected

/-!
# Saving and loading again

`save_load` is the round trip.  It is kept by the entries that stay: an srt file ends a
subtitle with an empty line, so a text with an empty line in it is not read back, and
neither is a subtitle with no text at all; spaces and returns are taken off the ends of a
line, and an arrow ends it.
-/

namespace DWindow.Srt

open CInt Decimal LittleEndian WString
open CString (ascii)

variable {num size : Nat} {s : SrtParser}

/-! ## The file -/

theorem unitBytes_eq (c : UInt16) :
    unitBytes c = [UInt8.ofNat c.toNat, UInt8.ofNat (c.toNat / 256)] := rfl

theorem toUnits_unitBytes : ∀ units : List UInt16,
    toUnits false (units.flatMap unitBytes) = units := by
  intro units
  induction units with
  | nil => rfl
  | cons c units ih =>
    have hunit : UInt16.ofNat (ofLE (unitBytes c)) = c := by
      rw [unitBytes, ofLE_toLE_of_lt c.toNat_lt, UInt16.ofNat_toNat]
    rw [unitBytes_eq] at hunit
    rw [List.flatMap_cons, unitBytes_eq, List.cons_append, List.cons_append, List.nil_append,
      toUnits, ih]
    exact congrArg (· :: units) hunit

/-- A file that `save` has written is read as UTF-16, if there is something in it. -/
theorem SrtParser.load_unitBytes {toWide : CodePage → List UInt8 → List UInt16}
    {behind : List UInt8} (hass : s.mAss = false) {c : UInt16} (hc : isDigit c = true)
    (units : List UInt16) :
    s.load toWide behind (0xFF :: 0xFE :: (c :: units).flatMap unitBytes) =
      (s.handleData 10 wideLine (c :: units)).bind fun t => t.flush := by
  have hlow : UInt8.ofNat c.toNat ≠ 0 := by
    rw [isDigit, Bool.and_eq_true, decide_eq_true_eq, decide_eq_true_eq] at hc
    have h48 : 48 ≤ c.toNat := hc.1
    have h57 : c.toNat ≤ 57 := hc.2
    intro hzero
    have := congrArg UInt8.toNat hzero
    rw [UInt8.toNat_ofNat', UInt8.toNat_zero] at this
    omega
  have hbytes : (c :: units).flatMap unitBytes = UInt8.ofNat c.toNat ::
      UInt8.ofNat (c.toNat / 256) :: units.flatMap unitBytes := rfl
  have hs : ({ s with mAss := false } : SrtParser) = s := by rw [← hass]
  rw [SrtParser.load, hs, if_neg (by rw [hbytes]; rintro ⟨⟨⟩, -⟩),
    if_pos ⟨rfl, rfl, by rw [hbytes]; exact hlow⟩, SrtParser.handleData16, List.drop_succ_cons,
    List.drop_succ_cons, List.drop_zero, toUnits_unitBytes]
  rfl

/-- Of an empty list only the byte order mark is written. -/
theorem SrtParser.load_mark {toWide : CodePage → List UInt8 → List UInt16} {behind : List UInt8}
    (hass : s.mAss = false) (htmp : s.tmp = []) : s.load toWide behind [0xFF, 0xFE] = some s := by
  have hs : ({ s with mAss := false } : SrtParser) = s := by rw [← hass]
  have hflush : s.flush = some s := by rw [SrtParser.flush, if_pos htmp]
  rw [SrtParser.load, hs, if_neg (by rintro ⟨⟨⟩, -⟩)]
  split
  · exact hflush
  · rw [if_neg (by rintro ⟨⟨⟩, -⟩)]
    exact hflush

theorem collected_init {heap : List UInt16} (hheap : heap ≠ []) (fontsLoading : List UInt16) :
    Collected num heap.length [] (.init num heap fontsLoading) :=
  ⟨rfl, List.length_set .., rfl, rfl, Or.inl (SrtParser.blank_init num hheap fontsLoading)⟩

/-- **Readable entries are read back.** -/
theorem load_printed {all : List Entry} {heap : List UInt16} (hheap : heap ≠ [])
    (hall : Readable num heap.length all) (hnum : num < 2 ^ 31)
    (toWide : CodePage → List UInt8 → List UInt16) (behind : List UInt8)
    (fontsLoading : List UInt16) :
    ∃ s', (SrtParser.init num heap fontsLoading).load toWide behind (0xFF :: 0xFE ::
        (all.zipIdx.map fun p => p.1.printed p.2).flatten.flatMap unitBytes) = some s' ∧
      s'.entries = all := by
  have hinit : Collected num heap.length [] (.init num heap fontsLoading) :=
    collected_init hheap fontsLoading
  cases all with
  | nil => exact ⟨_, SrtParser.load_mark rfl rfl, rfl⟩
  | cons e es =>
    have hmem : ∀ p ∈ (e :: es).zipIdx, p.1 ∈ e :: es := fun p hp => List.fst_mem_of_mem_zipIdx hp
    have hended : Ended ((e :: es).zipIdx.flatMap fun p => p.1.lines p.2)
        ((e :: es).zipIdx.map fun p => p.1.printed p.2).flatten :=
      ended_flatten fun p hp => hall.stays _ (hmem p hp)
    have hlines : ∀ line ∈ (e :: es).zipIdx.flatMap fun p => p.1.lines p.2,
        (10 : UInt16) ∉ line ∧ (0 : UInt16) ∉ line ∧ (line = [] ∨ LineStays line) := by
      intro line hline
      obtain ⟨p, hp, hline⟩ := List.mem_flatMap.mp hline
      have hlt : p.2 < (e :: es).length + 0 := List.snd_lt_of_mem_zipIdx hp
      have hroom := hall.room
      exact Entry.readable (hall.stays _ (hmem p hp)) (hall.times _ (hmem p hp))
        (hall.plain _ (hmem p hp)) (by omega) line hline
    have hfst : (e :: es).zipIdx.map Prod.fst = e :: es := List.zipIdx_map_fst ..
    obtain ⟨s', hread, stored, p, hs', hp, heq⟩ := hinit.foldlM_lines (e :: es).zipIdx
      (p := none) rfl rfl (by rwa [hfst])
    rw [hfst, Option.toList_none, List.append_nil, List.nil_append] at heq
    have hall' : Readable num heap.length (stored ++ p.toList ++ []) := by
      rwa [List.append_nil, heq]
    obtain ⟨t, hflush, ht⟩ := hs'.flush hp hall'
    obtain ⟨c, units, hunits, hc⟩ : ∃ c units,
        ((e :: es).zipIdx.map fun p => p.1.printed p.2).flatten = c :: units ∧
          isDigit c = true := by
      have hone : decimal (0 + 1) = [49] := by decide
      refine ⟨49, (crlf ++ e.timeLine ++ crlf ++ (tag e.hasOffset e.offset ++ returned e.text) ++
        crlf ++ crlf) ++ ((es.zipIdx 1).map fun p => p.1.printed p.2).flatten, ?_, by decide⟩
      rw [List.zipIdx_cons, List.map_cons, List.flatten_cons, Entry.printed, hone]
      rfl
    refine ⟨t, ?_, ht.entries_eq.trans heq⟩
    rw [hunits, SrtParser.load_unitBytes rfl hc, ← hunits,
      SrtParser.handleData_ended hended _ hlines, hread, Option.bind_some, hflush]

/-! ## The round trip -/

/-- The texts fit into a text memory of the same size, each at a place of its own.  They do
if each has a place of its own already. -/
def SrtParser.Fits (s : SrtParser) : Prop :=
  (∀ e ∈ s.entries, e.text = []) ∨ (s.mIndex.map SubtitleIndex.pos).Nodup ∨
    textMemory s.entries ≤ s.mTextData.length

instance (s : SrtParser) : Decidable s.Fits := by
  unfold SrtParser.Fits
  infer_instance

theorem Kept.readable (hs : Kept num size s) (hsize : 0 < size)
    (hstays : ∀ e ∈ s.entries, e.Stays) (hfits : s.Fits) : Readable num size s.entries := by
  have hall : ∀ {P : Entry → Prop}, (∀ e ∈ s.mIndex, P (s.entry e)) → ∀ e ∈ s.entries, P e := by
    intro P h e he
    obtain ⟨i, hi, rfl⟩ := List.mem_map.mp he
    exact h i hi
  have htext : ∀ e ∈ s.entries, e.text ∈ s.texts := by
    intro e he
    rw [s.texts_eq]
    exact List.mem_map_of_mem he
  refine ⟨hstays, hall hs.times, hall hs.offsets, hall fun _ _ => not_mem_cstrAt _ _,
    fun e he => hs.stripped _ (htext e he), List.pairwise_map.mpr hs.apart, ?_, hsize, ?_⟩
  · rw [SrtParser.entries, List.length_map]
    exact hs.room
  · rcases hs.laid with hblank | ⟨hfilled, ⟨text, texts, htexts, hne⟩, hsum⟩
    · exact Or.inl fun e he => SrtParser.texts_of_blank hblank _ (htext e he)
    · refine hfits.imp_right fun h => ⟨?_, ?_⟩
      · rw [s.texts_eq] at htexts
        cases hentries : s.entries with
        | nil => rintro e ⟨⟩
        | cons x xs =>
          rw [hentries, List.map_cons, List.cons.injEq] at htexts
          rintro e ⟨⟩
          rw [htexts.1]
          exact hne
      · rw [← hs.size_eq]
        rcases h with hnodup | hle
        · have hmemory : textMemory s.entries = s.endPos := by
            rw [← hsum hnodup, s.texts_eq, List.map_map]
            rfl
          rw [hmemory]
          exact hfilled.fits
        · exact hle

theorem Reached.size_pos (h : Reached num size s) : 0 < size := by
  induction h with
  | init hheap hsize => rw [← hsize]; exact List.length_pos_iff.mpr hheap
  | load _ _ _ _ _ ih => exact ih
  | loadOffsetMetadata _ _ _ _ _ _ ih => exact ih

/-- **The round trip**: what a parser has loaded is saved to a file, from which a new parser
of the same capacity, an `int`, loads the same entries, if each of them stays and their
texts fit. -/
theorem save_load (num size : Nat) (hnum : num < 2 ^ 31) (s : SrtParser)
    (h : Reached num size s) (hstays : ∀ e ∈ s.entries, e.Stays) (hfits : s.Fits)
    (heap fontsLoading : List UInt16) (hheap : heap.length = size)
    (toWide : CodePage → List UInt8 → List UInt16) (behind : List UInt8) :
    ∃ file s', s.save = some file ∧
      (SrtParser.init num heap fontsLoading).load toWide behind file = some s' ∧
      s'.entries = s.entries := by
  have hall := h.kept.readable h.size_pos hstays hfits
  rw [← hheap] at hall
  have hne : heap ≠ [] := List.length_pos_iff.mp (hheap.symm ▸ h.size_pos)
  obtain ⟨s', hload, hentries⟩ := load_printed hne hall hnum toWide behind fontsLoading
  exact ⟨_, s', save_eq hstays h.kept.times, hload, hentries⟩

/-- A file with two subtitles, one with an offset. -/
def hiYou : List UInt8 :=
  ascii [
    '1', '\n', '0', ':', '0', ':', '1', ',', '0', '-', '-', '>', '0', ':', '0', ':', '2', ',', '5',
    '\n', '<', 'o', 'f', 'f', 's', 'e', 't', '=', '-', '3', '>', 'h', 'i', '\n', 'y', 'o', 'u',
    '\n', '\n', '2', '\n', '0', ':', '0', ':', '3', ',', '0', '-', '-', '>', '0', ':', '0', ':',
    '4', ',', '0', '\n', '<', 'i', '>', '4', '2', '<', '/', 'i', '>', '\n']

/-- A file whose tags hide an empty line, a space and an arrow, and a subtitle. -/
def hidden : List UInt8 :=
  ascii [
    '1', '\n', '0', ':', '0', ':', '1', ',', '0', '-', '-', '>', '0', ':', '0', ':', '2', ',', '0',
    '\n', 'a', '\n', '<', 'b', '>', '\n', 'c', '\n', '\n', '2', '\n', '0', ':', '0', ':', '3', ',',
    '0', '-', '-', '>', '0', ':', '0', ':', '4', ',', '0', '\n', '<', 'b', '>', ' ', 'd', ' ', '-',
    '<', 'b', '>', '-', '>', ' ', 'e', '\n', '\n', '3', '\n', '0', ':', '0', ':', '5', ',', '0',
    '-', '-', '>', '0', ':', '0', ':', '6', ',', '0', '\n', '<', 'b', '>', '<', '/', 'b', '>',
    '\n']

theorem save_load_hiYou : ∃ (s : SrtParser) (file : List UInt8) (s' : SrtParser),
    s.entries = [⟨1000, 2500, true, -3, wide ['h', 'i', '\n', 'y', 'o', 'u']⟩,
      ⟨3000, 4000, false, 0, wide ['4', '2']⟩] ∧
    s.save = some file ∧
    (SrtParser.init 4 (List.replicate 64 66) []).load (fun _ line => line.map UInt8.toUInt16) []
      file = some s' ∧ s'.entries = s.entries := by
  have hload : ((SrtParser.init 4 (List.replicate 64 65) []).load
      (fun _ line => line.map UInt8.toUInt16) [] hiYou).any (fun s =>
        decide ((∀ e ∈ s.entries, e.Stays) ∧ s.Fits ∧
          s.entries = [⟨1000, 2500, true, -3, wide ['h', 'i', '\n', 'y', 'o', 'u']⟩,
            ⟨3000, 4000, false, 0, wide ['4', '2']⟩])) = true := by decide +kernel
  obtain ⟨s, hs, h⟩ := (Option.any_eq_true _ _).mp hload
  obtain ⟨hstays, hfits, hentries⟩ := of_decide_eq_true h
  have hreached : Reached 4 64 s := .load _ _ _ (.init (by decide) (by decide)) hs
  obtain ⟨file, s', hsave, hload', heq⟩ := save_load 4 64 (by decide) s hreached hstays hfits
    (List.replicate 64 66) [] (by decide) (fun _ line => line.map UInt8.toUInt16) []
  exact ⟨s, file, s', hentries, hsave, hload', heq⟩

/-- What the tags have hidden does not come back: the text ends in front of the empty line,
the line loses its space and ends in front of the arrow, and the empty subtitle is gone. -/
theorem hidden_lost : ∃ s file s', Reached 4 64 s ∧ s.save = some file ∧
    (SrtParser.init 4 (List.replicate 64 65) []).load (fun _ line => line.map UInt8.toUInt16) []
      file = some s' ∧
    s.texts = [wide ['a', '\n', '\n', 'c'], wide [' ', 'd', ' ', '-', '-', '>', ' ', 'e'], []] ∧
    s'.texts = [wide ['a'], wide ['d']] ∧ s'.entries ≠ s.entries := by
  have hrun : ((SrtParser.init 4 (List.replicate 64 65) []).load
      (fun _ line => line.map UInt8.toUInt16) [] hidden).bind (fun s => s.save.bind fun file =>
        ((SrtParser.init 4 (List.replicate 64 65) []).load
          (fun _ line => line.map UInt8.toUInt16) [] file).map fun s' => (s.texts, s'.texts)) =
      some ([wide ['a', '\n', '\n', 'c'], wide [' ', 'd', ' ', '-', '-', '>', ' ', 'e'], []],
        [wide ['a'], wide ['d']]) := by decide +kernel
  obtain ⟨s, hs, hrun⟩ := Option.bind_eq_some_iff.mp hrun
  obtain ⟨file, hsave, hrun⟩ := Option.bind_eq_some_iff.mp hrun
  obtain ⟨s', hs', hrun⟩ := Option.map_eq_some_iff.mp hrun
  obtain ⟨htexts, htexts'⟩ := Prod.mk.inj hrun
  refine ⟨s, file, s', .load _ _ _ (.init (by decide) (by decide)) hs, hsave, hs', htexts, htexts',
    fun h => ?_⟩
  rw [SrtParser.texts_eq, ← h, ← SrtParser.texts_eq, htexts'] at htexts
  exact absurd htexts (by decide)

end DWindow.Srt
