import DWindow.Mvc.Delimeter
import DWindow.Srt.OffsetMetadata

/-!
# Writing an offset-metadata file

`main3` of `interlacer.cpp` writes a header and one byte for each access unit.
The header is written again for every unit, always with version `0`
(`main3_header`), and `load_offset_metadata` takes version `1` only: no file of
`main3` is accepted, whatever the stream (`main3_not_offsetsAgree`).
-/

namespace DWindow.Mvc

open ByteFile CString LittleEndian Srt

/-- `my12doom_offset_metadata_header`, as `main3` fills it in. -/
def offsetHeader (pointCount : Nat) : List UInt8 :=
  ascii ['o', 'f', 'f', 's'] ++ toLE 4 0 ++ toLE 4 pointCount ++ toLE 4 24000 ++ toLE 4 1001

def thisFrame (table : OffsetMetadata) : UInt8 :=
  let point := table.points.getD 0 0
  if table.count > 0 then
    if point ≥ 0 then UInt8.ofNat point.toNat else UInt8.ofNat (-point).toNat ||| 0x80
  else 0x80

def writeFrame (offset : ByteFile) (n : Nat) (frame : UInt8) : ByteFile :=
  ((offset.seekSet 0).write (offsetHeader (n + 1))).seekEnd.write [frame]

/-- The loop of `main3`: the file it leaves, and for each unit the points of its
offset SEI. -/
def main3Loop (behind : Nat → List UInt8) :
    Nat → List UInt8 → OffsetMetadata → Nat → ByteFile →
      Option (ByteFile × List (Option (List Int)))
  | 0, _, _, _, _ => none
  | fuel + 1, rest, table, n, offset => do
    let d ← readADelimeter behind rest table
    if d.size = 0 then some (offset, [])
    else do
      let r ← main3Loop behind fuel d.rest ⟨d.table.points, d.table.count - 1⟩ (n + 1)
        (writeFrame offset n (thisFrame d.table))
      some (r.1, d.sei :: r.2)

/-- `main3`, on a stream.  Every unit takes at least a byte of it. -/
def main3 (behind : Nat → List UInt8) (stream : List UInt8) :
    Option (List UInt8 × List (Option (List Int))) :=
  (main3Loop behind (stream.length + 1) stream .initial 0 ByteFile.empty).map
    (fun r => (r.1.data, r.2))

/-- **The two halves agree**: the file is accepted, and from the unit of an offset
SEI on, until the next one, the points of the SEI are what is read. -/
def OffsetsAgree (stack heap file : List UInt8) (seis : List (Option (List Int))) : Prop :=
  ∃ fps count data, loadOffsetData stack heap file = some (fps, count, data) ∧
    ∀ k points, seis[k]? = some (some points) → ∀ j, j < points.length → k + j < seis.length →
      (∀ i, k < i → i ≤ k + j → seis[i]? = some none) → some (offsetAt data (k + j)) = points[j]?

/-! ## The header of every file -/

/-- The file begins with a header of version `0`. -/
def VersionZero (file : List UInt8) : Prop :=
  ∃ pointCount rest, file = offsetHeader pointCount ++ rest

theorem versionZero_writeFrame (offset : ByteFile) (n : Nat) (frame : UInt8) :
    VersionZero (writeFrame offset n frame).data := by
  refine ⟨n + 1, offset.data.drop (offsetHeader (n + 1)).length ++ [frame], ?_⟩
  rw [writeFrame, write_data_of_end rfl, seekEnd_data, ByteFile.write]
  simp

/-- **Every frame is written under a header of version `0`.** -/
theorem main3_header {behind : Nat → List UInt8} : ∀ (fuel : Nat) (rest : List UInt8)
    (table : OffsetMetadata) (n : Nat) (offset : ByteFile)
    (r : ByteFile × List (Option (List Int))),
    main3Loop behind fuel rest table n offset = some r →
      (VersionZero offset.data ∨ r.2 ≠ []) → VersionZero r.1.data := by
  intro fuel
  induction fuel with
  | zero => intro rest table n offset r h; exact absurd h (by simp [main3Loop])
  | succ fuel ih =>
    intro rest table n offset r h hor
    rw [main3Loop, Option.bind_eq_bind, Option.bind_eq_some_iff] at h
    obtain ⟨d, -, h⟩ := h
    by_cases hsize : d.size = 0
    · rw [if_pos hsize, Option.some.injEq] at h
      subst h
      exact hor.resolve_right (not_not_intro rfl)
    · rw [if_neg hsize, Option.bind_eq_bind, Option.bind_eq_some_iff] at h
      obtain ⟨r', hr', h⟩ := h
      rw [Option.some.injEq] at h
      subst h
      exact ih _ _ _ _ r' hr' (Or.inl (versionZero_writeFrame ..))

theorem loadOffsetData_of_versionZero {stack heap file : List UInt8} (h : VersionZero file) :
    loadOffsetData stack heap file = none := by
  obtain ⟨pointCount, rest, rfl⟩ := h
  have hlen : (offsetHeader pointCount).length = offsetHeaderSize := by
    simp [offsetHeader, ascii, offsetHeaderSize]
  have hfield : headerField (overlay ((offsetHeader pointCount ++
    rest).take offsetHeaderSize) stack)
      1 = 0 := by
    rw [List.take_left' hlen]
    rfl
  rw [loadOffsetData]
  dsimp only
  rw [hfield, if_pos (by decide)]

/-- **No file of `main3` is accepted.**  Whatever the stream, and whatever the
memory holds on either side, the halves do not agree. -/
theorem main3_not_offsetsAgree (behind : Nat → List UInt8) (stream stack heap file : List UInt8)
    (seis : List (Option (List Int))) (h : main3 behind stream = some (file, seis))
    (hwritten : seis ≠ []) : ¬ OffsetsAgree stack heap file seis := by
  rintro ⟨fps, count, data, hload, -⟩
  rw [main3, Option.map_eq_some_iff] at h
  obtain ⟨r, hr, hfile⟩ := h
  rw [Prod.mk.injEq] at hfile
  obtain ⟨rfl, rfl⟩ := hfile
  rw [loadOffsetData_of_versionZero (main3_header _ _ _ _ _ r hr (Or.inr hwritten))] at hload
  exact absurd hload (by simp)

/-- Two access units, the first with an offset SEI of the points `5` and `-3`. -/
def twoUnits : List UInt8 :=
  [0, 0, 0, 1, 9, 0x10] ++
    ([0, 0, 0, 1, 6, 37, 40, 0x11, 0x11, 36] ++ List.replicate 27 0x11 ++
      [2, 0x11, 0x11, 5, 0x83] ++
      [0x11, 0x11, 0x11, 0x11, 0x80]) ++
    [0, 0, 0, 1, 5, 0x88, 0x84] ++
    [0, 0, 0, 1, 9, 0x30] ++ [0, 0, 0, 1, 1, 0x88, 0x84]

theorem main3_twoUnits : main3 (fun _ => List.replicate 64 0) twoUnits =
    some (offsetHeader 2 ++ [5, 5], [some [5, -3], none]) := by decide +kernel

theorem main3_not_offsetsAgree_twoUnits :
    ¬ OffsetsAgree (List.replicate 20 0) (List.replicate 2048000 0) (offsetHeader 2 ++ [5, 5])
      [some [5, -3], none] :=
  main3_not_offsetsAgree (fun _ => List.replicate 64 0) twoUnits _ _ _ _ main3_twoUnits (by decide)

/-- The loader turns that file down. -/
theorem main3_file_rejected : ∃ file seis,
    main3 (fun _ => List.replicate 64 0) twoUnits = some (file, seis) ∧
      ¬ OffsetsAgree (List.replicate 20 0) (List.replicate 2048000 0) file seis := by
  refine ⟨_, _, main3_twoUnits, ?_⟩
  rintro ⟨fps, count, data, hload, -⟩
  rw [loadOffsetData_of_versionZero ⟨2, _, rfl⟩] at hload
  exact absurd hload (by simp)

end DWindow.Mvc
