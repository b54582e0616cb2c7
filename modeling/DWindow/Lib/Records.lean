import DWindow.Lib.ByteFile

/-!
# A file of records

`while (fread(&r, size, 1, f))` reads records of one size until the file has no whole
one left.  `readRecords` is that loop, and on a file that ends in whole records it
delivers them all (`readRecords_flatten`).
-/

namespace Records

/-- `fread(&r, size, 1, f)`: the record, if a whole one was left. -/
def fread (f : ByteFile) (size : Nat) : Option (List UInt8) :=
  if (f.readBytes size).length = size then some (f.readBytes size) else none

theorem length_of_fread {f : ByteFile} {size : Nat} {r : List UInt8} (h : fread f size = some r) :
    r.length = size ∧ f.pos + size ≤ max f.pos f.data.length := by
  rw [fread] at h
  split at h
  · next hlen =>
    rw [Option.some.injEq] at h
    refine ⟨h ▸ hlen, ?_⟩
    rw [ByteFile.readBytes, List.length_take, List.length_drop] at hlen
    omega
  · exact absurd h (by simp)

theorem fread_eq_some {f : ByteFile} {r rest : List UInt8} (h : f.data.drop f.pos = r ++ rest) :
    fread f r.length = some r ∧
      (f.afterRead r.length).data.drop (f.afterRead r.length).pos = rest ∧
      (f.afterRead r.length).pos = f.pos + r.length := by
  have hread : f.readBytes r.length = r := by
    rw [ByteFile.readBytes, h, List.take_left]
  have hpos : (f.afterRead r.length).pos = f.pos + r.length := by
    rw [ByteFile.afterRead, hread]
  refine ⟨by rw [fread, hread, if_pos rfl], ?_, hpos⟩
  rw [hpos, ByteFile.afterRead_data, ← List.drop_drop, h, List.drop_left]

/-- The records from the position on, and the file behind them. -/
def readRecords (f : ByteFile) (size : Nat) : List (List UInt8) × ByteFile :=
  if _h : 0 < size ∧ (fread f size).isSome then
    let rest := readRecords (f.afterRead size) size
    (f.readBytes size :: rest.1, rest.2)
  else ([], f.afterRead size)
termination_by f.data.length - f.pos
decreasing_by
  obtain ⟨hsize, hsome⟩ := _h
  obtain ⟨r, hr⟩ := Option.isSome_iff_exists.mp hsome
  obtain ⟨hlen, hle⟩ := length_of_fread hr
  rw [ByteFile.afterRead_data, ByteFile.afterRead_pos_of_le (by omega)]
  omega

theorem fread_empty {size : Nat} (hsize : 0 < size) : fread ByteFile.empty size = none := by
  refine if_neg ?_
  rw [ByteFile.readBytes, ByteFile.empty, List.drop_nil, List.take_nil]
  exact Nat.ne_of_lt hsize

theorem afterRead_empty (size : Nat) : ByteFile.empty.afterRead size = ByteFile.empty := by
  rw [ByteFile.afterRead, ByteFile.readBytes, ByteFile.empty, List.drop_nil, List.take_nil]
  rfl

theorem readRecords_empty {size : Nat} (hsize : 0 < size) :
    readRecords ByteFile.empty size = ([], ByteFile.empty) := by
  rw [readRecords, dif_neg (by rw [fread_empty hsize]; simp), afterRead_empty]

/-- **All records are read.** -/
theorem readRecords_flatten {size : Nat} (hsize : 0 < size) : ∀ (rs : List (List UInt8))
    (f : ByteFile), (∀ r ∈ rs, r.length = size) → f.data.drop f.pos = rs.flatten →
    (readRecords f size).1 = rs ∧ (readRecords f size).2.data = f.data := by
  intro rs
  induction rs with
  | nil =>
    intro f _ h
    have hnone : ¬ (0 < size ∧ (fread f size).isSome) := by
      rintro ⟨-, hsome⟩
      have hread : f.readBytes size = [] := by
        rw [ByteFile.readBytes, h, List.flatten_nil, List.take_nil]
      rw [fread, hread, if_neg (by rw [List.length_nil]; omega)] at hsome
      exact absurd hsome (by decide)
    rw [readRecords, dif_neg hnone]
    exact ⟨rfl, rfl⟩
  | cons r rs ih =>
    intro f hrs h
    have hr : r.length = size := hrs r (List.mem_cons_self ..)
    rw [List.flatten_cons] at h
    obtain ⟨hread, hrest, -⟩ := fread_eq_some h
    rw [hr] at hread hrest
    obtain ⟨ih₁, ih₂⟩ := ih (f.afterRead size) (fun q hq => hrs q (List.mem_cons_of_mem _ hq)) hrest
    have hbytes : f.readBytes size = r := by
      rw [ByteFile.readBytes, h, ← hr, List.take_left]
    rw [readRecords, dif_pos ⟨hsize, by rw [hread]; rfl⟩]
    dsimp only
    exact ⟨by rw [ih₁, hbytes], by rw [ih₂, ByteFile.afterRead_data]⟩

end Records
