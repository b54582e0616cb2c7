import DWindow.E3D.Afresh
import DWindow.Lib.Orbit

/-!
# Whether a file can be opened

`SetFile` goes from leaf to leaf by the sizes that stand in the file.  A size is an
`__int64` with a sign: it moves the file by its lower half and the counter by all of it, and
either can go back.  The loop ends where every leaf makes the counter grow (`setFile_ends`).
A leaf of size -16 is its own successor (`selfLeaf_never_opened`), and so is one of size
`2 ^ 63 - 16`, which wraps the counter (`wrapLeaf_never_opened`).  A leaf that leads back may
all the same lead on to the end of the root (`backLeaf_opened`).
-/

namespace DWindow.E3D

open ByteFile CInt LittleEndian Orbit

/-- A leaf as the loop reads it: its size, and the file afterwards; `none` when a read
fails. -/
def leafOf (f : ByteFile) : Option (Int × ByteFile) :=
  if (f.readBytes 8).length ≠ 8 then none
  else if ((f.afterRead 8).readBytes 8).length ≠ 8 then none
  else
    let g := (f.afterRead 8).afterRead 8
    let leafSize := toInt64 (ofLE ((f.afterRead 8).readBytes 8))
    let byteRead := fieldLength (ofLE (f.readBytes 8))
    if (g.readBytes byteRead).length ≠ byteRead then none
    else some (leafSize, seekCur (g.afterRead byteRead) (toInt32 (leafSize - byteRead)))

/-- A turn of the loop: the file at the next leaf and the counter, `none` when it ends. -/
def nextLeaf (rootSize : Int) (s : ByteFile × Int) : Option (ByteFile × Int) :=
  match leafOf s.1 with
  | none => none
  | some (leafSize, f) =>
    if toInt64 (s.2 + (16 + leafSize)) < rootSize then some (f, toInt64 (s.2 + (16 + leafSize)))
    else none

/-- The size of the root and the file at its first leaf, `none` when the file does not begin
with a root. -/
def firstLeaf (file : ByteFile) : Option (Int × ByteFile) :=
  if (file.readBytes 8).length ≠ 8 then none
  else if ofLE (file.readBytes 8) ≠ eightccRoot then none
  else if ((file.afterRead 8).readBytes 8).length ≠ 8 then none
  else some (toInt64 (ofLE ((file.afterRead 8).readBytes 8)), (file.afterRead 8).afterRead 8)

/-- The sizes of the first `n` leaves, as far as the root has room for them. -/
def leafSizes (rootSize : Int) : Nat → ByteFile → Int → List Int
  | 0, _, _ => []
  | n + 1, f, total =>
    match leafOf f with
    | none => []
    | some (leafSize, g) =>
      leafSize :: if total + (16 + leafSize) < rootSize then
        leafSizes rootSize n g (total + (16 + leafSize)) else []

/-- **Every leaf grows the counter**: no leaf is as small as -16, and the counter stays an
`__int64`. -/
def Grow (rootSize : Int) (f : ByteFile) (total : Int) : Prop :=
  ∀ n, (∀ leafSize ∈ leafSizes rootSize n f total, -16 < leafSize) ∧
    total + ((leafSizes rootSize n f total).map (16 + ·)).sum < 2 ^ 63

/-- The leaves of the file do so from the first one on. -/
def LeavesGrow (file : ByteFile) : Prop := ∀ root ∈ firstLeaf file, Grow root.1 root.2 0

/-! ## The loop of `SetFile` -/

/-- **A leaf is read from the file alone.** -/
theorem readLeaf_reads (r : FileReader) :
    r.readLeaf.2 = (leafOf r.mFile).map Prod.fst ∧
      ∀ leaf ∈ leafOf r.mFile, r.readLeaf.1.mFile = leaf.2 := by
  unfold FileReader.readLeaf leafOf
  dsimp only [FileReader.osRead]
  by_cases hcc : (r.mFile.readBytes 8).length ≠ 8
  · rw [if_pos hcc, if_pos hcc]
    exact ⟨rfl, fun _ h => by cases h⟩
  · rw [if_neg hcc, if_neg hcc]
    have hfile : (r.osSkip 8).mFile = r.mFile.afterRead 8 := rfl
    rw [hfile]
    by_cases hsize : ((r.mFile.afterRead 8).readBytes 8).length ≠ 8
    · rw [if_pos hsize, if_pos hsize]
      exact ⟨rfl, fun _ h => by cases h⟩
    · rw [if_neg hsize, if_neg hsize]
      obtain ⟨hread, hskip⟩ :=
        readField_reads ((r.osSkip 8).osSkip 8) (ofLE (r.mFile.readBytes 8))
      revert hread hskip
      cases FileReader.readField ((r.osSkip 8).osSkip 8) (ofLE (r.mFile.readBytes 8)) with
      | mk r' read =>
        intro hread hskip
        change read = if (((r.mFile.afterRead 8).afterRead 8).readBytes
          (fieldLength (ofLE (r.mFile.readBytes 8)))).length ≠
            fieldLength (ofLE (r.mFile.readBytes 8)) then none
          else some (fieldLength (ofLE (r.mFile.readBytes 8))) at hread
        rw [hread]
        by_cases hfield : (((r.mFile.afterRead 8).afterRead 8).readBytes
            (fieldLength (ofLE (r.mFile.readBytes 8)))).length ≠
              fieldLength (ofLE (r.mFile.readBytes 8))
        · rw [if_pos hfield, if_pos hfield]
          exact ⟨rfl, fun _ h => by cases h⟩
        · rw [if_neg hfield, if_neg hfield, Option.map_some]
          dsimp only at hskip ⊢
          generalize toInt64 (ofLE ((r.mFile.afterRead 8).readBytes 8)) = leafSize
          refine ⟨rfl, fun leaf h => ?_⟩
          rw [hskip, ← Option.some.inj h]
          rfl

/-- The loop has enough fuel exactly when the leaves have ended by then. -/
theorem leafLoop_isSome_iff (rootSize : Int) : ∀ (fuel : Nat) (r : FileReader) (total : Int),
    (FileReader.leafLoop fuel r total rootSize).isSome ↔
      iter (nextLeaf rootSize) fuel (r.mFile, total) = none := by
  intro fuel
  induction fuel with
  | zero => intro r total; simp [FileReader.leafLoop]
  | succ fuel ih =>
    intro r total
    obtain ⟨hsize, hfile⟩ := readLeaf_reads r
    rw [FileReader.leafLoop, iter_succ, nextLeaf]
    revert hsize hfile
    cases r.readLeaf with
    | mk r' size =>
      intro hsize hfile
      dsimp only at hsize hfile ⊢
      cases hleaf : leafOf r.mFile with
      | none =>
        rw [hleaf] at hsize
        subst hsize
        exact ⟨fun _ => rfl, fun _ => rfl⟩
      | some leaf =>
        obtain ⟨leafSize, f⟩ := leaf
        rw [hleaf] at hsize
        have hf : r'.mFile = f := hfile _ hleaf
        subst hsize
        dsimp only [Option.map_some]
        by_cases hmore : toInt64 (total + (16 + leafSize)) < rootSize
        · rw [if_pos hmore, if_pos hmore, Option.bind_some, ← hf]
          exact ih r' _
        · rw [if_neg hmore, if_neg hmore]
          exact ⟨fun _ => rfl, fun _ => rfl⟩

/-! ## Leaves that grow -/

theorem leafSizes_cons {rootSize leafSize total : Int} {f g : ByteFile}
    (hleaf : leafOf f = some (leafSize, g)) (hmore : total + (16 + leafSize) < rootSize) (n : Nat) :
    leafSizes rootSize (n + 1) f total =
      leafSize :: leafSizes rootSize n g (total + (16 + leafSize)) := by
  rw [leafSizes, hleaf]
  dsimp only
  rw [if_pos hmore]

theorem leafSizes_last {rootSize leafSize total : Int} {f g : ByteFile}
    (hleaf : leafOf f = some (leafSize, g)) (hmore : ¬ total + (16 + leafSize) < rootSize)
    (n : Nat) : leafSizes rootSize (n + 1) f total = [leafSize] := by
  rw [leafSizes, hleaf]
  dsimp only
  rw [if_neg hmore]

theorem Grow.leaf {rootSize leafSize total : Int} {f g : ByteFile} (h : Grow rootSize f total)
    (hleaf : leafOf f = some (leafSize, g)) :
    -16 < leafSize ∧ total + (16 + leafSize) < 2 ^ 63 := by
  have hsizes : leafSizes rootSize 1 f total = [leafSize] := by
    rw [leafSizes, hleaf]
    dsimp only
    split
    · rfl
    · rfl
  obtain ⟨hsize, hsum⟩ := h 1
  rw [hsizes] at hsize hsum
  rw [List.map_cons, List.map_nil, List.sum_singleton] at hsum
  exact ⟨hsize leafSize (List.mem_singleton_self _), hsum⟩

/-- **A turn of the loop brings the counter nearer to the end of the root.** -/
theorem Grow.next {rootSize total total' : Int} {f g : ByteFile} (h : Grow rootSize f total)
    (htotal : 0 ≤ total) (hnext : nextLeaf rootSize (f, total) = some (g, total')) :
    Grow rootSize g total' ∧ total < total' ∧ total' < rootSize := by
  unfold nextLeaf at hnext
  cases hleaf : leafOf f with
  | none =>
    simp only [hleaf] at hnext
    cases hnext
  | some leaf =>
    obtain ⟨leafSize, f'⟩ := leaf
    obtain ⟨hsize, hfits⟩ := h.leaf hleaf
    simp only [hleaf] at hnext
    rw [toInt64_of_lt (by omega) hfits] at hnext
    split at hnext
    · next hmore =>
      cases hnext
      refine ⟨fun n => ?_, by omega, hmore⟩
      obtain ⟨hsizes, hsum⟩ := h (n + 1)
      rw [leafSizes_cons hleaf hmore] at hsizes hsum
      rw [List.map_cons, List.sum_cons, ← Int.add_assoc] at hsum
      exact ⟨fun size hsize => hsizes size (List.mem_cons_of_mem _ hsize), hsum⟩
    · cases hnext

theorem Grow.ends {rootSize : Int} {f : ByteFile} (h : Grow rootSize f 0) :
    Ends (nextLeaf rootSize) (f, 0) := by
  refine ends_of_rank (fun s => 0 ≤ s.2 ∧ Grow rootSize s.1 s.2)
    (fun s => (rootSize - s.2).toNat) ?_ ⟨Int.le_refl 0, h⟩
  rintro ⟨f, total⟩ ⟨g, total'⟩ ⟨htotal, hgrow⟩ hnext
  obtain ⟨hgrow', hless, hroot⟩ := hgrow.next htotal hnext
  dsimp only
  exact ⟨⟨by omega, hgrow'⟩, by omega⟩

/-! ## `SetFile` -/

/-- `SetFile` comes back when the file does not begin with a root, or its leaf loop ends. -/
theorem setFile_isSome_iff (fuel : Nat) (r : FileReader) (file : ByteFile) :
    (FileReader.setFile fuel r file).isSome ↔
      ∀ root ∈ firstLeaf file, iter (nextLeaf root.1) fuel (root.2, 0) = none := by
  rw [setFile_eq]
  unfold firstLeaf
  have hentered : (r.entered file).mFile = file := rfl
  have hskipped : ((r.entered file).osSkip 8).mFile = file.afterRead 8 := rfl
  simp only [FileReader.osRead, hentered, hskipped]
  by_cases hcc : (file.readBytes 8).length ≠ 8
  · rw [if_pos hcc, if_pos hcc]
    exact ⟨fun _ _ h => (by cases h), fun _ => rfl⟩
  · rw [if_neg hcc, if_neg hcc]
    by_cases hroot : ofLE (file.readBytes 8) ≠ eightccRoot
    · rw [if_pos hroot, if_pos hroot]
      exact ⟨fun _ _ h => (by cases h), fun _ => rfl⟩
    · rw [if_neg hroot, if_neg hroot]
      by_cases hsize : ((file.afterRead 8).readBytes 8).length ≠ 8
      · rw [if_pos hsize, if_pos hsize]
        exact ⟨fun _ _ h => (by cases h), fun _ => rfl⟩
      · rw [if_neg hsize, if_neg hsize]
        have hloop := leafLoop_isSome_iff (r.rootSize file) fuel (r.atLeaves file) 0
        have hleaves : (r.atLeaves file).mFile = (file.afterRead 8).afterRead 8 := rfl
        have hrootSize : r.rootSize file = toInt64 (ofLE ((file.afterRead 8).readBytes 8)) := rfl
        rw [hleaves] at hloop
        rw [← hrootSize]
        clear hrootSize hleaves
        generalize r.rootSize file = rootSize at hloop ⊢
        simp only [Option.mem_def, Option.some.injEq, forall_eq', ← hloop]
        cases FileReader.leafLoop fuel (r.atLeaves file) 0 rootSize with
        | none => simp only [Option.isSome_none]
        | some p =>
          obtain ⟨r', ended⟩ := p
          cases ended with
          | false => simp only [Option.isSome_some]
          | true =>
            dsimp only
            split <;> simp only [Option.isSome_some]

/-- **`SetFile` comes back from a file whose leaves grow**, whatever the reader. -/
theorem setFile_ends (r : FileReader) (file : ByteFile) (hgrow : LeavesGrow file) :
    ∃ fuel, (FileReader.setFile fuel r file).isSome := by
  cases hfirst : firstLeaf file with
  | none =>
    refine ⟨0, (setFile_isSome_iff 0 r file).mpr fun root hroot => ?_⟩
    rw [hfirst] at hroot
    cases hroot
  | some root =>
    obtain ⟨fuel, hfuel⟩ := (hgrow root hfirst).ends
    refine ⟨fuel, (setFile_isSome_iff fuel r file).mpr fun root' hroot => ?_⟩
    rw [hfirst] at hroot
    exact Option.some.inj hroot ▸ hfuel

/-- A root with two leaves, one of them without data. -/
def twoLeaves : ByteFile :=
  ⟨toLE 8 eightccRoot ++ toLE 8 40 ++ (toLE 8 eightccFilesize ++ toLE 8 8 ++ toLE 8 7) ++
    (toLE 8 0 ++ toLE 8 0), 0⟩

theorem setFile_ends_twoLeaves :
    ∃ fuel, (FileReader.setFile fuel otherFileReader twoLeaves).isSome := by
  refine setFile_ends otherFileReader twoLeaves ?_
  have hfirst : firstLeaf twoLeaves = some (40, ⟨twoLeaves.data, 16⟩) := by decide
  have hleaf : leafOf ⟨twoLeaves.data, 16⟩ = some (8, ⟨twoLeaves.data, 40⟩) := by
    decide +kernel
  have hlast : leafOf ⟨twoLeaves.data, 40⟩ = some (0, ⟨twoLeaves.data, 56⟩) := by
    decide +kernel
  intro root hroot n
  rw [hfirst] at hroot
  cases hroot
  dsimp only
  match n with
  | 0 => exact ⟨fun _ h => absurd h List.not_mem_nil, by decide⟩
  | 1 =>
    rw [leafSizes_cons hleaf (by decide), leafSizes]
    exact ⟨by decide, by decide⟩
  | n + 2 =>
    rw [leafSizes_cons hleaf (by decide), leafSizes_last hlast (by decide)]
    exact ⟨by decide, by decide⟩

/-- A root of sixteen bytes with one leaf, of size -16. -/
def selfLeaf : ByteFile :=
  ⟨toLE 8 eightccRoot ++ toLE 8 16 ++ toLE 8 0 ++ toLE 8 (2 ^ 64 - 16), 0⟩

/-- **A leaf of size -16 is read forever.** -/
theorem selfLeaf_never_opened :
    ¬ ∃ (r : FileReader) (fuel : Nat), (FileReader.setFile fuel r selfLeaf).isSome = true := by
  rintro ⟨r, fuel, hopened⟩
  have hfirst : firstLeaf selfLeaf = some (16, ⟨selfLeaf.data, 16⟩) := by decide
  have hself : nextLeaf 16 (⟨selfLeaf.data, 16⟩, 0) = some (⟨selfLeaf.data, 16⟩, 0) := by
    decide +kernel
  rw [setFile_isSome_iff] at hopened
  exact not_ends_of_fixed hself ⟨fuel, hopened _ hfirst⟩

/-- The same with a size that wraps the counter, and seeks back by its lower half. -/
def wrapLeaf : ByteFile :=
  ⟨toLE 8 eightccRoot ++ toLE 8 16 ++ toLE 8 0 ++ toLE 8 (2 ^ 63 - 16), 0⟩

/-- **A leaf that wraps the counter is read forever.** -/
theorem wrapLeaf_never_opened :
    ¬ ∃ (r : FileReader) (fuel : Nat), (FileReader.setFile fuel r wrapLeaf).isSome = true := by
  rintro ⟨r, fuel, hopened⟩
  have hfirst : firstLeaf wrapLeaf = some (16, ⟨wrapLeaf.data, 16⟩) := by decide
  have hwraps : nextLeaf 16 (⟨wrapLeaf.data, 16⟩, 0) = some (⟨wrapLeaf.data, 16⟩, -2 ^ 63) := by
    decide +kernel
  have hback : nextLeaf 16 (⟨wrapLeaf.data, 16⟩, -2 ^ 63) = some (⟨wrapLeaf.data, 16⟩, 0) := by
    decide +kernel
  rw [setFile_isSome_iff] at hopened
  exact not_ends_of_cycle hwraps (.step hback) ⟨fuel, hopened _ hfirst⟩

/-- The same with a size that leads back to the root, which is read as a leaf. -/
def backLeaf : ByteFile :=
  ⟨toLE 8 eightccRoot ++ toLE 8 16 ++ toLE 8 0 ++ toLE 8 (2 ^ 64 - 32), 0⟩

/-- **A leaf that leads back may lead on**: whether the leaves grow does not say that the loop
goes on forever. -/
theorem backLeaf_opened : ¬ LeavesGrow backLeaf ∧
    ∀ r, (FileReader.setFile 2 r backLeaf).isSome := by
  have hfirst : firstLeaf backLeaf = some (16, ⟨backLeaf.data, 16⟩) := by decide
  have hleaf : leafOf ⟨backLeaf.data, 16⟩ = some (-32, ⟨backLeaf.data, 0⟩) := by
    decide +kernel
  have hends : iter (nextLeaf 16) 2 (⟨backLeaf.data, 16⟩, 0) = none := by
    decide +kernel
  refine ⟨fun hgrow => ?_, fun r => (setFile_isSome_iff 2 r backLeaf).mpr fun root hroot => ?_⟩
  · exact absurd ((hgrow _ hfirst).leaf hleaf).1 (by decide)
  · rw [hfirst] at hroot
    cases hroot
    exact hends

end DWindow.E3D
