import DWindow.E3D.Extents

/-!
# Where a seek leads

`SetFilePointerEx` passes a seek on to the file while nothing is decrypted, and does it by
itself on `m_pos` once it is.  There a seek from the end leads to the end, whatever the
distance, and a sum that an `__int64` cannot hold is a negative target.  For all other seeks
the two are one (`seeksAsMeant_iff`).
-/

namespace DWindow.E3D

open CInt

namespace FileReader

/-- The position that a seek in the plain text means. -/
def meant (r : FileReader) (distance : Int) : MoveMethod → Int
  | .SEEK_SET => distance
  | .SEEK_CUR => r.mPos + distance
  | .SEEK_END => r.mFileSize + distance

/-- The seek leads where it means and reports it, or fails on a negative target. -/
def LeadsThere (r : FileReader) (distance : Int) (method : MoveMethod) : Prop :=
  r.setFilePointerEx distance method =
    if r.meant distance method < 0 then (r, none)
    else ({ r with mPos := r.meant distance method }, some (r.meant distance method))

/-- A reader that passes its calls on to a file of the same size, at the same position. -/
structure PassesOn (r plain : FileReader) : Prop where
  passes : plain.decrypting = false
  size : (plain.mFile.data.length : Int) = r.mFileSize
  pos : (plain.mFile.pos : Int) = r.mPos

/-- The seek answers what the file would, and ends where the file would. -/
def AgreesWith (r plain : FileReader) (distance : Int) (method : MoveMethod) : Prop :=
  (plain.setFilePointerEx distance method).2 = (r.setFilePointerEx distance method).2 ∧
    ((plain.setFilePointerEx distance method).1.mFile.pos : Int) =
      (r.setFilePointerEx distance method).1.mPos

/-- A seek leads where it means, and so does it on the decrypted file. -/
def SeeksAsMeant (r : FileReader) (distance : Int) (method : MoveMethod) : Prop :=
  r.LeadsThere distance method ∧
    ∀ plain, r.PassesOn plain → r.AgreesWith plain distance method

/-- The target from the current position is an `__int64`, and a seek from the end does not
move away from it, unless the size is negative and the target is, too. -/
def SeekFits (r : FileReader) (distance : Int) : MoveMethod → Prop
  | .SEEK_SET => True
  | .SEEK_CUR => r.mPos + distance < 2 ^ 63
  | .SEEK_END => distance = 0 ∨ r.mFileSize < 0 ∧ r.mFileSize + distance < 0

variable {r : FileReader} {distance : Int} {method : MoveMethod}

theorem leadsThere_iff (h : r.decrypting = true) : r.LeadsThere distance method ↔
    r.target distance method = r.meant distance method ∨
      r.target distance method < 0 ∧ r.meant distance method < 0 := by
  rw [LeadsThere, setFilePointerEx_decrypting h]
  constructor
  · intro heq
    have hreply := congrArg Prod.snd heq
    split at hreply
    · rename_i htarget
      split at hreply
      · rename_i hmeant
        exact Or.inr ⟨htarget, hmeant⟩
      · cases hreply
    · split at hreply
      · cases hreply
      · exact Or.inl (Option.some.inj hreply)
  · rintro (heq | ⟨htarget, hmeant⟩)
    · rw [heq]
    · rw [if_pos htarget, if_pos hmeant]

theorem target_eq_meant_iff (h : r.Accepted) (hge : -2 ^ 63 ≤ distance) (hlt : distance < 2 ^ 63) :
    (r.target distance method = r.meant distance method ∨
      r.target distance method < 0 ∧ r.meant distance method < 0) ↔ r.SeekFits distance method := by
  have h0 := h.pos_nonneg
  have hpos := h.pos_lt
  cases method with
  | SEEK_SET => exact ⟨fun _ => trivial, fun _ => Or.inl rfl⟩
  | SEEK_CUR =>
    unfold target meant SeekFits
    dsimp only
    by_cases hfits : r.mPos + distance < 2 ^ 63
    · exact ⟨fun _ => hfits, fun _ => Or.inl (toInt64_of_lt (by omega) hfits)⟩
    · have hwrap := toInt64_of_ge (Int.not_lt.mp hfits) (by omega)
      constructor <;> omega
  | SEEK_END =>
    unfold target meant SeekFits
    dsimp only
    omega

/-- A seek that leads where it means agrees with the file. -/
theorem LeadsThere.agrees (h : r.LeadsThere distance method) {plain : FileReader}
    (hplain : r.PassesOn plain) : r.AgreesWith plain distance method := by
  have htarget : seekTarget plain.mFile distance method = r.meant distance method := by
    have hsize := hplain.size
    have hpos := hplain.pos
    cases method with
    | SEEK_SET => rfl
    | SEEK_CUR => exact congrArg (· + distance) hpos
    | SEEK_END => exact congrArg (· + distance) hsize
  rw [LeadsThere] at h
  rw [AgreesWith, h, setFilePointerEx_plain hplain.passes, htarget]
  split
  · exact ⟨rfl, hplain.pos⟩
  · rename_i hmeant
    exact ⟨rfl, Int.toNat_of_nonneg (Int.not_lt.mp hmeant)⟩

/-- **A seek leads where it means, as on the decrypted file, exactly where it fits.** -/
theorem seeksAsMeant_iff (r : FileReader) (distance : Int) (method : MoveMethod) (h : r.Accepted)
    (hge : -2 ^ 63 ≤ distance) (hlt : distance < 2 ^ 63) :
    r.SeeksAsMeant distance method ↔ r.SeekFits distance method := by
  rw [← target_eq_meant_iff h hge hlt, ← leadsThere_iff h.decrypting]
  exact ⟨And.left, fun hleads => ⟨hleads, fun _ hplain => hleads.agrees hplain⟩⟩

/-- One byte back. -/
theorem seeksAsMeant_iff_three : (threeByteReaderAt 2).SeeksAsMeant (-1) .SEEK_CUR ↔
    (threeByteReaderAt 2).SeekFits (-1) .SEEK_CUR :=
  seeksAsMeant_iff (threeByteReaderAt 2) (-1) .SEEK_CUR
    (accepted_threeByteReaderAt (by decide) (by decide)) (by decide) (by decide)

/-- **A seek to the last byte leads behind it.** -/
theorem seek_from_end :
    ((threeByteReaderAt 0).setFilePointerEx (-1) .SEEK_END).2 = some 3 ∧
    ¬ ∀ (r : FileReader) (distance : Int) (method : MoveMethod), r.Accepted →
      -2 ^ 63 ≤ distance → distance < 2 ^ 63 → r.SeeksAsMeant distance method := by
  have hreply : ((threeByteReaderAt 0).setFilePointerEx (-1) .SEEK_END).2 = some 3 := by
    decide +kernel
  refine ⟨hreply, fun hall => ?_⟩
  have hleads := (hall (threeByteReaderAt 0) (-1) .SEEK_END
    (accepted_threeByteReaderAt (by decide) (by decide)) (by decide) (by decide)).1
  rw [LeadsThere, if_neg (by decide +kernel)] at hleads
  rw [hleads] at hreply
  exact absurd hreply (by decide +kernel)

end FileReader

end DWindow.E3D
