import DWindow.Lib.Cut

/-!
# Fields of a line

`wcsexplode` takes fields off the front of a string, `maxPart` at most; the last one is all that
is left.  When the string ends with the delimiter there is no empty field behind it.  So what
is stored is the string split at most `maxPart - 1` times, less an empty part at its end:
`explodeFrom_eq`.  The fields joined with the delimiter give back the string, without the
delimiter that ends it where that has been cut off: `wcsexplode_rejoins`.  A string that is
not longer than the delimiter is stored as it is, and counted as nothing.
-/

namespace DWindow.Net

open Cut

variable {α : Type*} [DecidableEq α]

/-- The loop of `wcsexplode`, which may still take `n` fields. -/
def explodeFrom (delimeter : List α) : Nat → List α → List (List α)
  | 0, str => [str]
  | n + 1, str =>
    match cut delimeter str with
    | none => [str]
    | some (field, rest) => field :: if rest = [] then [] else explodeFrom delimeter n rest

/-- `wcsexplode`: what it stores in `out`. -/
def wcsexplode (stringToExplode delimeter : List α) (maxPart : Nat) : List (List α) :=
  if delimeter.length = 0 ∨ stringToExplode.length ≤ delimeter.length then [stringToExplode]
  else explodeFrom delimeter (maxPart - 1) stringToExplode

/-- **The fields that are taken are those between the delimiters.** -/
theorem take_explodeFrom_prefix (d : α) : ∀ (n : Nat) (str : List α),
    (explodeFrom [d] n str).take n <+: str.splitOn d := by
  intro n
  induction n with
  | zero =>
    intro str
    exact List.nil_prefix
  | succ n ih =>
    intro str
    rw [explodeFrom]
    cases hcut : cut [d] str with
    | none =>
      rw [List.splitOn_eq_singleton (cut_singleton_eq_none.mp hcut), List.take_succ_cons,
        List.take_nil]
    | some r =>
      obtain ⟨field, rest⟩ := r
      obtain ⟨hfield, rfl⟩ := cut_singleton_eq_some.mp hcut
      rw [List.splitOn_append_cons_self_of_not_mem hfield, List.take_succ_cons,
        List.prefix_cons_inj]
      split
      · rw [List.take_nil]
        exact List.nil_prefix
      · exact ih rest

theorem splitOn_of_wcsexplode {d : α} {str first second : List α} {more : List (List α)}
    {maxPart : Nat} (hparts : 3 ≤ maxPart)
    (h : wcsexplode str [d] maxPart = first :: second :: more) :
    ∃ more, str.splitOn d = first :: second :: more := by
  rw [wcsexplode] at h
  split at h
  · cases h
  · obtain ⟨n, hn⟩ : ∃ n, maxPart - 1 = n + 2 := ⟨maxPart - 3, by omega⟩
    obtain ⟨rest, hrest⟩ := take_explodeFrom_prefix d (maxPart - 1) str
    rw [h, hn, List.take_succ_cons, List.take_succ_cons] at hrest
    exact ⟨_, hrest.symm⟩

/-! ## Fields joined again -/

/-- The number that `wcsexplode` returns. -/
def wcsexplodeCount (stringToExplode delimeter : List α) (maxPart : Nat) : Nat :=
  if delimeter.length = 0 ∨ stringToExplode.length ≤ delimeter.length then 0
  else (explodeFrom delimeter (maxPart - 1) stringToExplode).length

/-- A delimiter that is cut off, one of the first `maxPart - 1`, ends the string. -/
def DelTail (stringToExplode delimeter : List α) (maxPart : Nat) : Prop :=
  (split delimeter (maxPart - 1) stringToExplode).getLast? = some []

instance (stringToExplode delimeter : List α) (maxPart : Nat) :
    Decidable (DelTail stringToExplode delimeter maxPart) :=
  inferInstanceAs (Decidable (_ = _))

/-- Splitting and joining are inverse: the count is one of `1` to `maxPart`, the fields joined
give back the string, and the delimiter is in no field but the last. -/
structure Rejoins (stringToExplode delimeter : List α) (maxPart : Nat) : Prop where
  pos : 1 ≤ wcsexplodeCount stringToExplode delimeter maxPart
  le : wcsexplodeCount stringToExplode delimeter maxPart ≤ maxPart
  join : delimeter.intercalate ((wcsexplode stringToExplode delimeter maxPart).take
    (wcsexplodeCount stringToExplode delimeter maxPart)) = stringToExplode
  free : ∀ field ∈ ((wcsexplode stringToExplode delimeter maxPart).take
    (wcsexplodeCount stringToExplode delimeter maxPart)).dropLast, ¬delimeter <:+: field

theorem split_nil {delimeter : List α} (h : delimeter ≠ []) (n : Nat) :
    split delimeter n [] = [[]] := by
  cases n with
  | zero => rfl
  | succ n => rw [split, cut, if_neg h]

/-- **What is stored** is the string split, less an empty part at its end. -/
theorem explodeFrom_eq {delimeter : List α} (h : delimeter ≠ []) : ∀ (n : Nat) (str : List α),
    str ≠ [] → explodeFrom delimeter n str =
      if (split delimeter n str).getLast? = some [] then (split delimeter n str).dropLast
      else split delimeter n str := by
  intro n
  induction n with
  | zero =>
    intro str hstr
    rw [explodeFrom, split, List.getLast?_singleton, if_neg (by simpa using hstr)]
  | succ n ih =>
    intro str hstr
    rw [explodeFrom, split]
    cases hcut : cut delimeter str with
    | none => simp [hstr]
    | some r =>
      obtain ⟨field, rest⟩ := r
      have hne := split_ne_nil delimeter n rest
      dsimp only
      rw [List.getLast?_cons_of_ne_nil hne, List.dropLast_cons_of_ne_nil hne]
      by_cases hrest : rest = []
      · simp [hrest, split_nil h]
      · rw [if_neg hrest, ih rest hrest]
        split
        · rfl
        · rfl

section Rejoin

variable {stringToExplode delimeter : List α}

theorem take_wcsexplode (maxPart : Nat) (hdel : delimeter ≠ [])
    (hlen : delimeter.length < stringToExplode.length) :
    wcsexplodeCount stringToExplode delimeter maxPart =
        (wcsexplode stringToExplode delimeter maxPart).length ∧
      wcsexplode stringToExplode delimeter maxPart =
        if DelTail stringToExplode delimeter maxPart then
          (split delimeter (maxPart - 1) stringToExplode).dropLast
        else split delimeter (maxPart - 1) stringToExplode := by
  have hguard : ¬(delimeter.length = 0 ∨ stringToExplode.length ≤ delimeter.length) := by
    rw [List.length_eq_zero_iff]
    rintro (h | h)
    · exact hdel h
    · omega
  have hstr : stringToExplode ≠ [] := by
    rintro rfl
    exact absurd hlen (Nat.not_lt_zero _)
  rw [wcsexplodeCount, wcsexplode, if_neg hguard, if_neg hguard]
  refine ⟨rfl, ?_⟩
  rw [explodeFrom_eq hdel _ _ hstr]
  rfl

end Rejoin

/-- **Fields joined again** give back a string that is longer than the delimiter, without the
delimiter that ends it where that is one of those cut off. -/
theorem wcsexplode_rejoins (stringToExplode delimeter : List α) (maxPart : Nat)
    (hdel : delimeter ≠ []) (hmax : 1 ≤ maxPart)
    (hlen : delimeter.length < stringToExplode.length) :
    (¬DelTail stringToExplode delimeter maxPart → Rejoins stringToExplode delimeter maxPart) ∧
    (DelTail stringToExplode delimeter maxPart →
      1 ≤ wcsexplodeCount stringToExplode delimeter maxPart ∧
      wcsexplodeCount stringToExplode delimeter maxPart < maxPart ∧
      delimeter.intercalate ((wcsexplode stringToExplode delimeter maxPart).take
        (wcsexplodeCount stringToExplode delimeter maxPart)) ++ delimeter = stringToExplode ∧
      ∀ field ∈ (wcsexplode stringToExplode delimeter maxPart).take
        (wcsexplodeCount stringToExplode delimeter maxPart), ¬delimeter <:+: field) := by
  obtain ⟨hcount, hfields⟩ := take_wcsexplode maxPart hdel hlen
  have hle := length_split_le delimeter (maxPart - 1) stringToExplode
  have hjoin := intercalate_split delimeter (maxPart - 1) stringToExplode
  have hfree := not_infix_of_mem_split hdel (maxPart - 1) stringToExplode
  have hne := split_ne_nil delimeter (maxPart - 1) stringToExplode
  have hpos := List.length_pos_iff.mpr hne
  constructor
  · intro htail
    rw [if_neg htail] at hfields
    have hlength : wcsexplodeCount stringToExplode delimeter maxPart =
        (split delimeter (maxPart - 1) stringToExplode).length := by rw [hcount, hfields]
    refine ⟨by omega, by omega, ?_, ?_⟩
    · rw [hcount, List.take_length, hfields, hjoin]
    · rw [hcount, List.take_length, hfields]
      exact hfree
  · intro htail
    rw [if_pos htail] at hfields
    have hsome : (split delimeter (maxPart - 1) stringToExplode).dropLast ≠ [] := by
      intro hnil
      have hone : (split delimeter (maxPart - 1) stringToExplode).dropLast.length =
          (split delimeter (maxPart - 1) stringToExplode).length - 1 := List.length_dropLast
      rw [hnil, List.length_nil] at hone
      obtain ⟨part, hpart⟩ := List.length_eq_one_iff.mp
        (show (split delimeter (maxPart - 1) stringToExplode).length = 1 by omega)
      rw [DelTail, hpart, List.getLast?_singleton] at htail
      rw [hpart, Option.some.inj htail, List.intercalate_singleton] at hjoin
      rw [← hjoin] at hlen
      exact Nat.not_lt_zero _ hlen
    have hlength : wcsexplodeCount stringToExplode delimeter maxPart =
        (split delimeter (maxPart - 1) stringToExplode).length - 1 := by
      rw [hcount, hfields, List.length_dropLast]
    have hsomepos := List.length_pos_iff.mpr hsome
    rw [List.length_dropLast] at hsomepos
    refine ⟨by omega, by omega, ?_, ?_⟩
    · rw [hcount, List.take_length, hfields, intercalate_dropLast htail hsome, hjoin]
    · rw [hcount, List.take_length, hfields]
      exact hfree

/-- `a|b|` is split into `a` and `b`, in units. -/
theorem del_tail_dropped : wcsexplode ([97, 124, 98, 124] : List UInt16) [124] 5 = [[97], [98]] ∧
    wcsexplodeCount ([97, 124, 98, 124] : List UInt16) [124] 5 = 2 ∧
    ¬Rejoins ([97, 124, 98, 124] : List UInt16) [124] 5 := by
  refine ⟨by decide, by decide, fun h => ?_⟩
  exact absurd h.join (by decide)

/-- `a|b` is split into `a` and `b` as well. -/
theorem wcsexplode_rejoins_two : Rejoins ([97, 124, 98] : List UInt16) [124] 5 :=
  (wcsexplode_rejoins [97, 124, 98] [124] 5 (by decide) (by decide) (by decide)).1 (by decide)

end DWindow.Net
