import DWindow.Mvc.Split

/-!
# Splitting a stream, and splitting what was written

Repeated calls of `read_a_delimeter` give the access units of the stream, and the
file that `main` writes gives them again, as long as the search sees the end of every
unit.
-/

namespace DWindow.Mvc

theorem takeUnit_append (started : Bool) (ns : List (List UInt8)) :
    (takeUnit started ns).1 ++ (takeUnit started ns).2 = ns := by
  induction ns generalizing started with
  | nil => rfl
  | cons n ns ih =>
    rw [takeUnit]
    split
    · rfl
    · exact congrArg (n :: ·) (ih (started || isDelimiter n))

theorem takeUnit_delimiter (started : Bool) (ns : List (List UInt8)) :
    ∀ n ∈ (takeUnit started ns).2.head?, isDelimiter n = true := by
  induction ns generalizing started with
  | nil => simp [takeUnit]
  | cons n ns ih =>
    rw [takeUnit]
    split
    · next h => simpa using (Bool.and_eq_true_iff.mp h).2
    · exact ih (started || isDelimiter n)

theorem takeUnit_cons (n : List UInt8) (ns : List (List UInt8)) :
    takeUnit false (n :: ns) =
      (n :: (takeUnit (isDelimiter n) ns).1, (takeUnit (isDelimiter n) ns).2) := by
  simp [takeUnit]

theorem takeUnit_length (n : List UInt8) (ns : List (List UInt8)) :
    (takeUnit false (n :: ns)).2.length ≤ ns.length := by
  have := congrArg List.length (takeUnit_append (isDelimiter n) ns)
  rw [List.length_append] at this
  rw [takeUnit_cons]
  dsimp only
  omega

theorem accessUnitsLoop_cons (fuel : Nat) (n : List UInt8) (ns : List (List UInt8)) :
    accessUnitsLoop (fuel + 1) (n :: ns) =
      (takeUnit false (n :: ns)).1 :: accessUnitsLoop fuel (takeUnit false (n :: ns)).2 :=
  if_neg (List.cons_ne_nil n ns)

theorem accessUnitsLoop_nil (fuel : Nat) : accessUnitsLoop fuel [] = [] := by
  cases fuel <;> rfl

theorem flatten_accessUnitsLoop {fuel : Nat} {ns : List (List UInt8)} (h : ns.length ≤ fuel) :
    (accessUnitsLoop fuel ns).flatten = ns := by
  induction fuel generalizing ns with
  | zero =>
    obtain rfl : ns = [] := List.length_eq_zero_iff.mp (by omega)
    rfl
  | succ fuel ih =>
    cases ns with
    | nil => rfl
    | cons n ns =>
      have := takeUnit_length n ns
      rw [List.length_cons] at h
      rw [accessUnitsLoop_cons, List.flatten_cons, ih (by omega), takeUnit_append]

theorem accessUnitsLoop_delimiter {fuel : Nat} {ns : List (List UInt8)}
    (hhead : ∀ n ∈ ns.head?, isDelimiter n = true) :
    ∀ g ∈ accessUnitsLoop fuel ns, ∃ n t, g = n :: t ∧ isDelimiter n = true := by
  induction fuel generalizing ns with
  | zero => simp [accessUnitsLoop]
  | succ fuel ih =>
    cases ns with
    | nil => simp [accessUnitsLoop_nil]
    | cons n ns =>
      intro g hg
      rw [accessUnitsLoop_cons] at hg
      rcases List.mem_cons.mp hg with rfl | hg
      · exact ⟨n, _, by rw [takeUnit_cons], hhead n (by simp)⟩
      · exact ih (takeUnit_delimiter false (n :: ns)) g hg

theorem accessUnitsLoop_tail {fuel : Nat} {ns : List (List UInt8)} :
    ∀ g ∈ (accessUnitsLoop fuel ns).tail, ∃ n t, g = n :: t ∧ isDelimiter n = true := by
  cases fuel with
  | zero => simp [accessUnitsLoop]
  | succ fuel =>
    cases ns with
    | nil => simp [accessUnitsLoop_nil]
    | cons n ns =>
      rw [accessUnitsLoop_cons, List.tail_cons]
      exact accessUnitsLoop_delimiter (takeUnit_delimiter false (n :: ns))

/-- What is kept of a chain: start codes of four bytes, and no unit of type 31. -/
theorem Chained.kept {ns : List (List UInt8)} (h : Chained ns) :
    ∀ n ∈ Mvc.kept ns, FourCoded n ∧ unitType n ≠ 31 := by
  induction ns with
  | nil => simp [Mvc.kept]
  | cons n ns ih =>
    by_cases h31 : unitType n = 31
    · rw [kept_cons_dropped ns h31]
      exact ih h.tail
    · intro m hm
      rw [kept_cons ns h31] at hm
      rcases List.mem_cons.mp hm with rfl | hm
      · refine ⟨?_, by rwa [unitType_widen h.1]⟩
        have hcode := h.no_code
        rcases isStartCode_iff.mp h.1 with ⟨r, rfl⟩ | ⟨r, rfl⟩
        · refine ⟨r, rfl, ?_⟩
          rw [List.drop_succ_cons, List.drop_succ_cons, List.drop_succ_cons, List.drop_zero,
            nextStartCode] at hcode
          split at hcode
          · cases hcode
          · exact Option.map_eq_none_iff.mp hcode
        · exact ⟨r, rfl, hcode⟩
      · exact ih h.tail m hm

/-- What is kept stays as it is. -/
theorem kept_eq_self {ks : List (List UInt8)} (h : ∀ n ∈ ks, FourCoded n ∧ unitType n ≠ 31) :
    kept ks = ks := by
  induction ks with
  | nil => rfl
  | cons n ks ih =>
    obtain ⟨⟨r, rfl, -⟩, h31⟩ := h n (by simp)
    rw [kept_cons ks h31, ih (fun m hm => h m (by simp [hm]))]
    rfl

theorem Chained.suffix {ns rest : List (List UInt8)} (h : Chained ns) (hr : rest <:+ ns) :
    Chained rest := by
  induction ns with
  | nil => rwa [List.suffix_nil.mp hr]
  | cons n ns ih =>
    rcases List.suffix_cons_iff.mp hr with rfl | hr
    · exact h
    · exact ih h.tail hr

theorem AllSeen.suffix {ns rest : List (List UInt8)} (h : AllSeen ns) (hr : rest <:+ ns) :
    AllSeen rest := by
  induction ns with
  | nil => rwa [List.suffix_nil.mp hr]
  | cons n ns ih =>
    rcases List.suffix_cons_iff.mp hr with rfl | hr
    · exact h
    · exact ih h.2 hr

theorem Chained.length_suffix {ns rest : List (List UInt8)} (h : Chained ns) (hr : rest <:+ ns)
    (hne : rest ≠ ns) : rest.flatten.length < ns.flatten.length := by
  obtain ⟨l, rfl⟩ := hr
  cases l with
  | nil => exact absurd rfl hne
  | cons n l =>
    have : 3 ≤ n.length := isStartCode_length h.1
    rw [List.cons_append, List.flatten_cons, List.flatten_append, List.length_append,
      List.length_append]
    omega

theorem readDelimetersLoop_succ {rest delimeter behind : List UInt8}
    (h : delimeterBytes rest = some (delimeter, behind)) (fuel : Nat) :
    readDelimetersLoop (fuel + 1) rest =
      if delimeter.length = 0 then some []
      else (readDelimetersLoop fuel behind).map (delimeter :: ·) := by
  rw [readDelimetersLoop, h]
  rfl

/-- Repeated calls on a chain whose units are seen whole: the access units of what is
kept. -/
theorem readDelimetersLoop_chained {fuel k : Nat} {ns : List (List UInt8)} (h : Chained ns)
    (hseen : AllSeen ns) (hfuel : ns.flatten.length < fuel) (hk : (kept ns).length ≤ k)
    (hfit : ∀ g ∈ accessUnitsLoop k (kept ns), g.flatten.length ≤ maxNalSize) :
    readDelimetersLoop fuel ns.flatten = some ((accessUnitsLoop k (kept ns)).map List.flatten) := by
  induction fuel generalizing ns k with
  | zero => omega
  | succ fuel ih =>
    have hrun := delimeterBytesLoop_chained h hseen (Nat.lt_succ_self ns.flatten.length) false []
    have hkept := h.kept
    cases hks : kept ns with
    | nil =>
      obtain ⟨rest, -, -, hloop⟩ := hrun (by simp [hks, takeUnit])
      rw [readDelimetersLoop_succ hloop, hks, accessUnitsLoop_nil]
      rfl
    | cons n ks =>
      rw [hks] at hk hfit hrun hkept
      obtain ⟨k, rfl⟩ : ∃ m, k = m + 1 := by
        rw [List.length_cons] at hk
        exact ⟨k - 1, by omega⟩
      rw [accessUnitsLoop_cons] at hfit ⊢
      obtain ⟨rest, hrest, hkr, hloop⟩ := hrun (by simpa using hfit _ List.mem_cons_self)
      have hshort := takeUnit_length n ks
      have hne : rest ≠ ns := by
        rintro rfl
        rw [hks] at hkr
        rw [← hkr, List.length_cons] at hshort
        omega
      have hlt := h.length_suffix hrest hne
      have hlong : (takeUnit false (n :: ks)).1.flatten.length ≠ 0 := by
        obtain ⟨⟨r, rfl, -⟩, -⟩ := hkept n (by simp)
        simp [takeUnit_cons]
      rw [List.length_cons] at hk
      rw [List.nil_append] at hloop
      rw [readDelimetersLoop_succ hloop, if_neg hlong, ← hkr,
        ih (k := k) (h.suffix hrest) (hseen.suffix hrest) (by omega) (by rw [hkr]; omega)
          (fun g hg => hfit g (List.mem_cons_of_mem _ (by rwa [← hkr])))]
      rfl

/-- The muxing loop writes each unit with a watermark behind it, and a last
watermark. -/
theorem muxLoop_eq (fuel : Nat) (rest outBuffer file : List UInt8) :
    muxLoop fuel rest outBuffer file = (readDelimetersLoop fuel rest).map (fun us =>
      file ++ outBuffer ++ us.flatMap (· ++ watermark) ++ watermark) := by
  induction fuel generalizing rest outBuffer file with
  | zero => rfl
  | succ fuel ih =>
    rw [muxLoop, readDelimetersLoop]
    cases delimeterBytes rest with
    | none => rfl
    | some r =>
      obtain ⟨delimeter, rest⟩ := r
      simp only [Option.bind_eq_bind, Option.bind_some]
      by_cases hend : delimeter.length = 0
      · rw [if_pos hend, if_pos hend, List.length_eq_zero_iff.mp hend]
        split <;> simp
      · rw [if_neg hend, if_neg hend, ih, Option.map_map]
        congr 1
        funext us
        split <;> simp

end DWindow.Mvc
