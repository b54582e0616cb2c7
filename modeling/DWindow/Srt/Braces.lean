import DWindow.Lib.Groups
import DWindow.Lib.Orbit
import DWindow.Srt.Ass
import Mathlib.Data.List.GetD
import Mathlib.Logic.Function.Basic

/-!
# The loop that removes `{XXX}`

`handle_line` looks for the first `{` and the first `}` of a dialogue text and copies what
stands behind the one to the other, character by character and in place.  It asks for both of
them, but not for their order.  A `}` just in front of the first `{` copies the text onto
itself, and one farther in front copies what it has written, so that the terminator of the text
is overwritten before it is read; neither loop ends.  It ends exactly when the braces come in
their order (`bracesEnd_iff`), and then the line is what `removeGroups` leaves.
-/

namespace DWindow.Srt.Braces

open Groups Orbit WString

/-! ## The loop -/

/-- What the loop is at: `wcsstr` for one brace or the other, or `wcscpy`. -/
inductive Phase
  | findOpen (p : Nat)
  | findClose (l : Option Nat) (p : Nat)
  | copy (dst src : Nat)
deriving DecidableEq, Repr

/-- The memory from `line` on, and where the loop is. -/
structure State where
  mem : Nat → UInt16
  phase : Phase

/-- One character; no result is the end of the loop. -/
def step (s : State) : Option State :=
  match s.phase with
  | .findOpen p =>
    if s.mem p = 123 then some { s with phase := .findClose (some p) 0 }
    else if s.mem p = 0 then some { s with phase := .findClose none 0 }
    else some { s with phase := .findOpen (p + 1) }
  | .findClose l p =>
    if s.mem p = 125 then l.map fun l => { s with phase := .copy l (p + 1) }
    else if s.mem p = 0 then none
    else some { s with phase := .findClose l (p + 1) }
  | .copy dst src =>
    some ⟨Function.update s.mem dst (s.mem src),
      if s.mem src = 0 then .findOpen 0 else .copy (dst + 1) (src + 1)⟩

/-- The string at the front of a memory. -/
def Holds (mem : Nat → UInt16) (line : List UInt16) : Prop :=
  (0 : UInt16) ∉ line ∧ ∀ i ≤ line.length, mem i = line.getD i 0

/-- **Brace removal ends**, and leaves a line that is not longer. -/
structure BracesEnd (mem : Nat → UInt16) (line : List UInt16) : Prop where
  ends : Ends step ⟨mem, .findOpen 0⟩
  notLonger : ∀ s, Reaches step ⟨mem, .findOpen 0⟩ s → step s = none →
    ∃ left, Holds s.mem left ∧ left.length ≤ line.length

/-! ## Searching -/

variable {mem : Nat → UInt16} {line a b rest : List UInt16}

theorem Holds.get (h : Holds mem (a ++ rest)) {i : Nat} (hi : i < a.length) : mem i ∈ a := by
  rw [h.2 i (by rw [List.length_append]; omega), List.getD_append _ _ _ _ hi,
    List.getD_eq_getElem _ _ hi]
  exact List.getElem_mem hi

theorem Holds.next {x : UInt16} (h : Holds mem (a ++ x :: rest)) : mem a.length = x := by
  rw [h.2 _ (by simp), List.getD_append_right _ _ _ _ (Nat.le_refl _), Nat.sub_self]
  rfl

theorem Holds.terminator (h : Holds mem line) : mem line.length = 0 := by
  rw [h.2 _ (Nat.le_refl _), List.getD_eq_default _ _ (Nat.le_refl _)]

theorem Holds.ne_zero (h : Holds mem line) {i : Nat} (hi : i < line.length) : mem i ≠ 0 := by
  intro h0
  have hget : mem i ∈ line := by
    have happ : Holds mem (line ++ []) := by rwa [List.append_nil]
    exact happ.get hi
  rw [h0] at hget
  exact h.1 hget

theorem reaches_search (phase : Nat → Phase) {n : Nat}
    (hgo : ∀ p < n, step ⟨mem, phase p⟩ = some ⟨mem, phase (p + 1)⟩) :
    Reaches step ⟨mem, phase 0⟩ ⟨mem, phase n⟩ := by
  induction n with
  | zero => exact .refl _
  | succ n ih =>
    exact (ih fun p hp => hgo p (by omega)).trans (.step (hgo n (by omega)))

theorem reaches_findOpen {n : Nat} (h : ∀ p < n, mem p ≠ 123 ∧ mem p ≠ 0) :
    Reaches step ⟨mem, .findOpen 0⟩ ⟨mem, .findOpen n⟩ := by
  refine reaches_search .findOpen fun p hp => ?_
  simp only [step]
  rw [if_neg (h p hp).1, if_neg (h p hp).2]

theorem reaches_findClose (l : Option Nat) {n : Nat} (h : ∀ p < n, mem p ≠ 125 ∧ mem p ≠ 0) :
    Reaches step ⟨mem, .findClose l 0⟩ ⟨mem, .findClose l n⟩ := by
  refine reaches_search (.findClose l) fun p hp => ?_
  simp only [step]
  rw [if_neg (h p hp).1, if_neg (h p hp).2]

theorem Holds.opens (h : Holds mem (a ++ 123 :: rest)) (ha : 123 ∉ a) :
    Reaches step ⟨mem, .findOpen 0⟩ ⟨mem, .findClose (some a.length) 0⟩ := by
  refine (reaches_findOpen fun p hp => ⟨fun hp' => ha (hp' ▸ h.get hp), ?_⟩).trans (.step ?_)
  · exact h.ne_zero (by rw [List.length_append]; omega)
  · simp only [step]
    rw [if_pos h.next]

theorem Holds.not_opens (h : Holds mem line) (ho : 123 ∉ line) :
    Reaches step ⟨mem, .findOpen 0⟩ ⟨mem, .findClose none 0⟩ := by
  have happ : Holds mem (line ++ []) := by rwa [List.append_nil]
  refine (reaches_findOpen fun p hp => ⟨fun hp' => ho (hp' ▸ happ.get hp), h.ne_zero hp⟩).trans
    (.step ?_)
  simp only [step]
  rw [if_neg (by rw [h.terminator]; decide), if_pos h.terminator]

/-- The search for the first `}`, behind a `{` that was found. -/
theorem Holds.closes (h : Holds mem (a ++ 125 :: rest)) (ha : 125 ∉ a) (l : Nat) :
    Reaches step ⟨mem, .findClose (some l) 0⟩ ⟨mem, .copy l (a.length + 1)⟩ := by
  refine (reaches_findClose (some l) fun p hp => ⟨fun hp' => ha (hp' ▸ h.get hp), ?_⟩).trans
    (.step ?_)
  · exact h.ne_zero (by rw [List.length_append]; omega)
  · simp only [step]
    rw [if_pos h.next]
    rfl

theorem Holds.stops (h : Holds mem line) (hline : 123 ∉ line ∨ 125 ∉ line) :
    ∃ phase, Reaches step ⟨mem, .findOpen 0⟩ ⟨mem, phase⟩ ∧ step ⟨mem, phase⟩ = none := by
  have hlast : ∀ l, 125 ∉ line → Reaches step ⟨mem, .findClose l 0⟩
      ⟨mem, .findClose l line.length⟩ ∧ step ⟨mem, .findClose l line.length⟩ = none := by
    intro l hc
    have happ : Holds mem (line ++ []) := by rwa [List.append_nil]
    refine ⟨reaches_findClose l fun p hp => ⟨fun hp' => hc (hp' ▸ happ.get hp), h.ne_zero hp⟩, ?_⟩
    simp only [step]
    rw [if_neg (by rw [h.terminator]; decide), if_pos h.terminator]
  by_cases hc : (125 : UInt16) ∈ line
  · have ho := hline.resolve_right (not_not.mpr hc)
    obtain ⟨a, rest, rfl, ha⟩ := List.eq_append_cons_of_mem hc
    refine ⟨.findClose none a.length, (h.not_opens ho).trans ?_, ?_⟩
    · exact reaches_findClose none fun p hp => ⟨fun hp' => ha (hp' ▸ h.get hp),
        h.ne_zero (by rw [List.length_append]; omega)⟩
    · simp only [step]
      rw [if_pos h.next]
      rfl
  · by_cases ho : (123 : UInt16) ∈ line
    · obtain ⟨a, rest, rfl, ha⟩ := List.eq_append_cons_of_mem ho
      exact ⟨_, (h.opens ha).trans (hlast _ hc).1, (hlast _ hc).2⟩
    · exact ⟨_, (h.not_opens ho).trans (hlast _ hc).1, (hlast _ hc).2⟩

/-! ## Copying -/

/-- The memory after `n` characters. -/
def copied (mem : Nat → UInt16) (dst src n : Nat) : Nat → UInt16 := fun p =>
  if dst ≤ p ∧ p < dst + n then mem (src + (p - dst)) else mem p

theorem step_copy {dst src : Nat} (h : mem src ≠ 0) : step ⟨mem, .copy dst src⟩ =
    some ⟨Function.update mem dst (mem src), .copy (dst + 1) (src + 1)⟩ := by
  simp only [step, if_neg h]

theorem step_copy_last {dst src : Nat} (h : mem src = 0) : step ⟨mem, .copy dst src⟩ =
    some ⟨Function.update mem dst (mem src), .findOpen 0⟩ := by
  simp only [step, if_pos h]

theorem update_copied {dst src n : Nat} (hlt : dst < src) :
    Function.update (copied mem dst src n) (dst + n) (copied mem dst src n (src + n)) =
      copied mem dst src (n + 1) := by
  funext p
  by_cases hp : p = dst + n
  · rw [hp, Function.update_self, copied, copied, if_neg (by omega), if_pos (by omega),
      Nat.add_sub_cancel_left]
  · rw [Function.update_of_ne hp, copied, copied]
    by_cases hin : dst ≤ p ∧ p < dst + n
    · rw [if_pos hin, if_pos (by omega)]
    · rw [if_neg hin, if_neg (by omega)]

/-- A copy to the front reads nothing that it has written. -/
theorem reaches_copy {dst src : Nat} (hlt : dst < src) {n : Nat}
    (hne : ∀ i < n, mem (src + i) ≠ 0) :
    Reaches step ⟨mem, .copy dst src⟩ ⟨copied mem dst src n, .copy (dst + n) (src + n)⟩ := by
  induction n with
  | zero =>
    have hnone : copied mem dst src 0 = mem := by
      funext p
      rw [copied, if_neg (by omega)]
    rw [hnone]
    exact .refl _
  | succ n ih =>
    refine (ih fun i hi => hne i (by omega)).trans (.step ?_)
    have hread : copied mem dst src n (src + n) = mem (src + n) := by
      rw [copied, if_neg (by omega)]
    rw [step_copy (by rw [hread]; exact hne n (by omega)), update_copied hlt]
    rfl

/-- **A turn with the braces in their order** takes the group out. -/
theorem Holds.turn (h : Holds mem (a ++ 123 :: (b ++ 125 :: rest))) (ho : 123 ∉ a) (hc : 125 ∉ a)
    (hb : 125 ∉ b) :
    ∃ mem', Reaches step ⟨mem, .findOpen 0⟩ ⟨mem', .findOpen 0⟩ ∧ Holds mem' (a ++ rest) := by
  have hsplit : a ++ 123 :: (b ++ 125 :: rest) = (a ++ 123 :: b) ++ 125 :: rest := by simp
  have hclose : (125 : UInt16) ∉ a ++ 123 :: b := by simp [hc, hb]
  obtain ⟨src, hsrc⟩ : ∃ src, src = (a ++ 123 :: b).length + 1 := ⟨_, rfl⟩
  have hlen : src = a.length + b.length + 2 := by
    rw [hsrc, List.length_append, List.length_cons]
    omega
  have hrest : ∀ i ≤ rest.length, mem (src + i) = rest.getD i 0 := by
    intro i hi
    rw [hsplit] at h
    rw [h.2 (src + i) (by simp only [List.length_append, List.length_cons] at hsrc ⊢; omega),
      List.getD_append_right _ _ _ _ (by omega), hsrc,
      show (a ++ 123 :: b).length + 1 + i - (a ++ 123 :: b).length = i + 1 by omega]
    rfl
  have hzero : (0 : UInt16) ∉ a ++ rest := by
    have hall := h.1
    simp only [List.mem_append, List.mem_cons, not_or] at hall ⊢
    exact ⟨hall.1, hall.2.2.2.2⟩
  have hne : ∀ i < rest.length, mem (src + i) ≠ 0 := by
    intro i hi h0
    rw [hrest i hi.le, List.getD_eq_getElem _ _ hi] at h0
    exact hzero (List.mem_append_right _ (h0 ▸ List.getElem_mem hi))
  have hend : mem (src + rest.length) = 0 := by
    rw [hrest _ (Nat.le_refl _), List.getD_eq_default _ _ (Nat.le_refl _)]
  refine ⟨copied mem a.length src (rest.length + 1), ?_, hzero, fun i hi => ?_⟩
  · refine (h.opens ho).trans (((hsplit ▸ h).closes hclose a.length).trans ?_)
    rw [← hsrc]
    refine (reaches_copy (by omega) hne).trans (.step ?_)
    have hread : copied mem a.length src rest.length (src + rest.length) = 0 := by
      rw [copied, if_neg (by omega), hend]
    rw [step_copy_last hread, update_copied (by omega)]
  · rw [List.length_append] at hi
    rw [copied]
    by_cases hia : i < a.length
    · rw [if_neg (by omega), h.2 i (by rw [List.length_append]; omega),
        List.getD_append _ _ _ _ hia, List.getD_append _ _ _ _ hia]
    · rw [if_pos (by omega), hrest _ (by omega), List.getD_append_right _ _ _ _ (by omega)]

theorem reaches_copy_self : ∀ (k p : Nat), mem (p + k) = 0 →
    Reaches step ⟨mem, .copy p p⟩ ⟨mem, .findOpen 0⟩ := by
  intro k
  induction k with
  | zero =>
    intro p hend
    rw [Nat.add_zero] at hend
    refine .step ?_
    rw [step_copy_last hend, Function.update_eq_self]
  | succ k ih =>
    intro p hend
    by_cases hzero : mem p = 0
    · refine .step ?_
      rw [step_copy_last hzero, Function.update_eq_self]
    · refine Reaches.trans (.step ?_) (ih (p + 1) (by rw [Nat.add_right_comm]; exact hend))
      rw [step_copy hzero, Function.update_eq_self]

/-- A copy to the back writes over the terminator before it is read. -/
theorem not_ends_copy {dst src : Nat} (hlt : src < dst)
    (hne : ∀ i, src ≤ i → i < dst → mem i ≠ 0) : ¬ Ends step ⟨mem, .copy dst src⟩ := by
  refine not_ends_of_invariant (fun s => ∃ dst src, s.phase = .copy dst src ∧ src < dst ∧
    ∀ i, src ≤ i → i < dst → s.mem i ≠ 0) ?_ ⟨dst, src, rfl, hlt, hne⟩
  rintro ⟨mem, phase⟩ ⟨dst, src, rfl, hlt, hne⟩
  have hread := hne src (Nat.le_refl _) hlt
  refine ⟨_, rfl, dst + 1, src + 1, if_neg hread, by omega, fun i hi hi' => ?_⟩
  dsimp only
  by_cases hidst : i = dst
  · rw [hidst, Function.update_self]
    exact hread
  · rw [Function.update_of_ne hidst]
    exact hne i (by omega) (by omega)

/-- **With a `}` in front of the first `{` the loop does not end.** -/
theorem Holds.runs_on (h : Holds mem (a ++ 125 :: rest)) (ho : 123 ∉ a) (hc : 125 ∉ a)
    (hrest : 123 ∈ rest) : ¬ Ends step ⟨mem, .findOpen 0⟩ := by
  obtain ⟨b, rest, rfl, hb⟩ := List.eq_append_cons_of_mem hrest
  have hsplit : a ++ 125 :: (b ++ 123 :: rest) = (a ++ 125 :: b) ++ 123 :: rest := by simp
  have hopen : (123 : UInt16) ∉ a ++ 125 :: b := by simp [ho, hb]
  have hlen : (a ++ 125 :: b).length = a.length + 1 + b.length := by
    rw [List.length_append, List.length_cons]
    omega
  have hcopy : Reaches step ⟨mem, .findOpen 0⟩
      ⟨mem, .copy (a.length + 1 + b.length) (a.length + 1)⟩ := by
    rw [← hlen]
    exact ((hsplit ▸ h).opens hopen).trans (h.closes hc _)
  by_cases hempty : b = []
  · -- the copy of the text onto itself, and the same search again
    subst hempty
    have hself := @reaches_copy_self mem (rest.length + 1) (a.length + 1) (by
      rw [show a.length + 1 + (rest.length + 1) = (a ++ 125 :: ([] ++ 123 :: rest)).length by
        simp only [List.length_append, List.length_cons, List.length_nil]; omega]
      exact h.terminator)
    rw [hcopy.ends_iff]
    cases hnext : step ⟨mem, .copy (a.length + 1) (a.length + 1)⟩ with
    | none => cases hnext
    | some s =>
      refine not_ends_of_cycle hnext ?_
      obtain ⟨n, hn⟩ := hself
      cases n with
      | zero =>
        rw [iter_zero, Option.some.injEq, State.mk.injEq] at hn
        cases hn.2
      | succ n =>
        rw [iter_succ, hnext, Option.bind_some] at hn
        exact Reaches.trans ⟨n, hn⟩ hcopy
  · have hpos := List.length_pos_iff.mpr hempty
    rw [hcopy.ends_iff]
    refine not_ends_copy (by omega) fun i hi hi' => h.ne_zero ?_
    simp only [List.length_append, List.length_cons]
    omega

/-! ## When the loop ends -/

/-- Behind a stray `}` no `{` may come. -/
abbrev Ordered (line : List UInt16) : Prop := Grouped 123 125 (fun rest => 123 ∉ rest) false line

/-- With the braces in their order the loop stops, and leaves the line without its groups. -/
theorem Holds.ends : ∀ (n : Nat) {line : List UInt16} {mem : Nat → UInt16}, line.length = n →
    Holds mem line → Ordered line →
      ∃ s, Reaches step ⟨mem, .findOpen 0⟩ s ∧ step s = none ∧
        Holds s.mem (removeGroups 123 125 false line) := by
  intro n
  induction n using Nat.strong_induction_on with
  | _ n ih =>
    intro line mem hn h hord
    rcases group_cases (by decide : (123 : UInt16) ≠ 125) line with
      hmiss | ⟨a, b, rest, rfl, ho, hc, hb⟩ | ⟨a, rest, rfl, ho, hc, hrest⟩
    · obtain ⟨phase, hreach, hstop⟩ := h.stops hmiss
      refine ⟨_, hreach, hstop, ?_⟩
      rwa [removeGroups_of_not_hasGroup (not_hasGroup_of_not_mem hmiss)]
    · obtain ⟨mem', hturn, hleft⟩ := h.turn ho hc hb
      obtain ⟨s, hreach, hstop, hs⟩ := ih (a ++ rest).length
        (by rw [← hn]; simp only [List.length_append, List.length_cons]; omega) rfl hleft
        ((grouped_group ho hc hb rest).mp hord)
      refine ⟨s, hturn.trans hreach, hstop, ?_⟩
      rwa [removeGroups_group ho hb, ← removeGroups_append ho]
    · exact absurd hrest ((grouped_close (by decide) ho hc rest).mp hord)

theorem Holds.not_ends : ∀ (n : Nat) {line : List UInt16} {mem : Nat → UInt16}, line.length = n →
    Holds mem line → ¬ Ordered line → ¬ Ends step ⟨mem, .findOpen 0⟩ := by
  intro n
  induction n using Nat.strong_induction_on with
  | _ n ih =>
    intro line mem hn h hord
    rcases group_cases (by decide : (123 : UInt16) ≠ 125) line with
      hmiss | ⟨a, b, rest, rfl, ho, hc, hb⟩ | ⟨a, rest, rfl, ho, hc, hrest⟩
    · exact absurd (grouped_of_not_mem (by decide) (fun _ h => h) hmiss) hord
    · obtain ⟨mem', hturn, hleft⟩ := h.turn ho hc hb
      rw [hturn.ends_iff]
      refine ih (a ++ rest).length ?_ rfl hleft fun hrest => hord ?_
      · rw [← hn]
        simp only [List.length_append, List.length_cons]
        omega
      · exact (grouped_group ho hc hb rest).mpr hrest
    · exact h.runs_on ho hc hrest

/-- **Brace removal ends** exactly for a line with no stray `}` in front of a `{`. -/
theorem bracesEnd_iff (h : Holds mem line) : BracesEnd mem line ↔ Ordered line := by
  constructor
  · intro hend
    by_contra hord
    exact h.not_ends _ rfl hord hend.ends
  · intro hord
    obtain ⟨s, hreach, hstop, hs⟩ := h.ends _ rfl hord
    refine ⟨hreach.ends_iff.mpr (ends_of_stops hstop), fun t ht hstopt => ?_⟩
    obtain rfl := hreach.unique hstop ht hstopt
    exact ⟨_, hs, length_removeGroups_le _⟩

/-- The memory of a line, with zeros behind it. -/
def memory (line : List UInt16) : Nat → UInt16 := fun i => line.getD i 0

theorem holds_memory (h : (0 : UInt16) ∉ line) : Holds (memory line) line := ⟨h, fun _ _ => rfl⟩

theorem bracesEnd_iff_oneGroup :
    BracesEnd (memory (wide ['{', 'b', '}', 'x'])) (wide ['{', 'b', '}', 'x']) ↔
      Ordered (wide ['{', 'b', '}', 'x']) :=
  bracesEnd_iff (holds_memory (by decide))

/-- **`}{` is never left.** -/
theorem braces_backwards_never_end : ¬ BracesEnd (memory (wide ['}', '{'])) (wide ['}', '{']) := by
  intro hend
  exact (holds_memory (by decide)).not_ends _ rfl (by decide) hend.ends

/-! ## The model of `handle_line` -/

/-- `stripBraces` is this loop: no result stands for one that does not end. -/
theorem stripBraces_eq : ∀ (fuel : Nat) {line : List UInt16}, line.length ≤ fuel →
    stripBraces fuel line =
      if Ordered line then some (removeGroups 123 125 false line) else none := by
  intro fuel
  induction fuel with
  | zero =>
    intro line hlen
    obtain rfl := List.length_eq_zero_iff.mp (Nat.le_zero.mp hlen)
    rfl
  | succ fuel ih =>
    intro line hlen
    rcases group_cases (by decide : (123 : UInt16) ≠ 125) line with
      hmiss | ⟨a, b, rest, rfl, ho, hc, hb⟩ | ⟨a, rest, rfl, ho, hc, hrest⟩
    · rw [if_pos (grouped_of_not_mem (by decide) (fun _ h => h) hmiss),
        removeGroups_of_not_hasGroup (not_hasGroup_of_not_mem hmiss), stripBraces]
      rcases hmiss with hmiss | hmiss
      · rw [show findSub (wide ['{']) line = none from findSub_of_not_mem hmiss]
      · rw [show findSub (wide ['}']) line = none from findSub_of_not_mem hmiss]
        split
        · next hnone => cases hnone
        · rfl
    · obtain ⟨hopen, hclose⟩ := findSub_pair (by decide) ho hc hb rest
      rw [stripBraces, show findSub (wide ['{']) _ = _ from hopen,
        show findSub (wide ['}']) _ = _ from hclose]
      dsimp only
      rw [if_neg (by omega), cut_pair, ih (by
        simp only [List.length_append, List.length_cons] at hlen ⊢
        omega), removeGroups_group ho hb, removeGroups_append ho]
      exact if_congr (grouped_group ho hc hb rest).symm rfl rfl
    · obtain ⟨b, rest, rfl, hb⟩ := List.eq_append_cons_of_mem hrest
      obtain ⟨hclose, hopen⟩ := findSub_pair (by decide) hc ho hb rest
      rw [stripBraces, show findSub (wide ['{']) _ = _ from hopen,
        show findSub (wide ['}']) _ = _ from hclose]
      dsimp only
      rw [if_pos (by omega), if_neg]
      exact fun hord => absurd (by simp) ((grouped_close (by decide) ho hc _).mp hord)

end DWindow.Srt.Braces
