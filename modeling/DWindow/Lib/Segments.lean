import Mathlib.Data.List.Basic

/-!
# Lists cut at marks

Some elements of a list are marks.  A mark opens a new state and every other element changes
the state opened last, in one step that can fail; without an open state only an idle element
does no harm.  `exists_feed_iff` says that the states at the end have a property if and only
if each segment, run by itself, leads to a state that has it.
-/

namespace Segments

variable {α σ : Type*} (mark : α → Bool)

/-- What comes before the first mark, and what comes behind each. -/
def segments : List α → List α × List (List α)
  | [] => ([], [])
  | a :: l =>
    if mark a then ([], (segments l).1 :: (segments l).2) else (a :: (segments l).1, (segments l).2)

/-- The property holds of every element, with what comes before it. -/
def EachAfter (p : List α → α → Prop) (l : List α) : Prop := ∀ a x b, l = a ++ x :: b → p a x

theorem eachAfter_nil (p : List α → α → Prop) : EachAfter p [] := fun _ _ _ h =>
  absurd h.symm (List.append_ne_nil_of_right_ne_nil _ (List.cons_ne_nil _ _))

theorem eachAfter_concat (p : List α → α → Prop) (l : List α) (y : α) :
    EachAfter p (l ++ [y]) ↔ EachAfter p l ∧ p l y := by
  constructor
  · intro h
    refine ⟨fun a x b hl => h a x (b ++ [y]) ?_, h l y [] rfl⟩
    rw [hl, List.append_assoc, List.cons_append]
  · rintro ⟨h, hy⟩ a x b hl
    rcases List.eq_nil_or_concat b with rfl | ⟨b, z, rfl⟩
    · obtain ⟨rfl, hx⟩ := List.append_inj' hl rfl
      obtain rfl := List.singleton_inj.mp hx
      exact hy
    · rw [List.concat_eq_append, ← List.cons_append, ← List.append_assoc] at hl
      exact h a x b (List.append_inj' hl rfl).1

section Feed

variable (idle : α → Bool) (init : σ) (step : σ → α → Option σ)

def feed (ss : List σ) (a : α) : Option (List σ) :=
  if mark a then some (ss ++ [init])
  else match ss.getLast? with
    | some s => (step s a).map (ss.dropLast ++ [·])
    | none => if idle a then some [] else none

variable {mark idle init step}

theorem feed_concat (ss : List σ) (s : σ) (a : α) :
    feed mark idle init step (ss ++ [s]) a =
      if mark a then some (ss ++ [s] ++ [init]) else (step s a).map (ss ++ [·]) := by
  rw [feed, List.getLast?_concat, List.dropLast_concat]

/-- **A state that is open** goes through the rest of its segment. -/
theorem exists_feed_concat_iff (p : σ → Prop) : ∀ (l : List α) (ss : List σ) (s : σ),
    (∃ ss', l.foldlM (feed mark idle init step) (ss ++ [s]) = some ss' ∧ ∀ t ∈ ss', p t) ↔
      (∀ t ∈ ss, p t) ∧ (∃ s', (segments mark l).1.foldlM step s = some s' ∧ p s') ∧
        ∀ seg ∈ (segments mark l).2, ∃ s', seg.foldlM step init = some s' ∧ p s' := by
  intro l
  induction l with
  | nil =>
    intro ss s
    constructor
    · rintro ⟨ss', h, hp⟩
      obtain rfl : ss ++ [s] = ss' := Option.some.inj h
      exact ⟨fun t ht => hp t (List.mem_append_left _ ht),
        ⟨s, rfl, hp s (List.mem_append_right _ (List.mem_singleton_self s))⟩,
        fun seg hseg => absurd hseg List.not_mem_nil⟩
    · rintro ⟨hp, ⟨s', h, hs'⟩, -⟩
      obtain rfl : s = s' := Option.some.inj h
      refine ⟨_, rfl, fun t ht => ?_⟩
      rcases List.mem_append.mp ht with ht | ht
      · exact hp t ht
      · rw [List.mem_singleton.mp ht]
        exact hs'
  | cons a l ih =>
    intro ss s
    rw [List.foldlM_cons, feed_concat, segments]
    by_cases hmark : mark a
    · simp only [if_pos hmark, Option.bind_eq_bind, Option.bind_some]
      rw [ih (ss ++ [s]) init, List.forall_mem_cons, List.forall_mem_append,
        List.forall_mem_singleton]
      constructor
      · rintro ⟨⟨hss, hs⟩, hfirst, hrest⟩
        exact ⟨hss, ⟨s, rfl, hs⟩, hfirst, hrest⟩
      · rintro ⟨hss, ⟨s', h, hs⟩, hfirst, hrest⟩
        obtain rfl : s = s' := Option.some.inj h
        exact ⟨⟨hss, hs⟩, hfirst, hrest⟩
    · simp only [if_neg hmark, Option.bind_eq_bind, List.foldlM_cons]
      cases step s a with
      | none => simp
      | some s' => exact ih ss s'

/-- **All segments by themselves.** -/
theorem exists_feed_iff (p : σ → Prop) : ∀ l : List α,
    (∃ ss, l.foldlM (feed mark idle init step) [] = some ss ∧ ∀ t ∈ ss, p t) ↔
      (∀ a ∈ (segments mark l).1, idle a) ∧
        ∀ seg ∈ (segments mark l).2, ∃ s, seg.foldlM step init = some s ∧ p s := by
  intro l
  induction l with
  | nil =>
    refine iff_of_true ⟨[], rfl, fun t ht => absurd ht List.not_mem_nil⟩ ⟨fun a ha => ?_, ?_⟩
    · exact absurd ha List.not_mem_nil
    · exact fun seg hseg => absurd hseg List.not_mem_nil
  | cons a l ih =>
    rw [List.foldlM_cons, feed, segments]
    by_cases hmark : mark a
    · simp only [if_pos hmark, Option.bind_eq_bind, Option.bind_some]
      rw [exists_feed_concat_iff p l [] init, List.forall_mem_cons]
      simp
    · simp only [if_neg hmark, List.getLast?_nil, Option.bind_eq_bind, List.forall_mem_cons]
      by_cases hidle : idle a
      · simp only [hidle, true_and]
        exact ih
      · simp [hidle]

end Feed

end Segments
