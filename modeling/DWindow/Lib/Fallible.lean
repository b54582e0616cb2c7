import Mathlib.Data.List.Forall2

/-!
# Lists of steps that can fail

Folding a step over a list and mapping over a list, with no result as soon as one step has
none.
-/

namespace Fallible

variable {α β σ : Type*}

/-- **What every step keeps, the whole run keeps.** -/
theorem foldlM_invariant {step : σ → α → Option σ} (inv : σ → Prop)
    (hstep : ∀ s a s', inv s → step s a = some s' → inv s') : ∀ (l : List α) (s s' : σ),
      inv s → l.foldlM step s = some s' → inv s' := by
  intro l
  induction l with
  | nil =>
    intro s s' hs h
    rw [List.foldlM_nil] at h
    cases h
    exact hs
  | cons a l ih =>
    intro s s' hs h
    rw [List.foldlM_cons, Option.bind_eq_bind, Option.bind_eq_some_iff] at h
    obtain ⟨t, ht, h⟩ := h
    exact ih t s' (hstep s a t hs ht) h

theorem foldlM_congr {f g : σ → α → Option σ} : ∀ {l : List α} (s : σ),
    (∀ a ∈ l, ∀ s, f s a = g s a) → l.foldlM f s = l.foldlM g s := by
  intro l
  induction l with
  | nil => intro s _; rfl
  | cons a l ih =>
    intro s h
    rw [List.foldlM_cons, List.foldlM_cons, h a (List.mem_cons_self ..)]
    exact congrArg _ (funext fun t => ih t fun b hb => h b (List.mem_cons_of_mem _ hb))

/-- A run has a result that the invariant holds of, when every step from such a state has one. -/
theorem exists_foldlM {f : σ → α → Option σ} (inv : σ → Prop) : ∀ {l : List α} {s : σ}, inv s →
    (∀ a ∈ l, ∀ s, inv s → ∃ s', f s a = some s' ∧ inv s') →
      ∃ s', l.foldlM f s = some s' ∧ inv s' := by
  intro l
  induction l with
  | nil => exact fun {s} hs _ => ⟨s, rfl, hs⟩
  | cons a l ih =>
    intro s hs h
    rw [List.forall_mem_cons] at h
    obtain ⟨t, ht, hinv⟩ := h.1 s hs
    rw [List.foldlM_cons, ht]
    exact ih hinv h.2

theorem isSome_foldlM {f : σ → α → Option σ} : ∀ {l : List α} (s : σ),
    (∀ a ∈ l, ∀ s, (f s a).isSome) → (l.foldlM f s).isSome := by
  intro l
  induction l with
  | nil => intro s _; rfl
  | cons a l ih =>
    intro s h
    rw [List.forall_mem_cons] at h
    obtain ⟨t, ht⟩ := Option.isSome_iff_exists.mp (h.1 s)
    rw [List.foldlM_cons, ht]
    exact ih t h.2

theorem exists_of_foldlM {f : σ → α → Option σ} : ∀ {l : List α} {s s' : σ},
    l.foldlM f s = some s' → ∀ a ∈ l, ∃ t t', f t a = some t' := by
  intro l
  induction l with
  | nil => intro s s' _ a ha; exact absurd ha List.not_mem_nil
  | cons b l ih =>
    intro s s' h a ha
    rw [List.foldlM_cons, Option.bind_eq_bind, Option.bind_eq_some_iff] at h
    obtain ⟨t, ht, h⟩ := h
    rcases List.mem_cons.mp ha with rfl | ha
    · exact ⟨s, t, ht⟩
    · exact ih h a ha

theorem forall₂_of_mapM {f : α → Option β} : ∀ (l : List α) {bs : List β},
    l.mapM f = some bs → List.Forall₂ (fun a b => f a = some b) l bs := by
  intro l
  induction l with
  | nil =>
    intro bs h
    rw [List.mapM_nil] at h
    cases h
    exact List.Forall₂.nil
  | cons a l ih =>
    intro bs h
    rw [List.mapM_cons, Option.bind_eq_bind, Option.bind_eq_some_iff] at h
    obtain ⟨b, hb, h⟩ := h
    rw [Option.bind_eq_bind, Option.bind_eq_some_iff] at h
    obtain ⟨bs', hbs, h⟩ := h
    cases h
    exact List.Forall₂.cons hb (ih hbs)

/-- A value that the function keeps is the same for every element. -/
theorem getElem?_of_mapM {f : α → Option β} {l : List α} {bs : List β} (hbs : l.mapM f = some bs)
    {i : Nat} {a : α} (ha : l[i]? = some a) : ∃ b, bs[i]? = some b ∧ f a = some b := by
  have hall := forall₂_of_mapM l hbs
  clear hbs
  induction hall generalizing i with
  | nil => cases ha
  | @cons a' b' l' bs' hab _ ih =>
    cases i with
    | zero =>
      rw [List.getElem?_cons_zero, Option.some.injEq] at ha
      exact ⟨b', rfl, ha ▸ hab⟩
    | succ i =>
      rw [List.getElem?_cons_succ] at ha
      exact ih ha

theorem map_eq_of_mapM {f : α → Option β} {g : α → σ} {k : β → σ}
    (h : ∀ a b, f a = some b → k b = g a) {l : List α} {bs : List β} (hbs : l.mapM f = some bs) :
    bs.map k = l.map g := by
  have hall := forall₂_of_mapM l hbs
  clear hbs
  induction hall with
  | nil => rfl
  | cons hab _ ih => rw [List.map_cons, List.map_cons, h _ _ hab, ih]

/-- A property that the function keeps holds of every element. -/
theorem forall_of_mapM {f : α → Option β} {p : α → Prop} {q : β → Prop}
    (h : ∀ a b, f a = some b → p a → q b) {l : List α} {bs : List β} (hbs : l.mapM f = some bs)
    (hl : ∀ a ∈ l, p a) : ∀ b ∈ bs, q b := by
  have hall := forall₂_of_mapM l hbs
  clear hbs
  induction hall with
  | nil => intro b hb; exact absurd hb List.not_mem_nil
  | cons hab _ ih =>
    intro b hb
    rcases List.mem_cons.mp hb with rfl | hb
    · exact h _ _ hab (hl _ (List.mem_cons_self ..))
    · exact ih (fun a ha => hl a (List.mem_cons_of_mem _ ha)) b hb

theorem exists_of_mapM {f : α → Option β} {l : List α} {bs : List β} (hbs : l.mapM f = some bs) :
    ∀ a ∈ l, ∃ b ∈ bs, f a = some b := by
  have hall := forall₂_of_mapM l hbs
  clear hbs
  induction hall with
  | nil => intro a ha; exact absurd ha List.not_mem_nil
  | cons hab _ ih =>
    intro a ha
    rcases List.mem_cons.mp ha with rfl | ha
    · exact ⟨_, List.mem_cons_self .., hab⟩
    · obtain ⟨b, hb, hfb⟩ := ih a ha
      exact ⟨b, List.mem_cons_of_mem _ hb, hfb⟩

theorem mapM_eq_some_map {f : α → Option β} {g : α → β} : ∀ {l : List α},
    (∀ a ∈ l, f a = some (g a)) → l.mapM f = some (l.map g) := by
  intro l
  induction l with
  | nil => intro _; rfl
  | cons a l ih =>
    intro h
    rw [List.mapM_cons, h a (List.mem_cons_self ..),
      ih (fun b hb => h b (List.mem_cons_of_mem _ hb))]
    rfl

theorem isSome_mapM {f : α → Option β} : ∀ {l : List α}, (∀ a ∈ l, (f a).isSome) →
    (l.mapM f).isSome := by
  intro l
  induction l with
  | nil => intro _; rfl
  | cons a l ih =>
    intro h
    rw [List.forall_mem_cons] at h
    obtain ⟨b, hb⟩ := Option.isSome_iff_exists.mp h.1
    obtain ⟨bs, hbs⟩ := Option.isSome_iff_exists.mp (ih h.2)
    rw [List.mapM_cons, hb, hbs]
    rfl

end Fallible
