import Mathlib.Data.Nat.Init
import Mathlib.Order.Nat

/-!
# A loop that may stop

A loop whose body either gives the next state or stops is a function `next : α → Option α`,
and `iter next n a` is the state after `n` rounds from `a`, `none` when it has stopped by
then.  A loop that meets a state twice goes on forever, and one that goes on forever inside
a finite set meets a state twice (`ends_iff_not_comesBack`).
-/

namespace Orbit

variable {α : Type*} (next : α → Option α)

/-- The state after `n` rounds. -/
def iter : Nat → α → Option α
  | 0, a => some a
  | n + 1, a => (next a).bind (iter n)

/-- The loop stops. -/
def Ends (a : α) : Prop := ∃ n, iter next n a = none

/-- The loop comes to a state. -/
def Reaches (a s : α) : Prop := ∃ n, iter next n a = some s

/-- The loop meets a state twice. -/
def ComesBack (a : α) : Prop := ∃ i j s, i < j ∧ iter next i a = some s ∧ iter next j a = some s

/-- A property holds in every state that the loop comes to. -/
def Always (P : α → Prop) (a : α) : Prop := ∀ s, Reaches next a s → P s

variable {next} {a s : α}

@[simp] theorem iter_zero (a : α) : iter next 0 a = some a := rfl

theorem iter_succ (n : Nat) (a : α) : iter next (n + 1) a = (next a).bind (iter next n) := rfl

theorem iter_add (n m : Nat) : ∀ a : α,
    iter next (n + m) a = (iter next n a).bind (iter next m) := by
  induction n with
  | zero => intro a; rw [Nat.zero_add, iter_zero, Option.bind_some]
  | succ n ih =>
    intro a
    rw [Nat.succ_add, iter_succ, iter_succ]
    cases next a with
    | none => rfl
    | some b => exact ih b

theorem iter_eq_none_of_le {n m : Nat} (h : iter next n a = none) (hle : n ≤ m) :
    iter next m a = none := by
  obtain ⟨k, rfl⟩ := Nat.exists_eq_add_of_le hle
  rw [iter_add, h, Option.bind_none]

theorem iter_invariant (inv : α → Prop) (hstep : ∀ s t, inv s → next s = some t → inv t) :
    ∀ (n : Nat) (a s : α), inv a → iter next n a = some s → inv s := by
  intro n
  induction n with
  | zero =>
    intro a s ha hs
    exact Option.some.inj hs ▸ ha
  | succ n ih =>
    intro a s ha hs
    rw [iter_succ] at hs
    obtain ⟨b, hb, hn⟩ := Option.bind_eq_some_iff.mp hs
    exact ih b s (hstep a b ha hb) hn

theorem not_ends_of_fixed (h : next a = some a) : ¬ Ends next a := by
  rintro ⟨n, hn⟩
  have hstay : ∀ n, iter next n a = some a := by
    intro n
    induction n with
    | zero => rfl
    | succ n ih => rw [iter_succ, h, Option.bind_some, ih]
  rw [hstay n] at hn
  cases hn

theorem iter_mul {k : Nat} (h : iter next k s = some s) : ∀ n, iter next (n * k) s = some s := by
  intro n
  induction n with
  | zero => rw [Nat.zero_mul, iter_zero]
  | succ n ih => rw [Nat.succ_mul, iter_add, ih, Option.bind_some, h]

theorem ComesBack.not_ends (h : ComesBack next a) : ¬ Ends next a := by
  obtain ⟨i, j, s, hij, hi, hj⟩ := h
  obtain ⟨k, rfl⟩ := Nat.exists_eq_add_of_le hij.le
  rw [iter_add, hi, Option.bind_some] at hj
  rintro ⟨n, hn⟩
  have hle : n ≤ i + n * k := by
    have : n * 1 ≤ n * k := Nat.mul_le_mul_left n (by omega)
    omega
  have hlate := iter_eq_none_of_le hn hle
  rw [iter_add, hi, Option.bind_some, iter_mul hj n] at hlate
  cases hlate

/-! ## Coming to a state -/

theorem Reaches.refl (a : α) : Reaches next a a := ⟨0, rfl⟩

theorem Reaches.step {b : α} (h : next a = some b) : Reaches next a b :=
  ⟨1, by rw [iter_succ, h, Option.bind_some, iter_zero]⟩

theorem Reaches.trans {b : α} (hab : Reaches next a b) (hbs : Reaches next b s) :
    Reaches next a s := by
  obtain ⟨n, hn⟩ := hab
  obtain ⟨m, hm⟩ := hbs
  exact ⟨n + m, by rw [iter_add, hn, Option.bind_some, hm]⟩

/-- What holds at the beginning and is kept by a round from a state that the loop comes to holds
of every such state. -/
theorem Reaches.invariant (inv : α → Prop) (h : Reaches next a s) (ha : inv a)
    (hstep : ∀ s t, Reaches next a s → inv s → next s = some t → inv t) : inv s := by
  obtain ⟨n, hn⟩ := h
  refine (iter_invariant (fun s => Reaches next a s ∧ inv s) ?_ n a s ⟨.refl a, ha⟩ hn).2
  rintro s t ⟨hs, hinv⟩ hnext
  exact ⟨hs.trans (.step hnext), hstep s t hs hinv hnext⟩

/-- A loop that does the same in every state that another one comes to comes to the same. -/
theorem Reaches.of_agrees {next' : α → Option α} (h : ∀ s, Reaches next a s → next' s = next s)
    (hs : Reaches next' a s) : Reaches next a s := by
  obtain ⟨n, hn⟩ := hs
  refine iter_invariant (Reaches next a) ?_ n a s (.refl a) hn
  intro s t hs hnext
  rw [h s hs] at hnext
  exact hs.trans (.step hnext)

/-- The loop ends exactly when it does from a state that it comes to. -/
theorem Reaches.ends_iff (h : Reaches next a s) : Ends next a ↔ Ends next s := by
  obtain ⟨k, hk⟩ := h
  constructor
  · rintro ⟨n, hn⟩
    have hlate := iter_eq_none_of_le hn (Nat.le_add_left n k)
    rw [iter_add, hk, Option.bind_some] at hlate
    exact ⟨n, hlate⟩
  · rintro ⟨n, hn⟩
    exact ⟨k + n, by rw [iter_add, hk, Option.bind_some, hn]⟩

theorem ends_of_stops (h : next a = none) : Ends next a :=
  ⟨1, by rw [iter_succ, h, Option.bind_none]⟩

theorem Reaches.unique {b : α} (hs : Reaches next a s) (hstop : next s = none)
    (hb : Reaches next a b) (hstopb : next b = none) : s = b := by
  obtain ⟨n, hn⟩ := hs
  obtain ⟨m, hm⟩ := hb
  rcases Nat.le_total n m with hle | hle
  · obtain ⟨k, rfl⟩ := Nat.exists_eq_add_of_le hle
    rw [iter_add, hn, Option.bind_some] at hm
    cases k with
    | zero => exact Option.some.inj hm
    | succ k =>
      rw [iter_succ, hstop] at hm
      cases hm
  · obtain ⟨k, rfl⟩ := Nat.exists_eq_add_of_le hle
    rw [iter_add, hm, Option.bind_some] at hn
    cases k with
    | zero => exact (Option.some.inj hn).symm
    | succ k =>
      rw [iter_succ, hstopb] at hn
      cases hn

theorem not_ends_of_invariant (inv : α → Prop) (hstep : ∀ s, inv s → ∃ t, next s = some t ∧ inv t)
    (ha : inv a) : ¬ Ends next a := by
  have hsome : ∀ n, ∃ s, iter next n a = some s ∧ inv s := by
    intro n
    induction n with
    | zero => exact ⟨a, rfl, ha⟩
    | succ n ih =>
      obtain ⟨s, hs, hinv⟩ := ih
      obtain ⟨t, ht, hinvt⟩ := hstep s hinv
      refine ⟨t, ?_, hinvt⟩
      rw [iter_add, hs, Option.bind_some, iter_succ, ht, Option.bind_some, iter_zero]
  rintro ⟨n, hn⟩
  obtain ⟨s, hs, -⟩ := hsome n
  rw [hn] at hs
  cases hs

theorem not_ends_of_cycle {b : α} (h : next a = some b) (hb : Reaches next b a) :
    ¬ Ends next a := by
  obtain ⟨n, hn⟩ := hb
  refine ComesBack.not_ends ⟨0, n + 1, a, Nat.succ_pos n, rfl, ?_⟩
  rw [iter_succ, h, Option.bind_some, hn]

/-- **A loop that gets on in stages** stops, or comes from a state of this stage to one of the
next. -/
theorem ends_or_reaches (inv done : α → Prop) (rank : α → Nat)
    (hstep : ∀ s t, inv s → next s = some t → done t ∨ inv t ∧ rank t < rank s) :
    ∀ {a : α}, inv a → Ends next a ∨
      ∃ s t, Reaches next a s ∧ inv s ∧ next s = some t ∧ done t := by
  have hrank : ∀ (n : Nat) (a : α), rank a = n → inv a → Ends next a ∨
      ∃ s t, Reaches next a s ∧ inv s ∧ next s = some t ∧ done t := by
    intro n
    induction n using Nat.strong_induction_on with
    | _ n ih =>
      intro a hn ha
      cases hnext : next a with
      | none => exact .inl (ends_of_stops hnext)
      | some b =>
        rcases hstep a b ha hnext with hb | ⟨hb, hless⟩
        · exact .inr ⟨a, b, .refl a, ha, hnext, hb⟩
        · have hstepb := Reaches.step hnext
          rcases ih (rank b) (by omega) b rfl hb with hends | ⟨s, t, hs, hrest⟩
          · exact .inl (hstepb.ends_iff.mpr hends)
          · exact .inr ⟨s, t, hstepb.trans hs, hrest⟩
  exact fun {a} ha => hrank _ a rfl ha

theorem ends_of_rank (inv : α → Prop) (rank : α → Nat)
    (hstep : ∀ s t, inv s → next s = some t → inv t ∧ rank t < rank s) (ha : inv a) :
    Ends next a := by
  rcases ends_or_reaches inv (fun _ => False) rank (fun s t hs h => .inr (hstep s t hs h)) ha with
    hends | ⟨-, -, -, -, -, hfalse⟩
  · exact hends
  · exact hfalse.elim

/-- A loop that stops wherever another one does, and sooner. -/
theorem Ends.of_sooner {next' : α → Option α} (hends : Ends next a)
    (h : ∀ s t, next' s = some t → next s = some t) : Ends next' a := by
  obtain ⟨n, hn⟩ := hends
  refine ⟨n, ?_⟩
  induction n generalizing a with
  | zero => cases hn
  | succ n ih =>
    rw [iter_succ] at hn ⊢
    cases hnext : next' a with
    | none => rfl
    | some b =>
      rw [h a b hnext, Option.bind_some] at hn
      exact ih hn

/-! ## What holds all the time -/

theorem Reaches.cases_head (h : Reaches next a s) :
    s = a ∨ ∃ b, next a = some b ∧ Reaches next b s := by
  obtain ⟨n, hn⟩ := h
  cases n with
  | zero => exact .inl (Option.some.inj hn).symm
  | succ n =>
    obtain ⟨b, hb, hs⟩ := Option.bind_eq_some_iff.mp hn
    exact .inr ⟨b, hb, n, hs⟩

/-- One round of it. -/
theorem always_iff {P : α → Prop} :
    Always next P a ↔ P a ∧ ∀ b, next a = some b → Always next P b := by
  constructor
  · exact fun h => ⟨h a (.refl a), fun b hb s hs => h s ((Reaches.step hb).trans hs)⟩
  · rintro ⟨ha, hrest⟩ s hs
    rcases hs.cases_head with rfl | ⟨b, hb, hs⟩
    · exact ha
    · exact hrest b hb s hs

theorem always_of_stops {P : α → Prop} (h : next a = none) : Always next P a ↔ P a := by
  rw [always_iff, h]
  exact and_iff_left fun b hb => by cases hb

theorem always_step {P : α → Prop} {b : α} (h : next a = some b) :
    Always next P a ↔ P a ∧ Always next P b := by
  rw [always_iff, h]
  exact and_congr_right fun _ => ⟨fun hb => hb b rfl, fun hb c hc => Option.some.inj hc ▸ hb⟩

theorem Always.of_invariant {P : α → Prop} (inv : α → Prop) (ha : inv a)
    (hP : ∀ s, inv s → P s) (hstep : ∀ s t, inv s → next s = some t → inv t) :
    Always next P a :=
  fun s hs => hP s (hs.invariant inv ha fun s t _ => hstep s t)

end Orbit
