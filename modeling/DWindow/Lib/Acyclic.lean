import Mathlib.Data.Finset.Card
import Mathlib.Logic.Relation

/-!
# Links without a cycle

`Acyclic r` says that no chain of `r` comes back to where it started.  A link may be added
exactly when its end does not reach its start (`acyclic_insert_iff`), and a recursion that
follows the links between the numbers below a bound ends (`ends_of_bounded`).
-/

namespace Links

open Relation

variable {α : Type*} {r q : α → α → Prop}

/-- No chain of links comes back. -/
def Acyclic (r : α → α → Prop) : Prop := ∀ a, ¬TransGen r a a

theorem Acyclic.mono (h : Acyclic r) (hq : ∀ a b, q a b → r a b) : Acyclic q :=
  fun a ha => h a (TransGen.mono (p := r) hq a a ha)

theorem acyclic_congr (h : ∀ a b, q a b ↔ r a b) : Acyclic q ↔ Acyclic r :=
  ⟨fun hq => hq.mono fun a b => (h a b).mpr, fun hr => hr.mono fun a b => (h a b).mp⟩

theorem acyclic_swap : Acyclic (Function.swap r) ↔ Acyclic r :=
  forall_congr' fun _ => not_congr transGen_swap

/-- The links with one more, from `a` to `b`. -/
def insert (r : α → α → Prop) (a b x y : α) : Prop := r x y ∨ x = a ∧ y = b

/-- A chain that uses the new link goes to its start and on from its end. -/
theorem transGen_insert {a b x y : α} (h : TransGen (insert r a b) x y) :
    TransGen r x y ∨ ReflTransGen r x a ∧ ReflTransGen r b y := by
  induction h with
  | single hlink =>
    obtain hlink | ⟨rfl, rfl⟩ := hlink
    · exact .inl (.single hlink)
    · exact .inr ⟨.refl, .refl⟩
  | tail _ hlink ih =>
    obtain hlink | ⟨rfl, rfl⟩ := hlink
    · exact ih.imp (fun h => h.tail hlink) fun h => ⟨h.1, h.2.tail hlink⟩
    · exact .inr ⟨ih.elim TransGen.to_reflTransGen And.left, .refl⟩

/-- **A link may be added exactly when its end does not reach its start.** -/
theorem acyclic_insert_iff (h : Acyclic r) {a b : α} :
    Acyclic (insert r a b) ↔ ¬ReflTransGen r b a := by
  constructor
  · intro hac hba
    exact hac a (.head' (.inr ⟨rfl, rfl⟩) (ReflTransGen.mono (fun _ _ => Or.inl) b a hba))
  · intro hba x hx
    obtain hx | ⟨hxa, hbx⟩ := transGen_insert hx
    · exact h x hx
    · exact hba (hbx.trans hxa)

/-- The new link closes a chain at its end exactly when there is one back to its start. -/
theorem transGen_insert_self_iff (h : Acyclic r) {a b : α} :
    TransGen (insert r a b) b b ↔ ReflTransGen r b a := by
  constructor
  · intro hb
    exact (transGen_insert hb).elim (fun hb => absurd hb (h b)) And.left
  · intro hba
    exact .tail' (ReflTransGen.mono (fun _ _ => Or.inl) b a hba) (.inr ⟨rfl, rfl⟩)

theorem reflTransGen_ne (h : Acyclic r) {a b : α} (hba : ReflTransGen r b a) :
    ReflTransGen (fun x y => r x y ∧ y ≠ b) b a := by
  induction hba with
  | refl => exact .refl
  | tail hchain hlink ih =>
    refine ih.tail ⟨hlink, fun hb => ?_⟩
    have hback := TransGen.tail' hchain hlink
    rw [hb] at hback
    exact h b hback

/-- **A recursion that follows the links ends**: if a call with one more level ends whenever
the calls it makes do, and all calls it makes lead to numbers below `n`, more than `n` levels
are enough. -/
theorem ends_of_bounded {q : Nat → Nat → Prop} {n : Nat} (h : Acyclic q) (calls : Nat → List Nat)
    (hcalls : ∀ a, ∀ b ∈ calls a, q b a ∧ b < n) {P : Nat → Nat → Prop}
    (hP : ∀ k a, (∀ b ∈ calls a, P k b) → P (k + 1) a) {k : Nat} (hk : n < k) (a : Nat) :
    P k a := by
  classical
  -- a call leads to a number with fewer numbers behind it
  have hbehind : ∀ k a, ((Finset.range n).filter (TransGen q · a)).card < k → P k a := by
    intro k
    induction k with
    | zero => intro a ha; exact absurd ha (Nat.not_lt_zero _)
    | succ k ih =>
      intro a ha
      refine hP k a fun b hb => ih b (lt_of_lt_of_le ?_ (Nat.le_of_lt_succ ha))
      obtain ⟨hlink, hbn⟩ := hcalls a b hb
      refine Finset.card_lt_card (Finset.ssubset_iff_of_subset ?_ |>.mpr ⟨b, ?_, ?_⟩)
      · exact fun x hx => by
          rw [Finset.mem_filter] at hx ⊢
          exact ⟨hx.1, hx.2.tail hlink⟩
      · exact Finset.mem_filter.mpr ⟨Finset.mem_range.mpr hbn, .single hlink⟩
      · exact fun hx => h b (Finset.mem_filter.mp hx).2
  refine hbehind k a (lt_of_le_of_lt ?_ hk)
  exact (Finset.card_filter_le _ _).trans (Finset.card_range n).le

end Links
