import Mathlib.Logic.Function.Iterate

/-!
# Maps that respect exclusive or

Shifts, rotations, masks and the multiplications of a field of characteristic two respect
exclusive or.  Such a map is known from the words of one bit: `XorLinear.eq_of_twoPow`.

`KeyAlternating` is a cipher whose rounds substitute, mix and add a key.  Where the mixing
respects the addition, the rounds can be undone in their own form, with mixed keys:
`KeyAlternating.undoes`.
-/

/-- The image of an exclusive or is the exclusive or of the images. -/
def XorLinear {m n : Nat} (f : BitVec m → BitVec n) : Prop :=
  ∀ a b, f (a ^^^ b) = f a ^^^ f b

namespace XorLinear

variable {k m n : Nat} {f g : BitVec m → BitVec n}

theorem id : XorLinear (fun x : BitVec n => x) := fun _ _ => rfl

theorem comp {f : BitVec m → BitVec n} {g : BitVec k → BitVec m} (hf : XorLinear f)
    (hg : XorLinear g) : XorLinear fun x => f (g x) := fun a b => by
  dsimp only
  rw [hg, hf]

theorem xor (hf : XorLinear f) (hg : XorLinear g) : XorLinear fun x => f x ^^^ g x :=
  fun a b => by
    dsimp only
    rw [hf, hg, BitVec.xor_assoc, BitVec.xor_assoc, ← BitVec.xor_assoc (f b),
      ← BitVec.xor_assoc (g a), BitVec.xor_comm (f b)]

theorem and (hf : XorLinear f) (c : BitVec n) : XorLinear fun x => f x &&& c := fun a b => by
  dsimp only
  rw [hf]
  ext i hi
  simp only [BitVec.getElem_and, BitVec.getElem_xor]
  exact Bool.and_xor_distrib_right _ _ _

theorem shiftLeft (hf : XorLinear f) (s : Nat) : XorLinear fun x => f x <<< s := fun a b => by
  dsimp only
  rw [hf, BitVec.shiftLeft_xor_distrib]

theorem ushiftRight (hf : XorLinear f) (s : Nat) : XorLinear fun x => f x >>> s := fun a b => by
  dsimp only
  rw [hf, BitVec.ushiftRight_xor_distrib]

theorem setWidth (hf : XorLinear f) (k : Nat) : XorLinear fun x => (f x).setWidth k :=
  fun a b => by
    dsimp only
    rw [hf, BitVec.setWidth_xor]

theorem rotateLeft (hf : XorLinear f) (s : Nat) : XorLinear fun x => (f x).rotateLeft s :=
  fun a b => by
    dsimp only
    rw [hf]
    ext i hi
    simp only [BitVec.getElem_rotateLeft, BitVec.getElem_xor]
    split <;> rfl

theorem rotateRight (hf : XorLinear f) (s : Nat) : XorLinear fun x => (f x).rotateRight s :=
  fun a b => by
    dsimp only
    rw [hf]
    ext i hi
    simp only [BitVec.getElem_rotateRight, BitVec.getElem_xor]
    split <;> rfl

theorem iterate {f : BitVec n → BitVec n} (hf : XorLinear f) : ∀ s : Nat, XorLinear (f^[s])
  | 0 => id
  | s + 1 => fun a b => by
    rw [Function.iterate_succ_apply, hf, iterate hf s, ← Function.iterate_succ_apply,
      ← Function.iterate_succ_apply]

theorem map_zero (hf : XorLinear f) : f 0#m = 0#n := by
  have h := hf 0#m 0#m
  rwa [BitVec.xor_self, BitVec.xor_self] at h

/-- **A map is known from the words of one bit.** -/
theorem eq_of_twoPow (hf : XorLinear f) (hg : XorLinear g)
    (h : ∀ i < m, f (BitVec.twoPow m i) = g (BitVec.twoPow m i)) : f = g := by
  have hlow : ∀ k ≤ m, ∀ x : BitVec m, (∀ i, k ≤ i → x.getLsbD i = false) → f x = g x := by
    intro k
    induction k with
    | zero =>
      intro _ x hx
      have hzero : x = 0#m := by
        ext i hi
        rw [← BitVec.getLsbD_eq_getElem, hx i (Nat.zero_le i)]
        simp
      rw [hzero, hf.map_zero, hg.map_zero]
    | succ k ih =>
      intro hk x hx
      by_cases hbit : x.getLsbD k = true
      · -- without its highest bit the word has one bit less
        have hrest : f (x ^^^ BitVec.twoPow m k) = g (x ^^^ BitVec.twoPow m k) := by
          refine ih (Nat.le_of_succ_le hk) _ fun i hi => ?_
          rw [BitVec.getLsbD_xor, BitVec.getLsbD_twoPow]
          rcases Nat.eq_or_lt_of_le hi with rfl | hi
          · simp [hbit, Nat.lt_of_succ_le hk]
          · rw [hx i hi]
            simp [Nat.ne_of_lt hi]
        have hsplit : x = (x ^^^ BitVec.twoPow m k) ^^^ BitVec.twoPow m k := by
          rw [BitVec.xor_assoc, BitVec.xor_self, BitVec.xor_zero]
        rw [hsplit, hf, hg, hrest, h k hk]
      · refine ih (Nat.le_of_succ_le hk) x fun i hi => ?_
        rcases Nat.eq_or_lt_of_le hi with rfl | hi
        · simpa using hbit
        · exact hx i hi
  funext x
  exact hlow m (Nat.le_refl m) x fun i hi => BitVec.getLsbD_of_ge x i hi

end XorLinear

/-! ## Words without a bit in common -/

namespace BitVec

variable {n : Nat} {a b : BitVec n}

theorem or_eq_xor_of_and_eq_zero (h : a &&& b = 0) : a ||| b = a ^^^ b := by
  ext i hi
  have hbit : (a[i] && b[i]) = false := by
    rw [← getElem_and, h]
    exact getElem_zero hi
  rw [getElem_or, getElem_xor]
  revert hbit
  cases a[i] <;> cases b[i] <;> decide

theorem add_eq_xor_of_and_eq_zero (h : a &&& b = 0) : a + b = a ^^^ b := by
  rw [add_eq_or_of_and_eq_zero a b h, or_eq_xor_of_and_eq_zero h]

end BitVec

/-! ## Ciphers -/

/-- A round substitutes, mixes and adds a key; `subInv` and `mixInv` undo its parts. -/
structure KeyAlternating (σ : Type*) where
  add : σ → σ → σ
  sub : σ → σ
  subInv : σ → σ
  mix : σ → σ
  mixInv : σ → σ
  add_add_cancel : ∀ a k, add (add a k) k = a
  subInv_sub : ∀ a, subInv (sub a) = a
  mixInv_mix : ∀ a, mixInv (mix a) = a
  mixInv_add : ∀ a b, mixInv (add a b) = add (mixInv a) (mixInv b)

namespace KeyAlternating

variable {σ : Type*} (C : KeyAlternating σ)

def round (a k : σ) : σ := C.add (C.mix (C.sub a)) k

/-- A round of the decryption, in the form of the other, with a mixed key. -/
def roundInv (a k : σ) : σ := C.add (C.mixInv (C.subInv a)) (C.mixInv k)

/-- Rounds with the keys in turn; the last one does not mix. -/
def encrypt (first : σ) (keys : List σ) (last a : σ) : σ :=
  C.add (C.sub (keys.foldl C.round (C.add a first))) last

def decrypt (first : σ) (keys : List σ) (last a : σ) : σ :=
  C.add (C.subInv (keys.reverse.foldl C.roundInv (C.add a last))) first

/-- A round of the decryption takes what one of the encryption has substituted back to what it
started from, substituted. -/
theorem roundInv_sub_round (a k : σ) : C.roundInv (C.sub (C.round a k)) k = C.sub a := by
  rw [roundInv, round, C.subInv_sub, C.mixInv_add, C.add_add_cancel, C.mixInv_mix]

theorem foldl_roundInv (keys : List σ) (a : σ) :
    keys.reverse.foldl C.roundInv (C.sub (keys.foldl C.round a)) = C.sub a := by
  induction keys generalizing a with
  | nil => rfl
  | cons k keys ih =>
    calc (k :: keys).reverse.foldl C.roundInv (C.sub ((k :: keys).foldl C.round a))
        = C.roundInv (keys.reverse.foldl C.roundInv
            (C.sub (keys.foldl C.round (C.round a k)))) k := by
          rw [List.reverse_cons, List.foldl_append]
          rfl
      _ = C.roundInv (C.sub (C.round a k)) k := by rw [ih]
      _ = C.sub a := C.roundInv_sub_round a k

/-- **Decryption undoes encryption.** -/
theorem undoes (first : σ) (keys : List σ) (last a : σ) :
    C.decrypt first keys last (C.encrypt first keys last a) = a := by
  rw [decrypt, encrypt, C.add_add_cancel, C.foldl_roundInv, C.subInv_sub, C.add_add_cancel]

end KeyAlternating
