import Mathlib.Data.Nat.ChineseRemainder
import Mathlib.FieldTheory.Finite.Basic

/-!
# Exponents that undo each other

Modulo a product of different primes, the powers with `e` and `d` undo each other where
`e * d` is one modulo each of the primes less one.  So a power is known from its root:
`KeyPair.pow_mod_eq_iff`.
-/

/-- `e` and `d` belong to the modulus `n`. -/
structure KeyPair (n e d : ℕ) : Prop where
  primes : ∃ ps : List ℕ, ps.Nodup ∧ (∀ p ∈ ps, p.Prime ∧ e * d ≡ 1 [MOD p - 1]) ∧ ps.prod = n
  pos : 0 < e * d

namespace KeyPair

variable {n e d : ℕ}

theorem symm (h : KeyPair n e d) : KeyPair n d e where
  primes := by
    obtain ⟨ps, hnodup, hps, hn⟩ := h.primes
    rw [Nat.mul_comm] at hps
    exact ⟨ps, hnodup, hps, hn⟩
  pos := by
    rw [Nat.mul_comm]
    exact h.pos

theorem modulus_pos (h : KeyPair n e d) : 0 < n := by
  obtain ⟨ps, -, hps, rfl⟩ := h.primes
  exact List.prod_pos fun p hp => (hps p hp).1.pos

/-- Fermat's little theorem, for a multiple of a prime too. -/
theorem pow_modEq_self {p k : ℕ} (hp : p.Prime) (hk : k ≡ 1 [MOD p - 1]) (hpos : 0 < k) (m : ℕ) :
    m ^ k ≡ m [MOD p] := by
  by_cases hdvd : p ∣ m
  · have hzero : m ≡ 0 [MOD p] := Nat.modEq_zero_iff_dvd.mpr hdvd
    calc m ^ k ≡ 0 ^ k [MOD p] := hzero.pow k
      _ = 0 := Nat.zero_pow hpos
      _ ≡ m [MOD p] := hzero.symm
  · obtain ⟨j, hj⟩ := (Nat.modEq_iff_dvd' hpos).mp hk.symm
    have hcoprime : Nat.Coprime m p := ((Nat.Prime.coprime_iff_not_dvd hp).mpr hdvd).symm
    have hfermat : m ^ (p - 1) ≡ 1 [MOD p] := by
      have h := Nat.ModEq.pow_totient hcoprime
      rwa [Nat.totient_prime hp] at h
    have hsplit : k = (p - 1) * j + 1 := by omega
    calc m ^ k = (m ^ (p - 1)) ^ j * m := by rw [hsplit, pow_succ, pow_mul]
      _ ≡ 1 ^ j * m [MOD p] := (hfermat.pow j).mul_right m
      _ = m := by rw [one_pow, Nat.one_mul]

/-- **The exponents undo each other.** -/
theorem pow_pow_modEq (h : KeyPair n e d) (m : ℕ) : (m ^ e) ^ d ≡ m [MOD n] := by
  obtain ⟨ps, hnodup, hps, rfl⟩ := h.primes
  have hcoprime : ps.Pairwise Nat.Coprime := hnodup.imp_of_mem fun hp hq hne =>
    (Nat.coprime_primes (hps _ hp).1 (hps _ hq).1).mpr hne
  rw [← pow_mul, Nat.modEq_list_prod_iff hcoprime]
  intro i
  obtain ⟨hp, hmod⟩ := hps (ps.get i) (List.get_mem ps i)
  exact pow_modEq_self hp hmod h.pos m

theorem pow_mod_pow (h : KeyPair n e d) {m : ℕ} (hm : m < n) : (m ^ e % n) ^ d % n = m := by
  have hback : (m ^ e) ^ d % n = m % n := h.pow_pow_modEq m
  rw [← Nat.pow_mod, hback, Nat.mod_eq_of_lt hm]

/-- **A power is known from its root**: `m` is the power of `s` where `s` is the power of `m`. -/
theorem pow_mod_eq_iff (h : KeyPair n e d) {s m : ℕ} (hm : m < n) :
    s ^ e % n = m ↔ s % n = m ^ d % n := by
  constructor
  · rintro rfl
    rw [← Nat.pow_mod]
    exact (h.pow_pow_modEq s).symm
  · intro hs
    have hpow : s ^ e ≡ (m ^ d) ^ e [MOD n] := Nat.ModEq.pow e hs
    have hback : s ^ e % n = m % n := hpow.trans (h.symm.pow_pow_modEq m)
    rw [hback, Nat.mod_eq_of_lt hm]

end KeyPair
