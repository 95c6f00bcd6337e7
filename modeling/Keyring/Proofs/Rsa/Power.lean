import Keyring.Proofs.Arith.Residue
import Keyring.Rsa.Key
/-!
# The two operations of an RSA key

The private operation is undone by the public one when the factors of the modulus are distinct
primes. A key whose factors are not prime may have numbers for which that fails. Where it never
fails, the mask of the private operation does not change its result: the public operation is then
injective, and it takes a mask to the factor that is taken off again.
-/

namespace Keyring.Rsa

open Arith

/-! ### The public operation -/

namespace PublicKey

variable (key : PublicKey)

theorem n_pos : 0 < key.n :=
  lt_of_le_of_lt (Nat.zero_le _) key.e_lt_n

theorem apply_lt (x : ℕ) : key.apply x < key.n :=
  powMod_lt key.n_pos x key.e

/-- The public operation is the power by the public exponent. -/
theorem apply_eq (x : ℕ) : key.apply x = x ^ key.e % key.n :=
  powMod_eq key.n x key.e

/-- The public operation depends on the residue only. -/
theorem apply_mod (x : ℕ) : key.apply (x % key.n) = key.apply x := by
  rw [apply_eq, apply_eq, ← Nat.pow_mod]

/-- The public operation looks at the remainder of a number alone. -/
theorem apply_congr {x y : ℕ} (h : x ≡ y [MOD key.n]) : key.apply x = key.apply y := by
  rw [← apply_mod, h, apply_mod]

/-- The public operation respects products. -/
theorem apply_mul_mod (x y : ℕ) :
    key.apply (x * y % key.n) = key.apply x * key.apply y % key.n := by
  rw [apply_eq, apply_eq, apply_eq, ← Nat.pow_mod, mul_pow, Nat.mul_mod]

end PublicKey

namespace PrivateKey

variable (key : PrivateKey)

theorem p_pos : 0 < key.p := Nat.lt_trans Nat.zero_lt_one key.one_lt_p

theorem q_pos : 0 < key.q := Nat.lt_trans Nat.zero_lt_one key.one_lt_q

/-! ### The private operation -/

theorem power_lt (x : ℕ) : key.power x < key.n := by
  unfold power
  split
  · exact powMod_lt key.n_pos x key.d
  · next qInv _ =>
    have hb : powMod key.q x key.dQ < key.q := powMod_lt key.q_pos _ _
    have ha : ∀ a, a % key.p < key.p := fun a => Nat.mod_lt a key.p_pos
    -- the recombined power is a digit below `q` and one below `p`, in the place of `q`.
    generalize powMod key.q x key.dQ = b at hb ⊢
    specialize ha (qInv * (powMod key.p x key.dP + (key.p - b % key.p)))
    show b + qInv * (powMod key.p x key.dP + (key.p - b % key.p)) % key.p * key.q < key.n
    generalize qInv * (powMod key.p x key.dP + (key.p - b % key.p)) % key.p = a at ha ⊢
    calc b + a * key.q < (a + 1) * key.q := by rw [Nat.add_mul]; omega
      _ ≤ key.p * key.q := Nat.mul_le_mul_right _ ha
      _ = key.n := key.p_mul_q

/-- The private operation of the key is undone by the public one. -/
def IsUndone : Prop :=
  ∀ x < key.n, key.apply (key.power x) = x

variable {key}

/-- The public operation is injective, because it undoes a map of the numbers below the modulus to
themselves. -/
theorem IsUndone.apply_injOn (h : key.IsUndone) : Set.InjOn key.apply (Set.Iio key.n) := by
  have hmaps : Set.MapsTo key.power (Set.Iio key.n) (Set.Iio key.n) := fun x _ => key.power_lt x
  have hright : Set.LeftInvOn key.apply key.power (Set.Iio key.n) := h
  have hsurj : Set.SurjOn key.power (Set.Iio key.n) (Set.Iio key.n) :=
    ((Set.finite_Iio key.n).injOn_iff_bijOn_of_mapsTo hmaps).1 hright.injOn |>.surjOn
  intro x hx y hy hxy
  obtain ⟨u, hu, rfl⟩ := hsurj hx
  obtain ⟨v, hv, rfl⟩ := hsurj hy
  rw [h u hu, h v hv] at hxy
  rw [hxy]

/-- Where the public operation always undoes the private one, a mask changes nothing. -/
theorem IsUndone.powerMasked_eq (h : key.IsUndone) (factor : ℕ) {x : ℕ} (hx : x < key.n) :
    key.powerMasked factor x = key.power x := by
  unfold powerMasked
  split
  · rfl
  · next inverse hinverse =>
    -- both sides are taken to the masked number, and the public operation is injective.
    -- both sides are taken to the masked number, and the public operation is injective.
    have hmasked : key.power (x * key.apply factor % key.n) = key.power x * factor % key.n := by
      refine h.apply_injOn (key.power_lt _) (Nat.mod_lt _ key.n_pos) ?_
      rw [h _ (Nat.mod_lt _ key.n_pos), PublicKey.apply_mul_mod, h x hx]
    have hcast : (inverse : ZMod key.n) * factor = 1 := cast_of_inverse? key.n_pos hinverse
    have hmod : key.power x * factor % key.n * inverse ≡ key.power x [MOD key.n] := by
      rw [← ZMod.natCast_eq_natCast_iff]
      push_cast
      rw [ZMod.natCast_mod]
      push_cast
      rw [mul_assoc, mul_comm (factor : ZMod key.n), hcast, mul_one]
    rw [hmasked, hmod, Nat.mod_eq_of_lt (key.power_lt x)]

/-! ### Keys with prime factors -/

/-- Modulo a prime, exponents whose product is one modulo its predecessor undo each other. -/
theorem pow_mul_eq_self {p d e : ℕ} [Fact p.Prime] (h : d * e % (p - 1) = 1) (x : ZMod p) :
    (x ^ (d % (p - 1))) ^ e = x := by
  have hmod : d % (p - 1) * e % (p - 1) = 1 := by rw [Nat.mod_mul_mod, h]
  rw [← pow_mul, ← Nat.div_add_mod (d % (p - 1) * e) (p - 1), hmod, pow_succ, pow_mul]
  by_cases hx : x = 0
  · rw [hx, mul_zero]
  · rw [ZMod.pow_card_sub_one_eq_one hx, one_pow, one_mul]

/-- What the two powers are put together to is the one modulo the first factor and the other modulo
the second. -/
theorem power_eq_of_qInv? {qInv : ℕ} (hqInv : key.qInv? = some qInv) (x : ℕ) :
    (key.power x : ZMod key.p) = (x : ZMod key.p) ^ key.dP ∧
      (key.power x : ZMod key.q) = (x : ZMod key.q) ^ key.dQ := by
  have hinverse : (qInv : ZMod key.p) * key.q = 1 := cast_of_inverse? key.p_pos hqInv
  have hle : powMod key.q x key.dQ % key.p ≤ key.p := (Nat.mod_lt _ key.p_pos).le
  rw [power, hqInv]
  constructor
  · push_cast [ZMod.natCast_mod, Nat.cast_sub hle, ZMod.natCast_self, cast_powMod]
    linear_combination ((x : ZMod key.p) ^ key.dP - (powMod key.q x key.dQ : ZMod key.p)) * hinverse
  · push_cast [ZMod.natCast_self, cast_powMod]
    ring

/-- With distinct primes the private exponent undoes the public one. -/
theorem isUndone_of_prime (hp : key.p.Prime) (hq : key.q.Prime) (hne : key.p ≠ key.q) :
    key.IsUndone := by
  have : Fact key.p.Prime := ⟨hp⟩
  have : Fact key.q.Prime := ⟨hq⟩
  have hcoprime : Nat.Coprime key.p key.q := (Nat.coprime_primes hp hq).2 hne
  obtain ⟨qInv, hqInv⟩ : ∃ qInv, key.qInv? = some qInv := by
    rw [← Option.ne_none_iff_exists', ne_eq, qInv?, inverse?_eq_none_iff key.p_pos, not_not]
    exact hcoprime.symm
  intro x hx
  obtain ⟨hpowp, hpowq⟩ := power_eq_of_qInv? hqInv x
  -- modulo each factor the exponents undo each other, and the factors have nothing in common.
  -- modulo each factor the exponents undo each other, and the factors have nothing in common.
  have hmodp : key.power x ^ key.e ≡ x [MOD key.p] := by
    rw [← ZMod.natCast_eq_natCast_iff, Nat.cast_pow, hpowp, dP, pow_mul_eq_self key.inverse_p]
  have hmodq : key.power x ^ key.e ≡ x [MOD key.q] := by
    rw [← ZMod.natCast_eq_natCast_iff, Nat.cast_pow, hpowq, dQ, pow_mul_eq_self key.inverse_q]
  have hmod := (Nat.modEq_and_modEq_iff_modEq_mul hcoprime).1 ⟨hmodp, hmodq⟩
  rw [key.p_mul_q] at hmod
  rw [PublicKey.apply_eq, hmod, Nat.mod_eq_of_lt hx]

end PrivateKey

end Keyring.Rsa
