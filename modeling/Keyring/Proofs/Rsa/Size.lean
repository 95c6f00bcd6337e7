import Keyring.Proofs.Bytes
import Keyring.Proofs.Rsa.Power
/-!
# The modulus and the length of a signature

A modulus of `b` bits is at least `2 ^ (b - 1)`, so an encoded message of fewer bits is below it and
is a number that the private operation takes. What comes out is below the modulus and survives being
written at the length of a signature. Both paddings rest on these facts.
-/

namespace Keyring.Rsa

open Arith Bytes

namespace PublicKey

variable (key : PublicKey)

theorem bits_pos : 0 < key.bits := by
  by_contra h
  have hlt : key.n < 2 ^ 0 := bitLength_le_iff.1 (Nat.le_of_not_lt h)
  have hpos := key.n_pos
  omega

theorem pow_le_n : 2 ^ (key.bits - 1) ≤ key.n := by
  by_contra h
  have hle : key.bits ≤ key.bits - 1 := bitLength_le_iff.2 (Nat.lt_of_not_le h)
  have hpos := key.bits_pos
  omega

theorem n_lt_pow_size : key.n < 256 ^ key.size := by
  have hbits : key.bits ≤ 8 * key.size := by
    unfold size
    omega
  have hlt : key.n < 2 ^ (8 * key.size) := bitLength_le_iff.1 hbits
  rwa [pow_mul] at hlt

/-- A number with a zero in the first place of a signature is below the modulus. -/
theorem lt_n_of_lt_pow {x : ℕ} (h : x < 256 ^ (key.size - 1)) : x < key.n := by
  have hpos := key.bits_pos
  have hbits : 8 * (key.size - 1) ≤ key.bits - 1 := by
    unfold size
    omega
  calc x < 256 ^ (key.size - 1) := h
    _ = 2 ^ (8 * (key.size - 1)) := (pow_mul 2 8 _).symm
    _ ≤ 2 ^ (key.bits - 1) := Nat.pow_le_pow_right (by decide) hbits
    _ ≤ key.n := key.pow_le_n

theorem toNat_ofNat_size {y : ℕ} (h : y < key.n) : toNat (ofNat key.size y) = y :=
  toNat_ofNat_of_lt (h.trans key.n_lt_pow_size)

/-- A byte string as long as a signature is the writing of its number. -/
theorem ofNat_size_toNat {b : Bytes} (h : b.length = key.size) : ofNat key.size (toNat b) = b := by
  rw [← h, ofNat_toNat]

end PublicKey

namespace PrivateKey

theorem powerMasked_lt (key : PrivateKey) (factor x : ℕ) : key.powerMasked factor x < key.n := by
  unfold powerMasked
  split
  · exact key.power_lt x
  · exact Nat.mod_lt _ key.n_pos

/-- The result that is checked at the end of signing is a root of the encoded message, whatever the
factors of the modulus are. -/
theorem checked?_eq_some_iff {key : PrivateKey} {x y z : ℕ} :
    key.checked? x y = some z ↔ (x < key.n ∧ key.apply y = x) ∧ y = z := by
  unfold checked?
  rw [Option.ite_none_right_eq_some, Option.some_inj]

end PrivateKey

end Keyring.Rsa
