import Keyring.Proofs.BitFlip
import Keyring.Proofs.Rsa.Pkcs1v15
import Keyring.Proofs.Rsa.Pss
/-!
# RSA signatures with one bit changed

The modulus is odd, so a changed bit changes the remainder by it, and where the public operation is
injective it leads elsewhere. With the fixed padding the message has no other encoding, and nothing
is valid then. With a salt the other power may still be an encoding of the message; it has another
salt, if the encoding is as long as the modulus.
-/

namespace Keyring.Rsa

open Bytes

/-! ### The public operation -/

/-- A changed bit changes the power. -/
theorem PrivateKey.IsUndone.apply_flipBit_ne {key : PrivateKey} (hkey : key.IsUndone) {b : Bytes}
    {i j : ℕ} (hi : i < b.length) (hj : j < 8) :
    key.apply (toNat (flipBit b i j)) ≠ key.apply (toNat b) := by
  intro h
  rw [← key.apply_mod (toNat (flipBit b i j)), ← key.apply_mod (toNat b)] at h
  have hlarge : 3 < key.n := lt_of_le_of_lt key.three_le_e key.e_lt_n
  exact toNat_flipBit_mod_ne key.n_odd (by omega) hi hj
    (hkey.apply_injOn (Nat.mod_lt _ key.n_pos) (Nat.mod_lt _ key.n_pos) h)

/-! ### The fixed padding -/

namespace Pkcs1v15

variable {message signature b : Bytes} {i j : ℕ}

/-- Beside a valid signature another byte string of its length is valid if and only if its number is
below the modulus and has the same power. -/
theorem verify_eq_true_iff_apply_eq {key : PublicKey}
    (hvalid : verify key message signature = true) (hlength : b.length = signature.length) :
    verify key message b = true ↔
      toNat b < key.n ∧ key.apply (toNat b) = key.apply (toNat signature) := by
  obtain ⟨hsize, -, padded, hpad, hroot⟩ := verify_eq_true_iff.1 hvalid
  rw [verify_eq_true_iff]
  constructor
  · rintro ⟨-, hlt, padded', hpad', hroot'⟩
    obtain rfl : padded = padded' := Option.some.inj (hpad.symm.trans hpad')
    exact ⟨hlt, hroot'.trans hroot.symm⟩
  · rintro ⟨hlt, happly⟩
    exact ⟨hlength.trans hsize, hlt, padded, hpad, happly.trans hroot⟩

theorem verify_flipBit_eq_false {key : PrivateKey} (hkey : key.IsUndone)
    (hvalid : verify key.toPublicKey message signature = true) (hi : i < signature.length)
    (hj : j < 8) : verify key.toPublicKey message (flipBit signature i j) = false := by
  rw [Bool.eq_false_iff, ne_eq, verify_eq_true_iff_apply_eq hvalid (length_flipBit signature i j)]
  exact fun h => hkey.apply_flipBit_ne hi hj h.2

end Pkcs1v15

/-! ### The padding with a salt -/

namespace Pss

variable {message signature salt salt' : Bytes} {i j : ℕ}

/-- The encoded message that a signature leads to. -/
def encodedOf (key : PublicKey) (signature : Bytes) : Bytes :=
  ofNat (encodedLength (encodedBits key)) (key.apply (toNat signature))

/-- Unless the modulus has one bit more than a number of bytes, an encoded message has as many bytes
as the modulus. -/
theorem encodedLength_eq_size {key : PublicKey} (hbits : key.bits % 8 ≠ 1) :
    encodedLength (encodedBits key) = key.size := by
  have hpos := key.bits_pos
  unfold encodedLength encodedBits PublicKey.size
  omega

/-- A changed bit leads to an encoding with another salt, if to any. -/
theorem salt_ne_of_encode?_flipBit {key : PrivateKey} (hkey : key.IsUndone)
    (hbits : key.bits % 8 ≠ 1) (hi : i < signature.length) (hj : j < 8)
    (h : encode? (encodedBits key.toPublicKey) message salt
      = some (encodedOf key.toPublicKey signature))
    (h' : encode? (encodedBits key.toPublicKey) message salt'
      = some (encodedOf key.toPublicKey (flipBit signature i j))) : salt ≠ salt' := by
  rintro rfl
  have hencoded : encodedOf key.toPublicKey (flipBit signature i j)
      = encodedOf key.toPublicKey signature := Option.some.inj (h'.symm.trans h)
  -- written at the size of the modulus, no part of the powers is lost.
  have hpower := congrArg toNat hencoded
  unfold encodedOf at hpower
  rw [encodedLength_eq_size hbits, key.toNat_ofNat_size (key.apply_lt _),
    key.toNat_ofNat_size (key.apply_lt _)] at hpower
  exact hkey.apply_flipBit_ne hi hj hpower

end Pss

end Keyring.Rsa
