import Keyring.Proofs.Key.BitFlip
/-!
# Verifying with a key on edwards25519

A signature has 64 bytes, its second half is a scalar below the order of the generator, and there is
one such scalar at most for a first half. This holds for every public key, of small order or not,
and whichever encoding of its point it was read from: the key only moves the point that the scalar
has to lead to.
-/

namespace Keyring.Key

open Bytes

variable {key : Key} {message signature signature' : Bytes}

/-- The public key that a valid signature was verified under. -/
theorem exists_verify_of_valid (h : key.verify .ed25519 message signature = .ok .valid) :
    ∃ k, key.publicKey = .ed25519 k ∧ Ed25519.verify k message signature = true := by
  obtain ⟨k, hk⟩ := exists_publicKey_eq_ed25519 (algorithm_of_verify h).symm
  rw [verify_ed25519 hk, ofBool_eq_valid_iff] at h
  exact ⟨k, hk, h⟩

theorem eq_of_valid (hfirst : signature.take 32 = signature'.take 32)
    (h : key.verify .ed25519 message signature = .ok .valid)
    (h' : key.verify .ed25519 message signature' = .ok .valid) : signature = signature' := by
  obtain ⟨k, hk, hverify⟩ := exists_verify_of_valid h
  rw [verify_ed25519 hk, ofBool_eq_valid_iff] at h'
  exact Ed25519.eq_of_verify hfirst hverify h'

/-- How strict a key is about the second half of a signature. -/
structure VerifiesStrictly (key : Key) : Prop where
  length_eq : ∀ message signature, key.verify .ed25519 message signature = .ok .valid →
    signature.length = 64
  scalar_lt : ∀ message signature, key.verify .ed25519 message signature = .ok .valid →
    toNatLE (signature.drop 32) < 2 ^ 252 + 27742317777372353535851937790883648493
  eq_of_take_eq : ∀ message signature signature', signature.take 32 = signature'.take 32 →
    key.verify .ed25519 message signature = .ok .valid →
    key.verify .ed25519 message signature' = .ok .valid → signature = signature'
  /-- Anything else that begins like a valid signature is invalid, and no error. -/
  invalid_of_ne : ∀ message signature other, other.take 32 = signature.take 32 →
    key.verify .ed25519 message signature = .ok .valid → other ≠ signature →
      key.verify .ed25519 message other = .ok .invalid

/-- Every key is strict, whatever its public key. -/
theorem verify_ed25519_strict (key : Key) : VerifiesStrictly key where
  length_eq message signature h := by
    obtain ⟨k, -, hverify⟩ := exists_verify_of_valid h
    exact (Ed25519.length_of_verify hverify).1
  scalar_lt message signature h := by
    obtain ⟨k, -, hverify⟩ := exists_verify_of_valid h
    exact (Ed25519.length_of_verify hverify).2.trans_eq Edwards25519.order_eq
  eq_of_take_eq message signature signature' hfirst h h' := eq_of_valid hfirst h h'
  invalid_of_ne message signature other hfirst h hne := by
    obtain ⟨k, hk, -⟩ := exists_verify_of_valid h
    rw [verify_ed25519 hk]
    -- another valid signature with this first half would be the same one.
    cases hother : Ed25519.verify k message other with
    | false => rfl
    | true =>
      have hvalid : key.verify .ed25519 message other = .ok .valid := by
        rw [verify_ed25519 hk, hother]
        rfl
      exact absurd (eq_of_valid hfirst hvalid h) hne

/-- A public key of small order accepts the signature of zeros for one message, and does not accept
it with the order in the place of the scalar zero. -/
theorem verify_ed25519_strict_lowOrderKey :
    Obtainable (ofPublic (.ed25519 lowOrderKey)) ∧
    (ofPublic (.ed25519 lowOrderKey)).verify .ed25519 [0x11] (List.replicate 64 0) = .ok .valid ∧
    (List.replicate 64 (0 : UInt8)).length = 64 ∧
    toNatLE ((List.replicate 64 0).drop 32) < Edwards25519.order ∧
    (ofPublic (.ed25519 lowOrderKey)).verify .ed25519 [0x11]
      (List.replicate 32 0 ++ ofNatLE 32 Edwards25519.order) = .ok .invalid := by
  have hstrict := verify_ed25519_strict (ofPublic (.ed25519 lowOrderKey))
  exact ⟨obtainable_lowOrderKey, verify_lowOrderKey, hstrict.length_eq _ _ verify_lowOrderKey,
    (hstrict.scalar_lt _ _ verify_lowOrderKey).trans_eq Edwards25519.order_eq.symm,
    hstrict.invalid_of_ne _ _ _ (by decide) verify_lowOrderKey (by decide)⟩

end Keyring.Key
