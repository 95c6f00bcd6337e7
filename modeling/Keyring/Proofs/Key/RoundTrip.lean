import Keyring.Proofs.Ecdsa
import Keyring.Proofs.Ed25519
import Keyring.Proofs.Key.NamedCurve
import Keyring.Proofs.Key.PublicText
/-!
# Signatures that are made and verified

What a private Ed25519 key or a private key on P-256 signs is valid for the holder of the key, for
the holder of its public half, and for everyone who reads the public half from the text that it is
published as. An Ed25519 key signs every message. A key on P-256 signs unless no nonce is found, and
its signature is the encoding of two numbers, which can be taken out and put together again.
-/

namespace Keyring.Key

variable {key : Key} {scheme : Scheme} {draw : Draw} {message signature : Bytes}

/-- A signature that is valid for a key, for its public half, and for the key that is read from the
text of its public half. -/
structure IsBelieved (key : Key) (scheme : Scheme) (message signature : Bytes) : Prop where
  verify : key.verify scheme message signature = .ok .valid
  verify_toPublic : key.toPublic.verify scheme message signature = .ok .valid
  verify_published : ∃ text copy, key.exportPublic = .ok text ∧ importPublic text = .ok copy ∧
    copy.verify scheme message signature = .ok .valid

/-- A sound public half that can be published is the same for everyone. -/
theorem isBelieved_of_verify (hsound : key.publicKey.IsSound) (hfits : key.publicKey.FitsModulus)
    (h : key.verify scheme message signature = .ok .valid) :
    IsBelieved key scheme message signature := by
  have hpublic : key.toPublic.verify scheme message signature = .ok .valid := by
    rw [verify_toPublic, h]
  obtain ⟨text, htext, hread⟩ := exists_exportPublic hsound hfits
  exact ⟨h, hpublic, text, _, htext, hread, hpublic⟩

/-! ### Ed25519 -/

/-- A private Ed25519 key gives every message one signature of 64 bytes, whatever random values are
drawn, and it is valid wherever the public half is. -/
theorem isBelieved_sign_ed25519 (seed : Ed25519.Seed) (message : Bytes) :
    ∃ signature,
      (∀ draw, (ofPrivate (.ed25519 seed)).sign .ed25519 draw message = .ok signature) ∧
        signature.length = 64 ∧
        IsBelieved (ofPrivate (.ed25519 seed)) .ed25519 message signature := by
  refine ⟨Ed25519.sign seed message, fun draw => sign_ed25519 seed draw message,
    Ed25519.length_sign seed message, ?_⟩
  refine isBelieved_of_verify (PrivateKey.isSound_publicKey (.ed25519 seed)) nofun ?_
  rw [verify_ed25519 rfl, ofBool_eq_valid_iff]
  exact Ed25519.verify_sign seed message

/-! ### ECDSA on P-256 -/

/-- What a private key on P-256 signs is valid wherever the public half is, and is put together
again from the two numbers that it is read as. -/
theorem isBelieved_of_sign_ecdsaP256Sha256 {k : Ecdsa.SecretKey}
    (h : (ofPrivate (.ecdsaP256 k)).sign .ecdsaP256Sha256 draw message = .ok signature) :
    IsBelieved (ofPrivate (.ecdsaP256 k)) .ecdsaP256Sha256 message signature ∧
      ∃ r s, EcdsaSignature.parse signature = .ok ⟨r, s⟩ ∧
        EcdsaSignature.toDer ⟨r, s⟩ = signature := by
  rw [sign_ecdsaP256Sha256, primitive_eq_ok_iff] at h
  constructor
  · refine isBelieved_of_verify (PrivateKey.isSound_publicKey (.ecdsaP256 k)) nofun ?_
    rw [verify_ecdsaP256Sha256 (P := k.publicKey) rfl, Ecdsa.verify_of_sign? h]
    rfl
  · obtain ⟨-, r, s, -, hparse, hwrite⟩ := Ecdsa.exists_parse_of_sign? h
    exact ⟨_, _, hparse, hwrite⟩

/-- The key with the scalar one signs the empty message, and is believed. -/
theorem isBelieved_of_sign_scalarOne :
    ∃ signature,
      (ofPrivate (.ecdsaP256 scalarOne)).sign .ecdsaP256Sha256 (drawOfMask 1) [] = .ok signature ∧
      IsBelieved (ofPrivate (.ecdsaP256 scalarOne)) .ecdsaP256Sha256 [] signature ∧
      ∃ r s, EcdsaSignature.parse signature = .ok ⟨r, s⟩ ∧
        EcdsaSignature.toDer ⟨r, s⟩ = signature := by
  have hsome : (Ecdsa.sign? scalarOne []).isSome := by
    simp only [Ecdsa.sign?, Ecdsa.signNumbers?, P256.smul_generator]
    decide +kernel
  obtain ⟨signature, hsignature⟩ := exists_primitive_eq_ok_iff.2 hsome
  rw [← sign_ecdsaP256Sha256 scalarOne (drawOfMask 1)] at hsignature
  exact ⟨signature, hsignature, isBelieved_of_sign_ecdsaP256Sha256 hsignature⟩

end Keyring.Key
