import Keyring.Proofs.Key.SigningContext
/-!
# Signing and verifying under each scheme

For a key of the algorithm of a scheme, the operations of a key are those of the primitive that
belongs to the scheme, and no other case of their definitions is reached. Later proofs work with the
equations of this module and do not open the operations again.
-/

namespace Keyring

open Bytes

namespace Key

variable {key : Key}

/-! ### Outcomes of primitives -/

/-- A primitive answers what its computation finds. -/
theorem primitive_eq_ok_iff {result : Option Bytes} {b : Bytes} :
    primitive result = .ok b ↔ result = some b := by
  cases result <;> simp [primitive]

theorem exists_primitive_eq_ok_iff {result : Option Bytes} :
    (∃ b, primitive result = .ok b) ↔ result.isSome := by
  simp only [primitive_eq_ok_iff, Option.isSome_iff_exists]

/-- A primitive has one way to fail. -/
theorem primitive_eq_ok_or (result : Option Bytes) :
    (∃ b, primitive result = .ok b) ∨ primitive result = .error .cryptoFailure := by
  cases result with
  | none => exact Or.inr rfl
  | some b => exact Or.inl ⟨b, rfl⟩

/-- A test that passed is a valid signature. -/
theorem ofBool_eq_valid_iff {passed : Bool} :
    (Except.ok (.ofBool passed) : Except Error Verdict) = .ok .valid ↔ passed = true := by
  cases passed <;> simp [Verdict.ofBool]

/-! ### Keys of an algorithm -/

/-- The public half of an Ed25519 key. -/
theorem exists_publicKey_eq_ed25519 (h : key.algorithm = .ed25519) :
    ∃ k, key.publicKey = .ed25519 k := by
  rw [← algorithm_publicKey] at h
  cases hkey : key.publicKey with
  | ed25519 k => exact ⟨k, rfl⟩
  | _ => rw [hkey] at h; cases h

/-- The public half of an RSA key. -/
theorem exists_publicKey_eq_rsa (h : key.algorithm = .rsa) : ∃ k, key.publicKey = .rsa k := by
  rw [← algorithm_publicKey] at h
  cases hkey : key.publicKey with
  | rsa k => exact ⟨k, rfl⟩
  | _ => rw [hkey] at h; cases h

/-- The public half of a P-256 key. -/
theorem exists_publicKey_eq_ecdsaP256 (h : key.algorithm = .ecdsaP256) :
    ∃ P, key.publicKey = .ecdsaP256 P := by
  rw [← algorithm_publicKey] at h
  cases hkey : key.publicKey with
  | ecdsaP256 P => exact ⟨P, rfl⟩
  | _ => rw [hkey] at h; cases h

/-! ### Signing -/

/-- Signing with a seed, past the checks. -/
theorem sign_ed25519 (seed : Ed25519.Seed) (draw : Draw) (message : Bytes) :
    (ofPrivate (.ed25519 seed)).sign .ed25519 draw message = .ok (Ed25519.sign seed message) := by
  have h : SigningContext.ofScheme .ed25519 (.ed25519 seed) = .ok (.ed25519 seed) := rfl
  exact SigningContext.sign_eq_primitive h draw message

/-- Signing under PKCS#1 v1.5, past the checks. -/
theorem sign_rsaPkcs1Sha256 (k : Rsa.PrivateKey) (draw : Draw) (message : Bytes) :
    (ofPrivate (.rsa k)).sign .rsaPkcs1Sha256 draw message
      = primitive (Rsa.Pkcs1v15.sign? k draw.mask message) := by
  have h : SigningContext.ofScheme .rsaPkcs1Sha256 (.rsa k) = .ok (.rsa k .pkcs1v15) := rfl
  exact SigningContext.sign_eq_primitive h draw message

/-- Signing under PSS, past the checks. -/
theorem sign_rsaPssSha256 (k : Rsa.PrivateKey) (draw : Draw) (message : Bytes) :
    (ofPrivate (.rsa k)).sign .rsaPssSha256 draw message
      = primitive (Rsa.Pss.sign? k message draw.salt.val) := by
  have h : SigningContext.ofScheme .rsaPssSha256 (.rsa k) = .ok (.rsa k .pss) := rfl
  exact SigningContext.sign_eq_primitive h draw message

/-- Signing with a P-256 scalar, past the checks. -/
theorem sign_ecdsaP256Sha256 (k : Ecdsa.SecretKey) (draw : Draw) (message : Bytes) :
    (ofPrivate (.ecdsaP256 k)).sign .ecdsaP256Sha256 draw message
      = primitive (Ecdsa.sign? k message) := by
  have h : SigningContext.ofScheme .ecdsaP256Sha256 (.ecdsaP256 k) = .ok (.ecdsaP256 k) := rfl
  exact SigningContext.sign_eq_primitive h draw message

/-- A private key of the algorithm of a scheme leaves the result to the primitive. -/
theorem exists_sign_eq_primitive {scheme : Scheme} (halgorithm : scheme.algorithm = key.algorithm)
    (hprivate : key.isPrivate = true) (draw : Draw) (message : Bytes) :
    ∃ result, key.sign scheme draw message = primitive result := by
  cases key with
  | ofPublic k => cases hprivate
  | ofPrivate k =>
    obtain ⟨context, hcontext⟩ := SigningContext.exists_ofScheme halgorithm
    exact ⟨_, SigningContext.sign_eq_primitive hcontext draw message⟩

/-! ### Verifying -/

/-- Verification with an Ed25519 key, past the checks. -/
theorem verify_ed25519 {k : Ed25519.PublicKey} (h : key.publicKey = .ed25519 k)
    (message signature : Bytes) :
    key.verify .ed25519 message signature
      = .ok (.ofBool (Ed25519.verify k message signature)) := by
  rw [← verify_toPublic, toPublic, h]
  rfl

/-- Verification under PKCS#1 v1.5, past the checks. -/
theorem verify_rsaPkcs1Sha256 {k : Rsa.PublicKey} (h : key.publicKey = .rsa k)
    (message signature : Bytes) :
    key.verify .rsaPkcs1Sha256 message signature
      = .ok (.ofBool (Rsa.Pkcs1v15.verify k message signature)) := by
  rw [← verify_toPublic, toPublic, h]
  rfl

/-- Verification under PSS, past the checks. -/
theorem verify_rsaPssSha256 {k : Rsa.PublicKey} (h : key.publicKey = .rsa k)
    (message signature : Bytes) :
    key.verify .rsaPssSha256 message signature
      = .ok (.ofBool (Rsa.Pss.verify k message signature)) := by
  rw [← verify_toPublic, toPublic, h]
  rfl

/-- Verification with a point of P-256, past the checks. -/
theorem verify_ecdsaP256Sha256 {P : P256.Point} (h : key.publicKey = .ecdsaP256 P)
    (message signature : Bytes) :
    key.verify .ecdsaP256Sha256 message signature
      = (Ecdsa.verify P message signature).map .ofBool := by
  rw [← verify_toPublic, toPublic, h]
  show (Ecdsa.verify P message signature >>= fun passed => Except.ok (Verdict.ofBool passed)) = _
  cases Ecdsa.verify P message signature <;> rfl

/-- Where the signature is no document, verifying has a verdict. -/
theorem exists_verify_eq_ok {scheme : Scheme} (halgorithm : scheme.algorithm = key.algorithm)
    (hscheme : scheme ≠ .ecdsaP256Sha256) (message signature : Bytes) :
    ∃ verdict, key.verify scheme message signature = .ok verdict := by
  cases scheme with
  | ed25519 =>
    obtain ⟨k, hk⟩ := exists_publicKey_eq_ed25519 halgorithm.symm
    exact ⟨_, verify_ed25519 hk message signature⟩
  | rsaPkcs1Sha256 =>
    obtain ⟨k, hk⟩ := exists_publicKey_eq_rsa halgorithm.symm
    exact ⟨_, verify_rsaPkcs1Sha256 hk message signature⟩
  | rsaPssSha256 =>
    obtain ⟨k, hk⟩ := exists_publicKey_eq_rsa halgorithm.symm
    exact ⟨_, verify_rsaPssSha256 hk message signature⟩
  | ecdsaP256Sha256 => exact absurd rfl hscheme

end Key

end Keyring
