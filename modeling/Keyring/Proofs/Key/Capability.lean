import Keyring.Key.Signature
import Keyring.Key.Text
import Mathlib
/-!
# What a key can do without its private half

Signing asks for the algorithm of the scheme and then for the private half, so a public key never
signs. Verifying, comparing and publishing look at the public half alone: a private key and its
public half answer them alike.
-/

namespace Keyring

/-! ### Algorithms in documents -/

/-- A public document names the algorithm of its key. -/
theorem PublicKey.algorithm_toSpki (key : PublicKey) : key.toSpki.algorithm = key.algorithm := by
  cases key <;> rfl

/-- A private document names the algorithm of its key. -/
theorem PrivateKey.algorithm_of_toPkcs8? {key : PrivateKey} {info : Document.PrivateKeyInfo}
    (h : key.toPkcs8? = some info) : info.algorithm = key.algorithm := by
  cases key with
  | ed25519 seed =>
    obtain rfl := Option.some.inj h
    rfl
  | rsa key =>
    obtain ⟨qInv, -, ⟨⟩⟩ := Option.bind_eq_some_iff.1 h
    rfl
  | ecdsaP256 key =>
    obtain rfl := Option.some.inj h
    rfl

namespace Key

variable {key : Key} {scheme : Scheme} {draw : Draw} {message signature : Bytes}

@[simp] theorem publicKey_toPublic (key : Key) : key.toPublic.publicKey = key.publicKey := rfl

@[simp] theorem algorithm_toPublic (key : Key) : key.toPublic.algorithm = key.algorithm :=
  key.algorithm_publicKey

/-- A public key is its own public half. -/
theorem toPublic_of_not_isPrivate (h : key.isPrivate = false) : key.toPublic = key := by
  cases key with
  | ofPrivate k => cases h
  | ofPublic k => rfl

/-- A new key is a private Ed25519 key with the seed that was drawn. -/
theorem eq_ofPrivate_of_generate {draw : Draw} {key : Key} (h : generate draw = .ok key) :
    key = .ofPrivate (.ed25519 draw.seed) := by
  unfold generate at h
  split at h
  · cases h
  · exact (Except.ok.inj h).symm

/-! ### What a scheme asks of a key -/

/-- A key passes for an algorithm if it is of this algorithm and has the private half if that is
needed. -/
theorem require_eq_ok_iff {a : Algorithm} {needsPrivate : Bool} :
    key.require (some a) needsPrivate = .ok () ↔
      a = key.algorithm ∧ (needsPrivate = true → key.isPrivate = true) := by
  simp [require, bind_eq_ok_iff, requireAlgorithm, requirePrivate]

/-- The algorithm is checked first: another one is reported whatever else is missing. -/
theorem require_of_ne {a : Algorithm} (h : a ≠ key.algorithm) (needsPrivate : Bool) :
    key.require (some a) needsPrivate = .error (.typeMismatch a key.algorithm) := by
  simp only [require, requireAlgorithm, if_neg h]
  rfl

/-- A public key does not pass where the private half is needed. -/
theorem require_private_of_not_isPrivate (h : key.isPrivate = false) :
    key.require (some key.algorithm) true = .error .capabilityMismatch := by
  simp only [require, requireAlgorithm, requirePrivate, h, if_true, Bool.not_false, Bool.and_true]
  rfl

/-- Without needing the private half, what is required of a key is required of its public half. -/
theorem require_toPublic (key : Key) (expected : Option Algorithm) :
    key.toPublic.require expected false = key.require expected false := by
  simp only [require, requireAlgorithm, requirePrivate, algorithm_toPublic, Bool.false_and]

/-! ### Signing -/

/-- A key that signs is private and of the algorithm of the scheme. -/
theorem algorithm_of_sign (h : key.sign scheme draw message = .ok signature) :
    scheme.algorithm = key.algorithm ∧ key.isPrivate = true := by
  obtain ⟨_, hrequire, -⟩ := bind_eq_ok_iff.1 h
  obtain ⟨halgorithm, hprivate⟩ := require_eq_ok_iff.1 hrequire
  exact ⟨halgorithm, hprivate rfl⟩

/-- A key that does not pass for the scheme signs nothing. -/
theorem sign_of_require_eq_error {e : Error}
    (h : key.require (some scheme.algorithm) true = .error e) :
    key.sign scheme draw message = .error e := by
  simp only [sign, h]
  rfl

/-- A public key signs under no scheme. The error is about the algorithm if that differs, and about
the missing half otherwise. -/
theorem sign_of_not_isPrivate (h : key.isPrivate = false) (scheme : Scheme) (draw : Draw)
    (message : Bytes) :
    key.sign scheme draw message = .error (if scheme.algorithm = key.algorithm
      then .capabilityMismatch else .typeMismatch scheme.algorithm key.algorithm) := by
  refine sign_of_require_eq_error ?_
  by_cases halgorithm : scheme.algorithm = key.algorithm
  · rw [if_pos halgorithm, halgorithm]
    exact require_private_of_not_isPrivate h
  · rw [if_neg halgorithm]
    exact require_of_ne halgorithm true

/-- A public key has no private text. -/
theorem privatePem_of_not_isPrivate (h : key.isPrivate = false) :
    key.privatePem = .error .capabilityMismatch := by
  cases key with
  | ofPrivate k => cases h
  | ofPublic k => rfl

/-! ### The public half -/

/-- The public half gives the same verdicts. -/
theorem verify_toPublic (key : Key) (scheme : Scheme) (message signature : Bytes) :
    key.toPublic.verify scheme message signature = key.verify scheme message signature := by
  rw [verify, verify, require_toPublic]
  rfl

theorem exportPublic_toPublic (key : Key) : key.toPublic.exportPublic = key.exportPublic := rfl

theorem samePublic_toPublic_left (key other : Key) :
    key.toPublic.samePublic other = key.samePublic other := rfl

theorem samePublic_toPublic_right (key other : Key) :
    other.samePublic key.toPublic = other.samePublic key := rfl

/-- Keys with the same public half have the same valid signatures under every scheme. -/
theorem verify_congr {a b : Key} (h : a.publicKey = b.publicKey) (scheme : Scheme)
    (message signature : Bytes) :
    a.verify scheme message signature = b.verify scheme message signature := by
  have hpublic : a.toPublic = b.toPublic := congrArg ofPublic h
  rw [← verify_toPublic a, hpublic, verify_toPublic]

/-! ### What a description promises -/

/-- What is promised of a key by its description: documents name the algorithm, a public key neither
signs nor shows a private half, and all else is done with the public half. -/
structure Respects (key : Key) : Prop where
  publicKey : key.publicKey.algorithm = key.describe.algorithm
  spki : key.publicKey.toSpki.algorithm = key.describe.algorithm
  pkcs8 : ∀ k info, key = .ofPrivate k → k.toPkcs8? = some info →
    info.algorithm = key.describe.algorithm
  sign : key.describe.isPrivate = false → ∀ scheme draw message,
    key.sign scheme draw message = .error (if scheme.algorithm = key.describe.algorithm
      then .capabilityMismatch else .typeMismatch scheme.algorithm key.describe.algorithm)
  privatePem : key.describe.isPrivate = false → key.privatePem = .error .capabilityMismatch
  verify : ∀ scheme message signature,
    key.verify scheme message signature = key.toPublic.verify scheme message signature
  exportPublic : key.exportPublic = key.toPublic.exportPublic
  samePublic : ∀ other, key.samePublic other = key.toPublic.samePublic other ∧
    other.samePublic key = other.samePublic key.toPublic

/-- Every key respects its algorithm and its capability. -/
theorem respects (key : Key) : key.Respects where
  publicKey := key.algorithm_publicKey
  spki := key.publicKey.algorithm_toSpki.trans key.algorithm_publicKey
  pkcs8 := by
    rintro k info rfl h
    exact PrivateKey.algorithm_of_toPkcs8? h
  sign h := sign_of_not_isPrivate h
  privatePem h := privatePem_of_not_isPrivate h
  verify scheme message signature := (key.verify_toPublic scheme message signature).symm
  exportPublic := key.exportPublic_toPublic.symm
  samePublic other :=
    ⟨(key.samePublic_toPublic_left other).symm, (key.samePublic_toPublic_right other).symm⟩

end Key

end Keyring
