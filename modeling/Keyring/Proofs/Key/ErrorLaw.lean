import Keyring.Fixed
import Keyring.Proofs.Ecdsa
import Keyring.Proofs.Ed25519
import Keyring.Proofs.Key.Signature
import Keyring.Proofs.Rsa.Pkcs1v15
import Keyring.Proofs.Rsa.Pss
/-!
# The errors of signing and verifying

A key of another algorithm is reported before anything else is looked at. After that, signing can
only miss the private half or fail in the primitive, and verifying can only fail to read a signature
that has to be a document. All other defects of a signature, its length among them, make it invalid.
The operations with the scheme in their names answer in the same way.
-/

namespace Keyring.Key

open Bytes

variable {key : Key} {scheme : Scheme} {message signature : Bytes}

/-! ### A key of another algorithm -/

theorem sign_of_algorithm_ne (h : scheme.algorithm ≠ key.algorithm) (draw : Draw)
    (message : Bytes) :
    key.sign scheme draw message = .error (.typeMismatch scheme.algorithm key.algorithm) :=
  sign_of_require_eq_error (require_of_ne h true)

theorem verify_of_algorithm_ne (h : scheme.algorithm ≠ key.algorithm)
    (message signature : Bytes) :
    key.verify scheme message signature
      = .error (.typeMismatch scheme.algorithm key.algorithm) := by
  simp only [verify, require_of_ne h]
  rfl

/-- A verdict is about a key of the algorithm of the scheme. -/
theorem algorithm_of_verify {verdict : Verdict}
    (h : key.verify scheme message signature = .ok verdict) :
    scheme.algorithm = key.algorithm := by
  by_contra halgorithm
  rw [verify_of_algorithm_ne halgorithm] at h
  cases h

/-! ### Signing -/

/-- With a key of the algorithm of the scheme, signing has three outcomes, and the first one belongs
to public keys alone. -/
theorem sign_cases (halgorithm : scheme.algorithm = key.algorithm) (draw : Draw)
    (message : Bytes) :
    key.isPrivate = false ∧ key.sign scheme draw message = .error .capabilityMismatch ∨
      key.isPrivate = true ∧ ((∃ signature, key.sign scheme draw message = .ok signature) ∨
        key.sign scheme draw message = .error .cryptoFailure) := by
  -- past the check of the algorithm there is the one of the capability, and then the primitive.
  cases hprivate : key.isPrivate with
  | false =>
    have hsign := sign_of_not_isPrivate hprivate scheme draw message
    rw [if_pos halgorithm] at hsign
    exact Or.inl ⟨rfl, hsign⟩
  | true =>
    obtain ⟨result, hresult⟩ := exists_sign_eq_primitive halgorithm hprivate draw message
    rw [hresult]
    exact Or.inr ⟨rfl, primitive_eq_ok_or result⟩

/-- Signing reports a mismatch exactly if the algorithms differ, and names both. -/
theorem sign_eq_typeMismatch_iff {draw : Draw} {expected actual : Algorithm} :
    key.sign scheme draw message = .error (.typeMismatch expected actual) ↔
      expected = scheme.algorithm ∧ actual = key.algorithm ∧ expected ≠ actual := by
  by_cases halgorithm : scheme.algorithm = key.algorithm
  -- with the right algorithm every outcome is another one.
  · refine iff_of_false ?_ ?_
    · rcases sign_cases halgorithm draw message with ⟨-, h⟩ | ⟨-, ⟨signature, h⟩ | h⟩
      all_goals
        rw [h]
        nofun
    · rintro ⟨rfl, rfl, hne⟩
      exact hne halgorithm
  · rw [sign_of_algorithm_ne halgorithm, Except.error.injEq, Error.typeMismatch.injEq]
    constructor
    · rintro ⟨rfl, rfl⟩
      exact ⟨rfl, rfl, halgorithm⟩
    · rintro ⟨rfl, rfl, -⟩
      exact ⟨rfl, rfl⟩

/-- With the right algorithm signing asks for the private half. -/
theorem sign_eq_capabilityMismatch_iff (halgorithm : scheme.algorithm = key.algorithm)
    {draw : Draw} :
    key.sign scheme draw message = .error .capabilityMismatch ↔ key.isPrivate = false := by
  rcases sign_cases halgorithm draw message with ⟨hpublic, h⟩ | ⟨hprivate, ⟨signature, h⟩ | h⟩
  · exact iff_of_true h hpublic
  all_goals
    rw [h, hprivate]
    exact iff_of_false nofun nofun

/-- A private Ed25519 key always signs. -/
theorem exists_sign_ed25519 (halgorithm : key.algorithm = .ed25519)
    (hprivate : key.isPrivate = true) (draw : Draw) (message : Bytes) :
    ∃ signature, key.sign .ed25519 draw message = .ok signature := by
  rcases key with (seed | _ | _) | _
  · exact ⟨_, sign_ed25519 seed draw message⟩
  · cases halgorithm
  · cases halgorithm
  · cases hprivate

/-! ### Verifying -/

/-- With a key of the algorithm of the scheme, the only error of verifying is about a signature that
is no canonical document. -/
theorem verify_eq_error_iff (halgorithm : scheme.algorithm = key.algorithm) {e : Error} :
    key.verify scheme message signature = .error e ↔
      e = .parseFailure ∧ scheme = .ecdsaP256Sha256 ∧ ¬ EcdsaSignature.IsCanonical signature := by
  by_cases hscheme : scheme = .ecdsaP256Sha256
  · subst hscheme
    -- the only scheme whose signatures are parsed.
    obtain ⟨P, hP⟩ := exists_publicKey_eq_ecdsaP256 halgorithm.symm
    have hverify : Ecdsa.verify P message signature = .error e ↔
        e = .parseFailure ∧ ¬ EcdsaSignature.IsCanonical signature :=
      Ecdsa.verify_eq_error_iff
    rw [verify_ecdsaP256Sha256 hP, and_iff_right rfl, ← hverify]
    cases Ecdsa.verify P message signature <;> simp [Except.map]
  · obtain ⟨verdict, hverdict⟩ := exists_verify_eq_ok halgorithm hscheme message signature
    rw [hverdict]
    exact iff_of_false nofun fun h => hscheme h.2.1

/-- Verification reports a mismatch exactly if the algorithms differ, and names both. -/
theorem verify_eq_typeMismatch_iff {expected actual : Algorithm} :
    key.verify scheme message signature = .error (.typeMismatch expected actual) ↔
      expected = scheme.algorithm ∧ actual = key.algorithm ∧ expected ≠ actual := by
  by_cases halgorithm : scheme.algorithm = key.algorithm
  -- with the right algorithm the only error is a signature that does not parse.
  · rw [verify_eq_error_iff halgorithm]
    refine iff_of_false (fun h => nomatch h.1) ?_
    rintro ⟨rfl, rfl, hne⟩
    exact hne halgorithm
  · rw [verify_of_algorithm_ne halgorithm, Except.error.injEq, Error.typeMismatch.injEq]
    constructor
    · rintro ⟨rfl, rfl⟩
      exact ⟨rfl, rfl, halgorithm⟩
    · rintro ⟨rfl, rfl, -⟩
      exact ⟨rfl, rfl⟩

/-- An error of verifying is about the algorithm or about the form of the signature. -/
theorem eq_of_verify_eq_error {e : Error} (h : key.verify scheme message signature = .error e) :
    e = .typeMismatch scheme.algorithm key.algorithm ∨ e = .parseFailure := by
  by_cases halgorithm : scheme.algorithm = key.algorithm
  · exact Or.inr ((verify_eq_error_iff halgorithm).1 h).1
  · rw [verify_of_algorithm_ne halgorithm] at h
    exact Or.inl (Except.error.inj h).symm

/-- A signature that has not 64 bytes is invalid. -/
theorem verify_ed25519_of_length_ne (halgorithm : key.algorithm = .ed25519)
    (h : signature.length ≠ 64) : key.verify .ed25519 message signature = .ok .invalid := by
  obtain ⟨k, hk⟩ := exists_publicKey_eq_ed25519 halgorithm
  rw [verify_ed25519 hk, Ed25519.verify_eq_false_of_length_ne h]
  rfl

/-- A signature that is not as long as the modulus is invalid. -/
theorem verify_rsa_of_length_ne {k : Rsa.PublicKey} (hkey : key.publicKey = .rsa k)
    (hscheme : scheme.algorithm = .rsa) (h : signature.length ≠ k.size) :
    key.verify scheme message signature = .ok .invalid := by
  -- both paddings compare the length first.
  cases scheme with
  | rsaPkcs1Sha256 =>
    have hfalse : Rsa.Pkcs1v15.verify k message signature = false :=
      Bool.eq_false_iff.2 fun htrue => h (Rsa.Pkcs1v15.verify_eq_true_iff.1 htrue).1
    rw [verify_rsaPkcs1Sha256 hkey, hfalse]
    rfl
  | rsaPssSha256 =>
    have hfalse : Rsa.Pss.verify k message signature = false :=
      Bool.eq_false_iff.2 fun htrue => h (Rsa.Pss.verify_eq_true_iff.1 htrue).1
    rw [verify_rsaPssSha256 hkey, hfalse]
    rfl
  | _ => cases hscheme

/-! ### The law -/

/-- Signing under the name that fixes the scheme. -/
def fixedSign : Scheme → Key → Draw → Bytes → Except Error Bytes
  | .ed25519 => Fixed.ed25519Sign
  | .rsaPkcs1Sha256 => Fixed.rsaPkcs1Sha256Sign
  | .rsaPssSha256 => Fixed.rsaPssSha256Sign
  | .ecdsaP256Sha256 => Fixed.ecdsaSha256Sign

/-- Verifying under the name that fixes the scheme. -/
def fixedVerify : Scheme → Key → Bytes → Bytes → Except Error Verdict
  | .ed25519 => Fixed.ed25519Verify
  | .rsaPkcs1Sha256 => Fixed.rsaPkcs1Sha256Verify
  | .rsaPssSha256 => Fixed.rsaPssSha256Verify
  | .ecdsaP256Sha256 => Fixed.ecdsaSha256Verify

/-- What is promised of the errors of a scheme with a key. -/
structure ErrorLaw (scheme : Scheme) (key : Key) : Prop where
  /-- A key of another algorithm is reported as such, whatever else is wrong. -/
  sign_eq_typeMismatch_iff : ∀ draw message expected actual,
    key.sign scheme draw message = .error (.typeMismatch expected actual) ↔
      expected = scheme.algorithm ∧ actual = key.algorithm ∧ expected ≠ actual
  verify_eq_typeMismatch_iff : ∀ message signature expected actual,
    key.verify scheme message signature = .error (.typeMismatch expected actual) ↔
      expected = scheme.algorithm ∧ actual = key.algorithm ∧ expected ≠ actual
  sign_eq_capabilityMismatch_iff : scheme.algorithm = key.algorithm → ∀ draw message,
    (key.sign scheme draw message = .error .capabilityMismatch ↔ key.isPrivate = false)
  sign_of_isPrivate : scheme.algorithm = key.algorithm → key.isPrivate = true → ∀ draw message,
    (∃ signature, key.sign scheme draw message = .ok signature) ∨
      key.sign scheme draw message = .error .cryptoFailure
  sign_ed25519 : scheme = .ed25519 → key.algorithm = .ed25519 → key.isPrivate = true →
    ∀ draw message, ∃ signature, key.sign scheme draw message = .ok signature
  /-- The only error about a signature is that it is no canonical document. -/
  verify_eq_error_iff : scheme.algorithm = key.algorithm → ∀ message signature e,
    key.verify scheme message signature = .error e ↔
      e = .parseFailure ∧ scheme = .ecdsaP256Sha256 ∧ ¬ EcdsaSignature.IsCanonical signature
  verify_ne_cryptoFailure : ∀ message signature,
    key.verify scheme message signature ≠ .error .cryptoFailure
  verify_ne_capabilityMismatch : ∀ message signature,
    key.verify scheme message signature ≠ .error .capabilityMismatch
  /-- A signature of the wrong length is invalid and no error. -/
  verify_ed25519_of_length_ne : scheme = .ed25519 → key.algorithm = .ed25519 →
    ∀ message (signature : Bytes), signature.length ≠ 64 →
      key.verify scheme message signature = .ok .invalid
  verify_rsa_of_length_ne : scheme.algorithm = .rsa → ∀ k, key.publicKey = .rsa k →
    ∀ message (signature : Bytes), signature.length ≠ k.size →
      key.verify scheme message signature = .ok .invalid
  /-- The operations with the scheme in their names give the same answers. -/
  fixedSign_eq : ∀ draw message, fixedSign scheme key draw message = key.sign scheme draw message
  fixedVerify_eq : ∀ message signature,
    fixedVerify scheme key message signature = key.verify scheme message signature

/-- Every key answers every scheme by the law. -/
theorem errorLaw (scheme : Scheme) (key : Key) : ErrorLaw scheme key where
  sign_eq_typeMismatch_iff _ _ _ _ := sign_eq_typeMismatch_iff
  verify_eq_typeMismatch_iff _ _ _ _ := verify_eq_typeMismatch_iff
  sign_eq_capabilityMismatch_iff halgorithm _ _ := sign_eq_capabilityMismatch_iff halgorithm
  sign_of_isPrivate halgorithm hprivate draw message := by
    obtain ⟨result, hresult⟩ := exists_sign_eq_primitive halgorithm hprivate draw message
    rw [hresult]
    exact primitive_eq_ok_or result
  sign_ed25519 := by
    rintro rfl halgorithm hprivate
    exact exists_sign_ed25519 halgorithm hprivate
  verify_eq_error_iff halgorithm _ _ _ := verify_eq_error_iff halgorithm
  verify_ne_cryptoFailure message signature h := by
    rcases eq_of_verify_eq_error h with h | h <;> cases h
  verify_ne_capabilityMismatch message signature h := by
    rcases eq_of_verify_eq_error h with h | h <;> cases h
  verify_ed25519_of_length_ne := by
    rintro rfl halgorithm message signature
    exact verify_ed25519_of_length_ne halgorithm
  verify_rsa_of_length_ne hscheme k hkey _ _ := verify_rsa_of_length_ne hkey hscheme
  fixedSign_eq draw message := by cases scheme <;> rfl
  fixedVerify_eq message signature := by cases scheme <;> rfl

end Keyring.Key
