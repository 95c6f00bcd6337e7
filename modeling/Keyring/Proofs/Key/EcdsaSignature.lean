import Keyring.Proofs.Ecdsa
import Keyring.Proofs.Key.PublicText
import Keyring.Proofs.Key.Signature
/-!
# Verifying with a key on P-256

There are three outcomes. A byte string that is no encoded signature is a parse failure, and that is
the only error. Numbers out of range make the signature invalid, however long they are, and for
numbers in range the equation decides. Encoded signatures differ in their numbers alone: a leading
zero in front of one of them changes nothing.
-/

namespace Keyring.Key

open Bytes Curve P256

variable {key : Key} {message signature : Bytes}

/-- The point of a key that can come about is an element of the group. -/
theorem Obtainable.exists_ofGroup (h : Obtainable key) (halgorithm : key.algorithm = .ecdsaP256) :
    ∃ Q : Ecdsa.Group, key.publicKey = .ecdsaP256 (ofGroup Q) := by
  have hsound := h.isSound
  obtain ⟨P, hP⟩ := exists_publicKey_eq_ecdsaP256 halgorithm
  rw [hP] at hsound ⊢
  obtain ⟨Q, rfl⟩ := Ecdsa.exists_ofGroup hsound.1 hsound.2
  exact ⟨Q, rfl⟩

section Outcomes

variable {Q : Ecdsa.Group} (hkey : key.publicKey = .ecdsaP256 (ofGroup Q))

include hkey

/-- A signature that does not parse is an error. -/
theorem verify_ecdsaP256Sha256_of_parse_eq_error {e : Error}
    (h : EcdsaSignature.parse signature = .error e) :
    key.verify .ecdsaP256Sha256 message signature = .error e := by
  rw [verify_ecdsaP256Sha256 hkey, Ecdsa.verify_of_parse_eq_error h]
  rfl

/-- A signature that parses is judged by its two numbers. -/
theorem verify_ecdsaP256Sha256_of_parse {sig : EcdsaSignature}
    (h : EcdsaSignature.parse signature = .ok sig) :
    key.verify .ecdsaP256Sha256 message signature
      = .ok (.ofBool (Ecdsa.verifyNumbers (ofGroup Q) message (toNat sig.r) (toNat sig.s))) := by
  rw [verify_ecdsaP256Sha256 hkey, Ecdsa.verify_of_parse h]
  rfl

/-- A signature that is written from two numbers is judged by them. -/
theorem verify_toDer {r s : Bytes} (h : EcdsaSignature.HasEncoding ⟨r, s⟩) :
    key.verify .ecdsaP256Sha256 message (EcdsaSignature.toDer ⟨r, s⟩)
      = .ok (.ofBool (Ecdsa.verifyNumbers (ofGroup Q) message (toNat r) (toNat s))) := by
  rw [verify_ecdsaP256Sha256_of_parse hkey (EcdsaSignature.parse_toDer_of_hasEncoding h),
    toNat_stripZeros, toNat_stripZeros]

end Outcomes

/-! ### The three outcomes -/

/-- Whether one of two numbers is not a scalar, or is zero. -/
def IsOutOfRange (r s : ℕ) : Prop :=
  r = 0 ∨ s = 0 ∨ order ≤ r ∨ order ≤ s

theorem not_isOutOfRange_iff {r s : ℕ} : ¬ IsOutOfRange r s ↔
    0 < r ∧ r < order ∧ 0 < s ∧ s < order := by
  unfold IsOutOfRange
  omega

/-- How a key answers whose public point is `Q`. -/
structure VerifiesEquation (key : Key) (Q : Ecdsa.Group) : Prop where
  /-- Only what is no encoded signature is an error, and then a parse failure. -/
  parseFailure_iff : ∀ message signature,
    key.verify .ecdsaP256Sha256 message signature = .error .parseFailure ↔
      ∀ sig, EcdsaSignature.parse signature ≠ .ok sig
  invalid_of_isOutOfRange : ∀ message signature sig, EcdsaSignature.parse signature = .ok sig →
    IsOutOfRange (toNat sig.r) (toNat sig.s) →
      key.verify .ecdsaP256Sha256 message signature = .ok .invalid
  valid_iff : ∀ message signature sig, EcdsaSignature.parse signature = .ok sig →
    ¬ IsOutOfRange (toNat sig.r) (toNat sig.s) →
      (key.verify .ecdsaP256Sha256 message signature = .ok .valid ↔
        Ecdsa.IsSignature Q message (toNat sig.r) (toNat sig.s)) ∧
      (key.verify .ecdsaP256Sha256 message signature = .ok .invalid ↔
        ¬ Ecdsa.IsSignature Q message (toNat sig.r) (toNat sig.s))
  /-- There is one verdict on two numbers, whatever bytes they are encoded from. -/
  exists_verdict : ∀ message m n, ∃ verdict, ∀ r s, EcdsaSignature.HasEncoding ⟨r, s⟩ →
    toNat r = m → toNat s = n →
      key.verify .ecdsaP256Sha256 message (EcdsaSignature.toDer ⟨r, s⟩) = .ok verdict

/-- Any key with this point verifies the equation. -/
theorem verifiesEquation_of_publicKey {Q : Ecdsa.Group}
    (hkey : key.publicKey = .ecdsaP256 (ofGroup Q)) : VerifiesEquation key Q where
  parseFailure_iff message signature := by
    rcases EcdsaSignature.parse_eq_ok_or_parseFailure signature with ⟨sig, h⟩ | h
    · rw [verify_ecdsaP256Sha256_of_parse hkey h, h]
      simp
    · rw [verify_ecdsaP256Sha256_of_parse_eq_error hkey h, h]
      simp
  invalid_of_isOutOfRange message signature sig h hrange := by
    have hfalse : Ecdsa.verifyNumbers (ofGroup Q) message (toNat sig.r) (toNat sig.s) = false := by
      rw [Bool.eq_false_iff, ne_eq, Ecdsa.verifyNumbers_eq_true_iff]
      rintro ⟨hr, hrlt, hs, hslt, -⟩
      exact not_isOutOfRange_iff.2 ⟨hr, hrlt, hs, hslt⟩ hrange
    rw [verify_ecdsaP256Sha256_of_parse hkey h, hfalse]
    rfl
  valid_iff message signature sig h hrange := by
    have htrue : Ecdsa.verifyNumbers (ofGroup Q) message (toNat sig.r) (toNat sig.s) = true ↔
        Ecdsa.IsSignature Q message (toNat sig.r) (toNat sig.s) := by
      obtain ⟨hr, hrlt, hs, hslt⟩ := not_isOutOfRange_iff.1 hrange
      rw [Ecdsa.verifyNumbers_eq_true_iff]
      exact ⟨fun h => h.2.2.2.2, fun h => ⟨hr, hrlt, hs, hslt, h⟩⟩
    rw [verify_ecdsaP256Sha256_of_parse hkey h, ← htrue]
    cases Ecdsa.verifyNumbers (ofGroup Q) message (toNat sig.r) (toNat sig.s) <;>
      simp [Verdict.ofBool]
  exists_verdict message m n := by
    refine ⟨.ofBool (Ecdsa.verifyNumbers (ofGroup Q) message m n), ?_⟩
    rintro r s h rfl rfl
    exact verify_toDer hkey h

/-- Every key on P-256 has a point of the group, and verifying answers by the equation for it. -/
theorem verify_ecdsaP256Sha256_outcomes (hkey : Obtainable key)
    (halgorithm : key.algorithm = .ecdsaP256) :
    ∃ Q : Ecdsa.Group, key.publicKey = .ecdsaP256 (ofGroup Q) ∧ VerifiesEquation key Q := by
  obtain ⟨Q, hQ⟩ := hkey.exists_ofGroup halgorithm
  exact ⟨Q, hQ, verifiesEquation_of_publicKey hQ⟩

theorem obtainable_ofPublic_generator : Obtainable (ofPublic (.ecdsaP256 generator)) :=
  obtainable_ofPublic ⟨nofun, contains_generator⟩ nofun

/-- The signature of the empty message with the private key one and the nonce one: the first
coordinate of the generator, and its sum with the digest. -/
def signatureOfOne : EcdsaSignature :=
  ⟨ofNatMin 0x6b17d1f2e12c4247f8bce6e563a440f277037d812deb33a0f4a13945d898c296,
    ofNatMin 0x4ec896367a285e5b93b8dbadfd13fa16e1cac4b7eb6f2868a57d079e5488559a⟩

/-- With the generator for a public key, a second number of zero is invalid beside a first one with
a leading zero, and what the private key one signs is valid. -/
theorem verify_ecdsaP256Sha256_generator :
    Obtainable (ofPublic (.ecdsaP256 generator)) ∧
    (ofPublic (.ecdsaP256 generator)).algorithm = .ecdsaP256 ∧
    (ofPublic (.ecdsaP256 generator)).verify .ecdsaP256Sha256 []
      (EcdsaSignature.toDer ⟨[0, 1], []⟩) = .ok .invalid ∧
    (ofPublic (.ecdsaP256 generator)).verify .ecdsaP256Sha256 [] signatureOfOne.toDer
      = .ok .valid := by
  obtain ⟨Q, hQ, hequation⟩ :=
    verify_ecdsaP256Sha256_outcomes obtainable_ofPublic_generator rfl
  refine ⟨obtainable_ofPublic_generator, rfl, ?_, ?_⟩
  · have hparse := EcdsaSignature.parse_toDer_of_hasEncoding
      (show EcdsaSignature.HasEncoding ⟨[0, 1], []⟩ by unfold EcdsaSignature.HasEncoding; decide)
    exact hequation.invalid_of_isOutOfRange _ _ _ hparse (.inr (.inl rfl))
  · have hparse := EcdsaSignature.parse_toDer_of_hasEncoding
      (show signatureOfOne.HasEncoding by unfold EcdsaSignature.HasEncoding; decide +kernel)
    have hsign : Ecdsa.signNumbers? ⟨1, by decide, by decide⟩ (Ecdsa.digestScalar []) 1
        = some (toNat signatureOfOne.r, toNat signatureOfOne.s) := by decide +kernel
    -- the point of the theorem is the generator, since coordinates determine it.
    have hpoint : Q = Ecdsa.generatorPoint := by
      refine ofGroup_injective ?_
      rw [Ecdsa.ofGroup_generatorPoint]
      exact (PublicKey.ecdsaP256.inj hQ).symm
    have hequal := Ecdsa.isSignature_of_signNumbers? hsign
    rw [one_nsmul, ← hpoint] at hequal
    refine ((hequation.valid_iff _ _ _ hparse ?_).1).2 ?_
    · unfold IsOutOfRange
      decide +kernel
    · rwa [toNat_stripZeros, toNat_stripZeros]

end Keyring.Key
