import Keyring.Proofs.Arith.Prime
import Keyring.Proofs.Key.Identity
import Keyring.Proofs.Key.Signature
import Keyring.Proofs.Rsa.Pkcs1v15
import Keyring.Proofs.Rsa.Pss
/-!
# Signatures with RSA keys

What an RSA key signs is valid under its public half, whatever the factors of its modulus are. If
they are distinct primes, the key signs every message, provided that the modulus is long enough for
the padding. A shorter modulus signs nothing and no signature is valid under it.
-/

namespace Keyring

open Bytes

namespace Key

variable {key : Key} {scheme : Scheme} {draw : Draw} {message signature : Bytes}

/-- Only a private RSA key signs under an RSA scheme. -/
theorem exists_rsa_of_sign (hscheme : scheme.algorithm = .rsa)
    (h : key.sign scheme draw message = .ok signature) : ∃ k, key = .ofPrivate (.rsa k) := by
  obtain ⟨halgorithm, hprivate⟩ := algorithm_of_sign h
  rw [hscheme] at halgorithm
  rcases key with (_ | k | _) | _
  · cases halgorithm
  · exact ⟨k, rfl⟩
  · cases halgorithm
  · cases hprivate

variable {k : Rsa.PublicKey}

/-- A key is known from its public half, or from a private key with this half. -/
theorem eq_of_publicKey_eq_rsa (h : key.publicKey = .rsa k) :
    key = .ofPublic (.rsa k) ∨ ∃ k' : Rsa.PrivateKey, k'.toPublicKey = k ∧
      key = .ofPrivate (.rsa k') := by
  rcases key with (_ | k' | _) | k'
  · cases h
  · exact .inr ⟨k', PublicKey.rsa.inj h, rfl⟩
  · cases h
  · obtain rfl : k' = .rsa k := h
    exact .inl rfl

/-! ### A key with prime factors, and a short one -/

/-- A key with distinct prime factors and a modulus of 522 bits. -/
def primeKey : Rsa.PrivateKey where
  n := (3851 * 2 ^ 249 + 1) * (1489 * 2 ^ 250 + 1)
  e := 5
  d := (3851 * 1489 * 2 ^ 500 + 1) / 5
  p := 3851 * 2 ^ 249 + 1
  q := 1489 * 2 ^ 250 + 1
  n_odd := by decide +kernel
  e_odd := by decide
  three_le_e := by decide
  e_le := by decide
  e_lt_n := by decide +kernel
  one_lt_p := by decide +kernel
  one_lt_q := by decide +kernel
  p_mul_q := rfl
  inverse_p := by decide +kernel
  inverse_q := by decide +kernel

/-- A key with a modulus of four bits. -/
def shortKey : Rsa.PrivateKey :=
  ⟨⟨15, 5, by decide, by decide, by decide, by decide, by decide⟩, 5, 3, 5,
    by decide, by decide, by decide, by decide, by decide⟩

theorem prime_primeKey_p : primeKey.p.Prime :=
  Arith.prime_of_mul_two_pow 3 (rfl : primeKey.p = 3851 * 2 ^ 249 + 1) (by decide +kernel)
    (by decide +kernel) (by decide +kernel) (by decide +kernel)

theorem prime_primeKey_q : primeKey.q.Prime :=
  Arith.prime_of_mul_two_pow 3 (rfl : primeKey.q = 1489 * 2 ^ 250 + 1) (by decide +kernel)
    (by decide +kernel) (by decide +kernel) (by decide +kernel)

theorem primeKey_p_ne_q : primeKey.p ≠ primeKey.q := by decide +kernel

/-- With distinct primes the exponents of the key undo each other. -/
theorem isUndone_primeKey : primeKey.IsUndone :=
  primeKey.isUndone_of_prime prime_primeKey_p prime_primeKey_q primeKey_p_ne_q

theorem obtainable_primeKey : Obtainable (ofPrivate (.rsa primeKey)) := by
  have hcoprime : Nat.Coprime primeKey.q primeKey.p :=
    (Nat.coprime_primes prime_primeKey_q prime_primeKey_p).2 primeKey_p_ne_q.symm
  have hlen : PrivateKey.FitsDer (.rsa primeKey) := PrivateKey.fitsDer_of_all (by decide +kernel)
  obtain ⟨text, -, hread⟩ := exists_privatePem hlen (PrivateKey.hasDocument_rsa hcoprime)
  exact .importPrivate hread

/-! ### What is signed is valid -/

/-- A signature that is made is valid for every key with the same public half. -/
theorem verify_of_sign_rsa {k : Rsa.PrivateKey}
    (hscheme : scheme = .rsaPkcs1Sha256 ∨ scheme = .rsaPssSha256)
    (hsign : (ofPrivate (.rsa k)).sign scheme draw message = .ok signature)
    (hkey : key.publicKey = .rsa k.toPublicKey) :
    key.verify scheme message signature = .ok .valid := by
  rcases hscheme with rfl | rfl
  · rw [sign_rsaPkcs1Sha256, primitive_eq_ok_iff] at hsign
    rw [verify_rsaPkcs1Sha256 hkey, ofBool_eq_valid_iff]
    exact Rsa.Pkcs1v15.verify_of_sign? hsign
  · rw [sign_rsaPssSha256, primitive_eq_ok_iff] at hsign
    rw [verify_rsaPssSha256 hkey, ofBool_eq_valid_iff]
    exact Rsa.Pss.verify_of_sign? draw.salt.2 hsign

/-- A signature under one of the schemes for RSA keys is valid for the key that made it, for its
public half, and for every key that passes for the same. -/
theorem verify_of_sign (hkey : Obtainable key)
    (hscheme : scheme = .rsaPkcs1Sha256 ∨ scheme = .rsaPssSha256)
    (hsign : key.sign scheme draw message = .ok signature) :
    key.verify scheme message signature = .ok .valid ∧
      key.toPublic.verify scheme message signature = .ok .valid ∧
      ∀ other, samePublic other key = true →
        other.verify scheme message signature = .ok .valid := by
  have halgorithm : scheme.algorithm = .rsa := by rcases hscheme with rfl | rfl <;> rfl
  obtain ⟨k, rfl⟩ := exists_rsa_of_sign halgorithm hsign
  refine ⟨verify_of_sign_rsa hscheme hsign rfl, verify_of_sign_rsa hscheme hsign rfl, ?_⟩
  intro other hsame
  exact verify_of_sign_rsa hscheme hsign ((hkey.samePublic_iff other).1 hsame)

/-- The key with prime factors signs the empty message under both schemes. -/
theorem exists_sign_primeKey (hscheme : scheme.algorithm = .rsa) :
    ∃ signature, (ofPrivate (.rsa primeKey)).sign scheme (drawOfMask 1) [] = .ok signature := by
  cases scheme with
  | rsaPkcs1Sha256 =>
    rw [sign_rsaPkcs1Sha256, exists_primitive_eq_ok_iff,
      Rsa.Pkcs1v15.isSome_sign?_iff isUndone_primeKey]
    decide +kernel
  | rsaPssSha256 =>
    rw [sign_rsaPssSha256, exists_primitive_eq_ok_iff,
      Rsa.Pss.isSome_sign?_iff isUndone_primeKey (drawOfMask 1).salt.2]
    decide +kernel
  | ed25519 => cases hscheme
  | ecdsaP256Sha256 => cases hscheme

/-- The key with prime factors signs the empty message under both schemes, and is believed. -/
theorem verify_of_sign_primeKey :
    Obtainable (ofPrivate (.rsa primeKey)) ∧
    (∃ signature,
      (ofPrivate (.rsa primeKey)).sign .rsaPkcs1Sha256 (drawOfMask 1) [] = .ok signature ∧
      (ofPrivate (.rsa primeKey)).toPublic.verify .rsaPkcs1Sha256 [] signature = .ok .valid) ∧
    ∃ signature,
      (ofPrivate (.rsa primeKey)).sign .rsaPssSha256 (drawOfMask 1) [] = .ok signature ∧
      (ofPrivate (.rsa primeKey)).toPublic.verify .rsaPssSha256 [] signature = .ok .valid := by
  -- the modulus is long enough for both paddings.
  have hfixed : (Rsa.Pkcs1v15.sign? primeKey (drawOfMask 1).mask []).isSome :=
    (Rsa.Pkcs1v15.isSome_sign?_iff isUndone_primeKey).2 (by decide +kernel)
  have hsalted : (Rsa.Pss.sign? primeKey [] (drawOfMask 1).salt.val).isSome :=
    (Rsa.Pss.isSome_sign?_iff isUndone_primeKey (drawOfMask 1).salt.2).2 (by decide +kernel)
  obtain ⟨s, hs⟩ := exists_primitive_eq_ok_iff.2 hfixed
  obtain ⟨t, ht⟩ := exists_primitive_eq_ok_iff.2 hsalted
  rw [← sign_rsaPkcs1Sha256] at hs
  rw [← sign_rsaPssSha256] at ht
  exact ⟨obtainable_primeKey, ⟨s, hs, (verify_of_sign obtainable_primeKey (.inl rfl) hs).2.1⟩,
    t, ht, (verify_of_sign obtainable_primeKey (.inr rfl) ht).2.1⟩

/-! ### The size of the modulus -/

/-- A key that signs nothing under a scheme, and under which no signature is valid. -/
structure Refuses (key : Key) (scheme : Scheme) : Prop where
  sign_eq : ∀ draw message, key.sign scheme draw message
    = .error (if key.isPrivate then .cryptoFailure else .capabilityMismatch)
  verify_eq : ∀ message signature, key.verify scheme message signature = .ok .invalid

/-- A modulus too short for the padded digest refuses PKCS#1 v1.5. -/
theorem refuses_rsaPkcs1Sha256 (hkey : key.publicKey = .rsa k) (h : k.size < 62) :
    key.Refuses .rsaPkcs1Sha256 where
  sign_eq draw message := by
    obtain rfl | ⟨k, rfl, rfl⟩ := eq_of_publicKey_eq_rsa hkey
    · rfl
    · rw [sign_rsaPkcs1Sha256, Rsa.Pkcs1v15.sign?_eq_none_of_lt h]
      rfl
  verify_eq message signature := by
    rw [verify_rsaPkcs1Sha256 hkey, Rsa.Pkcs1v15.verify_eq_false_of_lt h]
    rfl

/-- A modulus too short for the digest and the salt refuses PSS. -/
theorem refuses_rsaPssSha256 (hkey : key.publicKey = .rsa k) (h : (k.bits - 1 + 7) / 8 < 66) :
    key.Refuses .rsaPssSha256 where
  sign_eq draw message := by
    obtain rfl | ⟨k, rfl, rfl⟩ := eq_of_publicKey_eq_rsa hkey
    · rfl
    · rw [sign_rsaPssSha256, Rsa.Pss.sign?_eq_none_of_lt h message draw.salt.2]
      rfl
  verify_eq message signature := by
    rw [verify_rsaPssSha256 hkey, Rsa.Pss.verify_eq_false_of_lt h]
    rfl

/-- A key signs every message under the scheme with the fixed padding exactly if its modulus has 62
bytes, and under the scheme with the salt if one bit fewer than the modulus fills 66 bytes. The
first gives one valid signature for each message. -/
structure SignsBySize (k : Rsa.PrivateKey) : Prop where
  rsaPkcs1Sha256 : ∀ draw message,
    (∃ signature, (ofPrivate (.rsa k)).sign .rsaPkcs1Sha256 draw message = .ok signature) ↔
      62 ≤ k.size
  unique : ∀ draw message signature,
    (ofPrivate (.rsa k)).sign .rsaPkcs1Sha256 draw message = .ok signature →
      ∀ b, (ofPrivate (.rsa k)).verify .rsaPkcs1Sha256 message b = .ok .valid ↔ b = signature
  rsaPssSha256 : ∀ draw message,
    (∃ signature, (ofPrivate (.rsa k)).sign .rsaPssSha256 draw message = .ok signature) ↔
      66 ≤ (k.bits - 1 + 7) / 8

/-- If the exponents undo each other, only the size of the modulus decides. -/
theorem signsBySize_of_isUndone {k : Rsa.PrivateKey} (hk : k.IsUndone) : SignsBySize k where
  rsaPkcs1Sha256 draw message := by
    simp only [sign_rsaPkcs1Sha256]
    rw [exists_primitive_eq_ok_iff, Rsa.Pkcs1v15.isSome_sign?_iff hk]
  unique draw message signature h b := by
    rw [sign_rsaPkcs1Sha256, primitive_eq_ok_iff] at h
    have hkey : (ofPrivate (.rsa k)).publicKey = .rsa k.toPublicKey := rfl
    rw [verify_rsaPkcs1Sha256 hkey, ofBool_eq_valid_iff, Rsa.Pkcs1v15.verify_eq_true_iff_eq hk h]
  rsaPssSha256 draw message := by
    simp only [sign_rsaPssSha256]
    rw [exists_primitive_eq_ok_iff, Rsa.Pss.isSome_sign?_iff hk draw.salt.2]
    rfl

/-- Every key with two distinct prime factors signs as the size of its modulus allows, and every key
with a shorter modulus refuses, whatever its factors are and whether it is private. -/
theorem signsBySize_and_refuses_rsa :
    (∀ k : Rsa.PrivateKey, k.p.Prime → k.q.Prime → k.p ≠ k.q → SignsBySize k) ∧
    ∀ (key : Key) (k : Rsa.PublicKey), key.publicKey = .rsa k →
      (k.size < 62 → key.Refuses .rsaPkcs1Sha256) ∧
      ((k.bits - 1 + 7) / 8 < 66 → key.Refuses .rsaPssSha256) := by
  constructor
  · intro k hp hq hne
    exact signsBySize_of_isUndone (k.isUndone_of_prime hp hq hne)
  · intro key k hkey
    exact ⟨refuses_rsaPkcs1Sha256 hkey, refuses_rsaPssSha256 hkey⟩

/-- The prime factors make a key that signs, and the key with the short modulus refuses. -/
theorem signsBySize_primeKey_refuses_shortKey :
    SignsBySize primeKey ∧ primeKey.bits = 522 ∧
      (ofPrivate (.rsa shortKey)).Refuses .rsaPkcs1Sha256 ∧
      (ofPrivate (.rsa shortKey)).Refuses .rsaPssSha256 := by
  obtain ⟨hsigns, hrefuses⟩ := signsBySize_and_refuses_rsa
  have hshort := hrefuses (ofPrivate (.rsa shortKey)) shortKey.toPublicKey rfl
  exact ⟨hsigns primeKey prime_primeKey_p prime_primeKey_q primeKey_p_ne_q, by decide +kernel,
    hshort.1 (by decide +kernel), hshort.2 (by decide +kernel)⟩

theorem obtainable_ofPublic_shortKey : Obtainable (ofPublic (.rsa shortKey.toPublicKey)) :=
  obtainable_ofPublic_rsa (by decide)

/-- A public key with a short modulus fails to sign because its private half is missing, which is
checked before the size. -/
theorem shortKey_sign_ne_cryptoFailure :
    Obtainable (ofPublic (.rsa shortKey.toPublicKey)) ∧ shortKey.toPublicKey.size < 62 ∧
      (ofPublic (.rsa shortKey.toPublicKey)).sign .rsaPkcs1Sha256 (drawOfMask 1) []
        = .error .capabilityMismatch ∧
      (ofPublic (.rsa shortKey.toPublicKey)).sign .rsaPkcs1Sha256 (drawOfMask 1) []
        ≠ .error .cryptoFailure := by
  have hsign : (ofPublic (.rsa shortKey.toPublicKey)).sign .rsaPkcs1Sha256 (drawOfMask 1) []
      = .error .capabilityMismatch := rfl
  refine ⟨obtainable_ofPublic_shortKey, by decide, hsign, ?_⟩
  rw [hsign]
  decide

end Key

end Keyring
