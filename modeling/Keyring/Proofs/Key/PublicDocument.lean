import Keyring.Key.Encoding
import Keyring.Proofs.Curve.P256
import Keyring.Proofs.Document
/-!
# The length of the document of a public key

Only an RSA key can have a public half whose document is too long to be one. It is short if the
modulus is, and the document of a private key leaves room for it: that one holds the factors too,
and they take as many bytes as the modulus.
-/

namespace Keyring

open Bytes Document Der

namespace PublicKey

/-- Whether a key is no RSA key with a modulus of more than 4096 bits. -/
def FitsModulus (key : PublicKey) : Prop :=
  ∀ k, key = .rsa k → k.bits ≤ maxModulusBits

/-- A byte holds eight bits. -/
theorem width_le_of_bitLength_le {n k : ℕ} (h : Arith.bitLength n ≤ 8 * k) : width n ≤ k := by
  rw [Arith.bitLength_le_iff, pow_mul] at h
  exact width_le_iff.2 h

theorem length_rsaNumbers_le {k : Rsa.PublicKey} (h : k.bits ≤ maxModulusBits) :
    (RsaPublicNumbers.toElement ⟨k.n, k.e⟩).encode.length ≤ 537 := by
  have hn : width k.n ≤ 512 := width_le_of_bitLength_le h
  have he : width k.e ≤ 5 := width_le_iff.2 (lt_of_le_of_lt k.e_le (by decide))
  exact RsaPublicNumbers.length_encode_le hn he

theorem length_toSpkiDer_le {key : PublicKey} (h : key.FitsModulus) :
    key.toSpkiDer.length ≤ maxLength := by
  cases key with
  | ed25519 key =>
    exact (SubjectPublicKeyInfo.length_encode_le (k := 32) (by decide) key.2.le).trans (by decide)
  | rsa k =>
    exact (SubjectPublicKeyInfo.length_encode_le (by decide)
      (length_rsaNumbers_le (h k rfl))).trans (by decide)
  | ecdsaP256 P =>
    exact (SubjectPublicKeyInfo.length_encode_le (by decide)
      (P256.length_uncompressed_le P)).trans (by decide)

theorem spkiDer?_of_length_le {key : PublicKey} (h : key.toSpkiDer.length ≤ maxLength) :
    key.spkiDer? = some key.toSpkiDer :=
  if_pos h

end PublicKey

namespace PrivateKey

/-- The public half of an RSA key whose private document is within the limit has one as well. -/
theorem length_toSpkiDer_le_of_numbers {k : Rsa.PrivateKey} {numbers : RsaPrivateNumbers}
    (hn : k.n = numbers.n) (he : k.e = numbers.e) (hp : k.p = numbers.p) (hq : k.q = numbers.q)
    (hmax : numbers.toElement.encode.length ≤ maxLength) :
    (PublicKey.rsa k.toPublicKey).toSpkiDer.length ≤ maxLength := by
  have hnumbers := numbers.length_numbers_le
  rw [← hn, ← he, ← hp, ← hq] at hnumbers
  have hfactors : width k.n ≤ width k.p + width k.q := by
    rw [← k.p_mul_q]
    exact width_mul_le k.p k.q
  -- a short modulus makes a short document, and a long one leaves room beside itself.
  have hroom : (Element.nat k.n).encode.length + (Element.nat k.e).encode.length + 40
      ≤ maxLength := by
    by_cases hwidth : width k.n ≤ 512
    · have hexponent : width k.e ≤ 5 := width_le_iff.2 (lt_of_le_of_lt k.e_le (by decide))
      have hn := length_nat_encode_le (by decide) hwidth
      have he := length_nat_encode_le (by decide) hexponent
      have hlimit : 512 + 7 + (5 + 7) + 40 ≤ maxLength := by decide
      omega
    · omega
  have hkey : (RsaPublicNumbers.toElement ⟨k.n, k.e⟩).encode.length
      ≤ (Element.nat k.n).encode.length + (Element.nat k.e).encode.length + 6 :=
    RsaPublicNumbers.length_encode_le_of_numbers (by omega) le_rfl
  exact (SubjectPublicKeyInfo.length_encode_le (by omega) hkey).trans (by omega)

theorem length_toSpkiDer_le_of_ne_rsa {key : PrivateKey} (h : key.algorithm ≠ .rsa) :
    key.publicKey.toSpkiDer.length ≤ maxLength := by
  refine PublicKey.length_toSpkiDer_le fun k hk => absurd ?_ h
  rw [← key.algorithm_publicKey, hk]
  rfl

end PrivateKey

/-- Two keys pass for the same if their public halves have one document. -/
theorem Key.samePublic_eq_true_iff {a b : Key} :
    a.samePublic b = true ↔ ∃ der, a.publicKey.spkiDer? = some der ∧
      b.publicKey.spkiDer? = some der := by
  unfold samePublic
  cases ha : a.publicKey.spkiDer? with
  | none => simp
  | some ours =>
    cases hb : b.publicKey.spkiDer? with
    | none => simp
    | some theirs => simp [eq_comm]

end Keyring
