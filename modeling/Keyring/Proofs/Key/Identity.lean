import Keyring.Proofs.Key.PublicText
/-!
# Keys and the documents of their public halves

The document of the public half tells keys apart. That holds for documents within the limit of what
can be read, and the one of every key that can come about is within it: the document of a private
RSA key holds its factors too, and they take as many bytes as the modulus.
-/

namespace Keyring

open Bytes Document Der Text

/-! ### What the numbers of a document make -/

theorem Rsa.PublicKey.ext_numbers {k k' : Rsa.PublicKey} (hn : k.n = k'.n) (he : k.e = k'.e) :
    k = k' := by
  have hk := k.ofNumbers?_numbers
  rw [hn, he, k'.ofNumbers?_numbers] at hk
  exact (Option.some.inj hk).symm

/-- A private key that is made of numbers keeps them as they are. -/
theorem Rsa.PrivateKey.numbers_of_ofNumbers? {n e d p q : ℕ} {k : Rsa.PrivateKey}
    (h : Rsa.PrivateKey.ofNumbers? n e d p q = some k) :
    k.n = n ∧ k.e = e ∧ k.d = d ∧ k.p = p ∧ k.q = q := by
  simp only [ofNumbers?, PublicKey.ofNumbers?, Option.bind_eq_bind, Option.bind_eq_some_iff] at h
  obtain ⟨pub, hpub, h⟩ := h
  split at hpub
  · obtain rfl := Option.some.inj hpub
    split at h
    · obtain rfl := Option.some.inj h
      exact ⟨rfl, rfl, rfl, rfl, rfl⟩
    · cases h
  · cases hpub

/-! ### The document tells keys apart -/

namespace PublicKey

/-- A public key is known from its document. -/
theorem eq_of_toSpki_eq {a b : PublicKey} (hlen : a.toSpki.key.length ≤ maxLength)
    (h : a.toSpki = b.toSpki) : a = b := by
  have halgorithm := congrArg SubjectPublicKeyInfo.algorithm h
  have hkey := congrArg SubjectPublicKeyInfo.key h
  cases a with
  | ed25519 x =>
    cases b with
    | ed25519 y => exact congrArg ed25519 (Subtype.ext hkey)
    | rsa k => cases halgorithm
    | ecdsaP256 P => cases halgorithm
  | rsa k =>
    cases b with
    | ed25519 y => cases halgorithm
    | rsa k' =>
      -- the same bytes are read as the numbers of both keys.
      have hread : RsaPublicNumbers.ofDer? (RsaPublicNumbers.toElement ⟨k.n, k.e⟩).encode
          = some ⟨k.n, k.e⟩ := RsaPublicNumbers.ofDer?_eq_some_iff.2 ⟨rfl, hlen⟩
      have hread' : RsaPublicNumbers.ofDer? (RsaPublicNumbers.toElement ⟨k.n, k.e⟩).encode
          = some ⟨k'.n, k'.e⟩ := RsaPublicNumbers.ofDer?_eq_some_iff.2 ⟨hkey, hlen⟩
      obtain ⟨hn, he⟩ := RsaPublicNumbers.mk.inj (Option.some.inj (hread.symm.trans hread'))
      exact congrArg rsa (Rsa.PublicKey.ext_numbers hn he)
    | ecdsaP256 P => cases halgorithm
  | ecdsaP256 P =>
    cases b with
    | ed25519 y => cases halgorithm
    | rsa k => cases halgorithm
    | ecdsaP256 Q => exact congrArg ecdsaP256 (P256.uncompressed_injective hkey)

/-- Two public keys have one document exactly if they are the same. -/
theorem toSpkiDer_eq_iff {a b : PublicKey} (hlen : a.toSpkiDer.length ≤ maxLength) :
    a.toSpkiDer = b.toSpkiDer ↔ a = b := by
  constructor
  · intro h
    have hread : SubjectPublicKeyInfo.ofDer? a.toSpkiDer = some a.toSpki :=
      SubjectPublicKeyInfo.ofDer?_eq_some_iff.2 ⟨rfl, hlen⟩
    have hread' : SubjectPublicKeyInfo.ofDer? a.toSpkiDer = some b.toSpki :=
      SubjectPublicKeyInfo.ofDer?_eq_some_iff.2 ⟨h, hlen⟩
    exact eq_of_toSpki_eq (a.toSpki.length_key_le.trans hlen)
      (Option.some.inj (hread.symm.trans hread'))
  · rintro rfl
    rfl

end PublicKey

/-! ### The keys in each kind of document -/

namespace PrivateKey

/-- What a document of RSA numbers holds is the key with these numbers. -/
theorem ofPkcs1?_eq_some_iff {der : Bytes} {key : PrivateKey} :
    ofPkcs1? der = some key ↔ ∃ k numbers, key = .rsa k ∧
      RsaPrivateNumbers.ofDer? der = some numbers ∧ k.n = numbers.n ∧ k.e = numbers.e ∧
      k.d = numbers.d ∧ k.p = numbers.p ∧ k.q = numbers.q := by
  simp only [ofPkcs1?, Option.bind_eq_bind, Option.bind_eq_some_iff, Option.map_eq_some_iff]
  constructor
  · rintro ⟨numbers, hread, k, hk, rfl⟩
    exact ⟨k, numbers, rfl, hread, Rsa.PrivateKey.numbers_of_ofNumbers? hk⟩
  · rintro ⟨k, numbers, rfl, hread, hn, he, hd, hp, hq⟩
    refine ⟨numbers, hread, k, ?_, rfl⟩
    rw [← hn, ← he, ← hd, ← hp, ← hq, k.ofNumbers?_numbers]

theorem algorithm_of_ofSec1? {der : Bytes} {key : PrivateKey} (h : ofSec1? der = some key) :
    key.algorithm = .ecdsaP256 := by
  simp only [ofSec1?, Option.bind_eq_bind, Option.bind_eq_some_iff, Option.ite_none_right_eq_some,
    Option.some_inj] at h
  obtain ⟨_, -, _, -, -, rfl⟩ := h
  rfl

theorem algorithm_of_ofSeedDocument? {info : PrivateKeyInfo} {key : PrivateKey}
    (h : ofSeedDocument? info = some key) : key.algorithm = .ed25519 := by
  simp only [ofSeedDocument?, Option.bind_eq_bind, Option.bind_eq_some_iff,
    Option.ite_none_right_eq_some, Option.some_inj] at h
  obtain ⟨_, -, _, -, -, rfl⟩ := h
  rfl

/-- The public half of an RSA key from a document has a document within the limit as well. -/
theorem length_toSpkiDer_le_of_ofPkcs1? {der : Bytes} {key : PrivateKey}
    (h : ofPkcs1? der = some key) : key.publicKey.toSpkiDer.length ≤ maxLength := by
  obtain ⟨k, numbers, rfl, hread, hn, he, -, hp, hq⟩ := ofPkcs1?_eq_some_iff.1 h
  obtain ⟨rfl, hmax⟩ := RsaPrivateNumbers.ofDer?_eq_some_iff.1 hread
  exact length_toSpkiDer_le_of_numbers hn he hp hq hmax

/-- The public half of a key that is read fits into a document. -/
theorem length_toSpkiDer_le_of_ofPkcs8? {der : Bytes} {key : PrivateKey}
    (h : ofPkcs8? der = some key) : key.publicKey.toSpkiDer.length ≤ maxLength := by
  simp only [ofPkcs8?, Option.bind_eq_bind, Option.bind_eq_some_iff] at h
  obtain ⟨⟨algorithm, content, publicKey⟩, -, h⟩ := h
  -- only an RSA key can have a long public half.
  cases algorithm with
  | ed25519 =>
    refine length_toSpkiDer_le_of_ne_rsa ?_
    rw [algorithm_of_ofSeedDocument? h]
    decide
  | rsa => exact length_toSpkiDer_le_of_ofPkcs1? h
  | ecdsaP256 =>
    refine length_toSpkiDer_le_of_ne_rsa ?_
    rw [algorithm_of_ofSec1? h]
    decide

end PrivateKey

/-! ### Keys that can come about -/

namespace Key

/-- What is read as a private key is a document of the kind that its label names. -/
theorem importPrivate_eq_ok_iff {text : String} {key : Key} :
    importPrivate text = .ok key ↔ ∃ label der k, Pem.decode? text.toList = some (label, der) ∧
      PrivateKey.ofDocument? label der = some k ∧ key = .ofPrivate k := by
  rw [importPrivate, PrivateKey.ofPem?_eq_bind]
  rcases Pem.decode? text.toList with - | ⟨label, der⟩
  · simp
  · rw [Option.bind_some]
    cases hread : PrivateKey.ofDocument? label der with
    | none => simp [hread]
    | some k => simp [hread, eq_comm]

/-- The public half of a key that is imported fits into a document. -/
theorem length_toSpkiDer_le_of_importPrivate {text : String} {key : Key}
    (h : importPrivate text = .ok key) : key.publicKey.toSpkiDer.length ≤ maxLength := by
  obtain ⟨label, der, k, -, hread, rfl⟩ := importPrivate_eq_ok_iff.1 h
  cases label with
  | privateKey => exact PrivateKey.length_toSpkiDer_le_of_ofPkcs8? hread
  | rsaPrivateKey => exact PrivateKey.length_toSpkiDer_le_of_ofPkcs1? hread
  | ecPrivateKey =>
    refine PrivateKey.length_toSpkiDer_le_of_ne_rsa ?_
    rw [PrivateKey.algorithm_of_ofSec1? hread]
    decide
  | publicKey => cases hread

/-- The modulus of a public key from a document is not too long. -/
theorem fitsModulus_of_importPublic {text : String} {key : Key}
    (h : importPublic text = .ok key) : key.publicKey.FitsModulus := by
  obtain ⟨der, k, -, hread, rfl⟩ := importPublic_eq_ok_iff.1 h
  rintro k' rfl
  simp only [PublicKey.ofSpki?, Option.bind_eq_bind, Option.bind_eq_some_iff] at hread
  obtain ⟨⟨algorithm, content⟩, -, hread⟩ := hread
  -- the decoder for RSA keys has compared the size.
  cases algorithm with
  | ed25519 => simp at hread
  | rsa =>
    simp only [PublicKey.ofPkcs1?, Option.bind_eq_bind, Option.bind_eq_some_iff,
      Option.ite_none_right_eq_some, Option.some_inj] at hread
    obtain ⟨_, -, _, -, hbits, ⟨⟩⟩ := hread
    exact hbits
  | ecdsaP256 => simp at hread

/-- The document of the public half can be written, whatever the key. -/
theorem Obtainable.length_toSpkiDer_le {key : Key} (h : Obtainable key) :
    key.publicKey.toSpkiDer.length ≤ maxLength := by
  induction h with
  | generate h =>
    obtain rfl := eq_ofPrivate_of_generate h
    exact PublicKey.length_toSpkiDer_le nofun
  | importPrivate h => exact length_toSpkiDer_le_of_importPrivate h
  | importPublic h => exact PublicKey.length_toSpkiDer_le (fitsModulus_of_importPublic h)
  | toPublic _ ih => exact ih

/-- Two keys of which one can come about pass for the same exactly if their public halves are the
same. -/
theorem Obtainable.samePublic_iff {key : Key} (h : Obtainable key) (other : Key) :
    samePublic other key = true ↔ other.publicKey = key.publicKey := by
  have hkey := PublicKey.spkiDer?_of_length_le h.length_toSpkiDer_le
  rw [samePublic_eq_true_iff]
  constructor
  · rintro ⟨der, hother, hder⟩
    obtain rfl := Option.some.inj (hkey.symm.trans hder)
    -- the other document is short enough to be one, since it is there.
    have hsame := hother
    unfold PublicKey.spkiDer? at hsame
    obtain ⟨-, hsame⟩ := Option.ite_none_right_eq_some.1 hsame
    exact ((PublicKey.toSpkiDer_eq_iff h.length_toSpkiDer_le).1 (Option.some.inj hsame).symm).symm
  · intro hother
    exact ⟨_, by rw [hother]; exact hkey, hkey⟩

end Key

end Keyring
