import Keyring.Key.Text
import Keyring.Proofs.Curve.Edwards25519
import Keyring.Proofs.Curve.P256
import Keyring.Proofs.Key.PrivateText
/-!
# Public keys written and read again

The text of an Ed25519 or an RSA key is read from one document only, the one that is written for the
key; the text of a key on P-256 is read from one document for each encoding of its point. In the
other direction, the public half of every key that can come about is read back from its text, if it
is no RSA key that is too large to be read. For that its bytes have to be the encoding of a point:
public keys that are read have passed this test, and those that belong to private keys are multiples
of a generator.
-/

namespace Keyring

open Bytes Document Der Text

namespace PublicKey

/-- Whether a key has passed the tests of reading, size apart: the bytes of an Ed25519 key encode a
point, and the point of a key on P-256 is a finite one on the curve. -/
def IsSound : PublicKey → Prop
  | .ed25519 key => (Edwards25519.decode? key.val).isSome
  | .rsa _ => True
  | .ecdsaP256 P => P ≠ .infinity ∧ P256.curve.Contains P

/-- The document for a key on P-256 whose point is written as the given bytes. -/
def p256Der (b : Bytes) : Bytes :=
  (SubjectPublicKeyInfo.toElement ⟨.ecdsaP256, b⟩).encode

/-! ### Reading a document -/

/-- What a document that is read has to be, given the key that is read from it. -/
theorem ofSpki?_spec {der : Bytes} {key : PublicKey} (h : ofSpki? der = some key) :
    key.IsSound ∧ (key.algorithm ≠ .ecdsaP256 → der = key.toSpkiDer) ∧
      ∀ P, key = .ecdsaP256 P → ∃ b, P256.IsEncoding b P ∧ der = p256Der b := by
  simp only [ofSpki?, Option.bind_eq_bind, Option.bind_eq_some_iff,
    SubjectPublicKeyInfo.ofDer?_eq_some_iff] at h
  obtain ⟨⟨algorithm, content⟩, ⟨rfl, -⟩, h⟩ := h
  cases algorithm with
  | ed25519 =>
    simp only [Option.map_eq_some_iff, Ed25519.publicKey?, Option.bind_eq_bind,
      Option.bind_eq_some_iff, Option.ite_none_right_eq_some, Option.some.injEq] at h
    obtain ⟨_, ⟨key, hsized, hpoint, rfl⟩, rfl⟩ := h
    -- the key is its bytes, so the document is determined.
    -- the key is its bytes, so the document is determined.
    obtain rfl : key.val = content := by
      unfold sized? at hsized
      split at hsized
      · rw [← Option.some.inj hsized]
      · cases hsized
    exact ⟨hpoint, fun _ => rfl, nofun⟩
  | rsa =>
    simp only [ofPkcs1?, Option.bind_eq_bind, Option.bind_eq_some_iff,
      RsaPublicNumbers.ofDer?_eq_some_iff, Option.ite_none_right_eq_some, Option.some.injEq] at h
    obtain ⟨⟨n, e⟩, ⟨rfl, -⟩, k, hnumbers, -, rfl⟩ := h
    -- the numbers have one document, and the key keeps them as they are.
    -- the numbers have one document, and the key keeps them as they are.
    obtain ⟨rfl, rfl⟩ : k.n = n ∧ k.e = e := by
      unfold Rsa.PublicKey.ofNumbers? at hnumbers
      split at hnumbers
      · obtain rfl := Option.some.inj hnumbers
        exact ⟨rfl, rfl⟩
      · cases hnumbers
    exact ⟨trivial, fun _ => rfl, nofun⟩
  | ecdsaP256 =>
    simp only [Option.map_eq_some_iff, P256.point?_eq_some_iff] at h
    obtain ⟨P, ⟨hfinite, hP, hencoding⟩, rfl⟩ := h
    refine ⟨⟨hfinite, hP⟩, fun hne => absurd rfl hne, ?_⟩
    rintro _ ⟨⟩
    exact ⟨content, hencoding, rfl⟩

/-- A document that is read is within the limit. -/
theorem length_le_of_ofSpki? {der : Bytes} {key : PublicKey} (h : ofSpki? der = some key) :
    der.length ≤ maxLength := by
  simp only [ofSpki?, Option.bind_eq_bind, Option.bind_eq_some_iff,
    SubjectPublicKeyInfo.ofDer?_eq_some_iff] at h
  obtain ⟨_, ⟨-, hlen⟩, -⟩ := h
  exact hlen

/-! ### Writing a document -/

/-- Each encoding of a point makes a document that is read as this point. -/
theorem ofSpki?_p256Der {P : P256.Point} {b : Bytes} (hfinite : P ≠ .infinity)
    (hP : P256.curve.Contains P) (hb : P256.IsEncoding b P) :
    ofSpki? (p256Der b) = some (.ecdsaP256 P) := by
  have hlen : (p256Der b).length ≤ 65 + 34 :=
    SubjectPublicKeyInfo.length_encode_le (by decide) hb.length_le
  have hder := SubjectPublicKeyInfo.ofDer?_eq_some_iff.2 ⟨rfl, hlen.trans (by decide)⟩
  have hpoint := P256.point?_eq_some_iff.2 ⟨hfinite, hP, hb⟩
  simp only [ofSpki?, p256Der, hder, hpoint, Option.bind_eq_bind, Option.bind_some,
    Option.map_some]

/-- The document of a sound key is read as this key, unless the modulus is too large. -/
theorem ofSpki?_toSpkiDer {key : PublicKey} (hsound : key.IsSound) (hfits : key.FitsModulus) :
    ofSpki? key.toSpkiDer = some key := by
  have hder : SubjectPublicKeyInfo.ofDer? key.toSpkiDer = some key.toSpki :=
    SubjectPublicKeyInfo.ofDer?_eq_some_iff.2 ⟨rfl, length_toSpkiDer_le hfits⟩
  rw [ofSpki?, hder, Option.bind_eq_bind, Option.bind_some]
  -- each algorithm has its own check of the content, which a sound key passes.
  cases key with
  | ed25519 key =>
    have hsized : sized? 32 key.val = some key := dif_pos key.2
    have hpoint : (Edwards25519.decode? key.val).isSome := hsound
    simp only [toSpki, Ed25519.publicKey?, hsized, Option.bind_eq_bind, Option.bind_some, hpoint,
      if_true, Option.map_some]
  | rsa k =>
    have hnumbers : RsaPublicNumbers.ofDer? (RsaPublicNumbers.toElement ⟨k.n, k.e⟩).encode
        = some ⟨k.n, k.e⟩ :=
      RsaPublicNumbers.ofDer?_eq_some_iff.2
        ⟨rfl, (length_rsaNumbers_le (hfits k rfl)).trans (by decide)⟩
    simp only [toSpki, ofPkcs1?, hnumbers, k.ofNumbers?_numbers, Option.bind_eq_bind,
      Option.bind_some, if_pos (hfits k rfl)]
  | ecdsaP256 P =>
    have hpoint := P256.point?_eq_some_iff.2 ⟨hsound.1, hsound.2, Or.inl rfl⟩
    simp only [toSpki, hpoint, Option.map_some]

end PublicKey

/-! ### The keys that can come about -/

/-- A key that belongs to a private key is sound. -/
theorem PrivateKey.isSound_publicKey (key : PrivateKey) : key.publicKey.IsSound := by
  cases key with
  | ed25519 seed =>
    have hpoint := Edwards25519.decode?_encode
      (Edwards25519.contains_smul_generator (Ed25519.scalar seed))
    exact Option.isSome_iff_exists.2 ⟨_, hpoint⟩
  | rsa k => trivial
  | ecdsaP256 k =>
    exact ⟨P256.smul_generator_ne_infinity k.scalar_pos k.scalar_lt,
      P256.contains_smul_generator k.scalar⟩

namespace Key

/-- The keys that the operations give: new ones, ones that are read from a text, and those with the
private half left out. -/
inductive Obtainable : Key → Prop
  | generate {draw : Draw} {key : Key} (h : generate draw = .ok key) : Obtainable key
  | importPrivate {text : String} {key : Key} (h : importPrivate text = .ok key) : Obtainable key
  | importPublic {text : String} {key : Key} (h : importPublic text = .ok key) : Obtainable key
  | toPublic {key : Key} (h : Obtainable key) : Obtainable key.toPublic

/-- What is read is a document under the label for public keys. -/
theorem importPublic_eq_ok_iff {text : String} {key : Key} :
    importPublic text = .ok key ↔ ∃ der k, Pem.decode? text.toList = some (.publicKey, der) ∧
      PublicKey.ofSpki? der = some k ∧ key = .ofPublic k := by
  unfold importPublic PublicKey.ofPem?
  cases Pem.decode? text.toList with
  | none => simp
  | some document =>
    obtain ⟨label, der⟩ := document
    -- of all labels only one has a decoder for public keys.
    cases label with
    | publicKey =>
      simp only [Option.bind_eq_bind, Option.bind_some]
      cases hread : PublicKey.ofSpki? der with
      | none => simp [hread]
      | some k => simp [hread, eq_comm]
    | _ => simp

theorem exists_eq_ofPrivate_of_importPrivate {text : String} {key : Key}
    (h : importPrivate text = .ok key) : ∃ k, key = .ofPrivate k := by
  unfold importPrivate at h
  split at h
  · next k _ => exact ⟨k, (Except.ok.inj h).symm⟩
  · cases h

/-- Every key that can come about has a sound public half. -/
theorem Obtainable.isSound {key : Key} (h : Obtainable key) : key.publicKey.IsSound := by
  induction h with
  | @generate draw key h =>
    obtain rfl := eq_ofPrivate_of_generate h
    exact PrivateKey.isSound_publicKey (.ed25519 draw.seed)
  | importPrivate h =>
    obtain ⟨k, rfl⟩ := exists_eq_ofPrivate_of_importPrivate h
    exact k.isSound_publicKey
  | importPublic h =>
    obtain ⟨der, k, -, hread, rfl⟩ := importPublic_eq_ok_iff.1 h
    exact (PublicKey.ofSpki?_spec hread).1
  | toPublic _ ih => exact ih

/-- The public half is written as the text of its document, and only if this is within the limit. -/
theorem exportPublic_eq_ok_iff {key : Key} {text : String} :
    key.exportPublic = .ok text ↔ key.publicKey.toSpkiDer.length ≤ maxLength ∧
      text = armour .publicKey key.publicKey.toSpkiDer := by
  unfold exportPublic PublicKey.spkiDer?
  by_cases hlen : key.publicKey.toSpkiDer.length ≤ maxLength
  · simp [hlen, eq_comm]
  · simp [hlen]

theorem exportPublic_of_length_le {key : Key} (h : key.publicKey.toSpkiDer.length ≤ maxLength) :
    key.exportPublic = .ok (armour .publicKey key.publicKey.toSpkiDer) :=
  exportPublic_eq_ok_iff.2 ⟨h, rfl⟩

/-- The public half of a sound key is read from the text of its document. -/
theorem importPublic_armour_toSpkiDer {key : Key} (hsound : key.publicKey.IsSound)
    (hfits : key.publicKey.FitsModulus) :
    importPublic (armour .publicKey key.publicKey.toSpkiDer) = .ok key.toPublic := by
  refine importPublic_eq_ok_iff.2 ⟨key.publicKey.toSpkiDer, key.publicKey, ?_, ?_, rfl⟩
  · exact decode?_armour .publicKey (Element.encode_ne_nil _)
  · exact PublicKey.ofSpki?_toSpkiDer hsound hfits

/-- The public half of a sound key is written, and is read from what is written. -/
theorem exists_exportPublic {key : Key} (hsound : key.publicKey.IsSound)
    (hfits : key.publicKey.FitsModulus) :
    ∃ text, key.exportPublic = .ok text ∧ importPublic text = .ok key.toPublic :=
  ⟨_, exportPublic_of_length_le (PublicKey.length_toSpkiDer_le hfits),
    importPublic_armour_toSpkiDer hsound hfits⟩

/-- A sound public key can come about: it is read from the text that is written for it. -/
theorem obtainable_ofPublic {k : PublicKey} (hsound : k.IsSound) (hfits : k.FitsModulus) :
    Obtainable (ofPublic k) := by
  obtain ⟨text, -, hread⟩ : ∃ text, (ofPublic k).exportPublic = .ok text ∧
      importPublic text = .ok (ofPublic k) := exists_exportPublic hsound hfits
  exact .importPublic hread

theorem obtainable_ofPublic_rsa {k : Rsa.PublicKey} (h : k.bits ≤ PublicKey.maxModulusBits) :
    Obtainable (ofPublic (.rsa k)) := by
  refine obtainable_ofPublic trivial fun k' hk => ?_
  rwa [← PublicKey.rsa.inj hk]

/-! ### Both directions -/

/-- The document in a text that is read as a public key: the one that is exported for the key, or
for a key on P-256 the one with some encoding of its point in the place of the uncompressed one. -/
structure IsExactReading (text : String) (key : Key) (der : Bytes) : Prop where
  decode?_eq : Pem.decode? text.toList = some (.publicKey, der)
  spkiDer?_eq : key.algorithm = .ed25519 ∨ key.algorithm = .rsa →
    key.publicKey.spkiDer? = some der
  exists_isEncoding : key.algorithm = .ecdsaP256 → ∃ P b, key = .ofPublic (.ecdsaP256 P) ∧
    P ≠ .infinity ∧ P256.curve.Contains P ∧ P256.IsEncoding b P ∧ der = PublicKey.p256Der b ∧
    key.publicKey.spkiDer? = some (PublicKey.p256Der (P256.uncompressed P))

/-- What the public half of a key that was written and read again has in common with the key. -/
structure IsPublicCopy (key copy : Key) : Prop where
  isPrivate : copy.isPrivate = false
  algorithm : copy.algorithm = key.algorithm
  spkiDer?_eq : ∃ der, key.publicKey.spkiDer? = some der ∧ copy.publicKey.spkiDer? = some der

theorem isExactReading_of_importPublic {text : String} {key : Key}
    (h : importPublic text = .ok key) : ∃ der, IsExactReading text key der := by
  obtain ⟨der, k, hdecode, hread, rfl⟩ := importPublic_eq_ok_iff.1 h
  obtain ⟨hsound, hexact, hencoding⟩ := PublicKey.ofSpki?_spec hread
  refine ⟨der, hdecode, fun halgorithm => ?_, fun halgorithm => ?_⟩
  · have hne : k.algorithm ≠ .ecdsaP256 := by
      rintro hp256
      rw [algorithm, hp256] at halgorithm
      rcases halgorithm with h | h <;> cases h
    -- the document that was read is the one to be written, so its length is known to be in order.
    have hlen := PublicKey.length_le_of_ofSpki? hread
    rw [hexact hne] at hlen ⊢
    exact PublicKey.spkiDer?_of_length_le hlen
  · cases k with
    | ecdsaP256 P =>
      obtain ⟨b, hb, hder⟩ := hencoding P rfl
      exact ⟨P, b, rfl, hsound.1, hsound.2, hb, hder,
        PublicKey.spkiDer?_of_length_le (PublicKey.length_toSpkiDer_le nofun)⟩
    | _ => cases halgorithm

/-- Reading and writing public keys are inverse to each other on their documents. The text of an
Ed25519 or an RSA key can only hold the document that is exported for the key. For a finite point of
P-256 every encoding is read as the point, whose document is that of the uncompressed one. And every
key that can come about, but for RSA keys that are too large, is exported, read back from the
exported text, and exported as this text again. -/
theorem publicPem_inverse :
    (∀ text key, importPublic text = .ok key → ∃ der, IsExactReading text key der) ∧
    (∀ P b, P ≠ .infinity → P256.curve.Contains P → P256.IsEncoding b P →
      importPublic (armour .publicKey (PublicKey.p256Der b)) = .ok (.ofPublic (.ecdsaP256 P))) ∧
    (∀ key, Obtainable key → key.publicKey.FitsModulus →
      ∃ text copy, key.exportPublic = .ok text ∧ importPublic text = .ok copy ∧
        copy.exportPublic = .ok text ∧ IsPublicCopy key copy) := by
  refine ⟨fun text key => isExactReading_of_importPublic, ?_, ?_⟩
  -- any of the encodings of a point is read as this point.
  · intro P b hfinite hP hb
    exact importPublic_eq_ok_iff.2 ⟨_, _, decode?_armour .publicKey (Element.encode_ne_nil _),
      PublicKey.ofSpki?_p256Der hfinite hP hb, rfl⟩
  · intro key hkey hfits
    obtain ⟨text, htext, hread⟩ := exists_exportPublic hkey.isSound hfits
    -- the copy has the public half of the key, and so the same document and text.
    have hder := PublicKey.spkiDer?_of_length_le (PublicKey.length_toSpkiDer_le hfits)
    exact ⟨text, key.toPublic, htext, hread, htext, rfl, key.algorithm_publicKey, _, hder, hder⟩

/-- A new key is read back from its exported text, and the generator of P-256 from its compressed
encoding. -/
theorem publicPem_inverse_generator :
    (∃ text key der, importPublic text = .ok key ∧ IsExactReading text key der) ∧
    importPublic (armour .publicKey (PublicKey.p256Der (P256.compressed P256.generator)))
      = .ok (.ofPublic (.ecdsaP256 P256.generator)) ∧
    ∃ key text copy, generate (drawOfMask 1) = .ok key ∧ key.exportPublic = .ok text ∧
      importPublic text = .ok copy ∧ copy.exportPublic = .ok text ∧ IsPublicCopy key copy := by
  obtain ⟨hread, hencoding, hwrite⟩ := publicPem_inverse
  have hgenerator := hencoding P256.generator (P256.compressed P256.generator) nofun
    P256.contains_generator (Or.inr (Or.inl rfl))
  obtain ⟨der, hder⟩ := hread _ _ hgenerator
  have hgenerate : generate (drawOfMask 1) = .ok (.ofPrivate (.ed25519 (drawOfMask 1).seed)) := rfl
  obtain ⟨text, copy, hcopy⟩ := hwrite _ (.generate hgenerate) nofun
  exact ⟨⟨_, _, der, hgenerator, hder⟩, hgenerator, _, text, copy, hgenerate, hcopy⟩

end Key

end Keyring
