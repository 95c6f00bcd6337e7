import Keyring.Proofs.Document.Elements
import Keyring.Proofs.Key.Capability
import Keyring.Proofs.Key.Container
/-!
# The identifiers of imported keys

A document that names its algorithm is imported only if the name is one of three byte strings. They
fix the object identifier and the parameters alike, although the object identifier is looked at
first and the parameters of Ed25519 and RSA only after that. The key is one of the algorithm that
the name stands for, and whatever is exported for it has the same name in it, byte for byte.
-/

namespace Keyring

open Bytes Document Der Text

/-! ### The three identifiers -/

/-- The identifier of an algorithm as it is written: an object identifier, and nothing behind it, or
an empty element, or the object identifier of the curve. -/
def Algorithm.identifierBytes : Algorithm → Bytes
  | .ed25519 => [0x30, 0x05, 0x06, 0x03, 0x2b, 0x65, 0x70]
  | .rsa =>
    [0x30, 0x0d, 0x06, 0x09, 0x2a, 0x86, 0x48, 0x86, 0xf7, 0x0d, 0x01, 0x01, 0x01, 0x05, 0x00]
  | .ecdsaP256 =>
    [0x30, 0x13, 0x06, 0x07, 0x2a, 0x86, 0x48, 0xce, 0x3d, 0x02, 0x01,
      0x06, 0x08, 0x2a, 0x86, 0x48, 0xce, 0x3d, 0x03, 0x01, 0x07]

/-- The identifier of an algorithm is encoded as its fixed bytes. -/
theorem Algorithm.encode_identifier (a : Algorithm) : a.identifier.encode = a.identifierBytes := by
  cases a <;> decide

/-- No identifier is the start of another one. -/
theorem Algorithm.eq_of_identifierBytes_prefix {a b : Algorithm} {front : Bytes}
    (ha : a.identifierBytes <+: front) (hb : b.identifierBytes <+: front) : a = b := by
  have hne : ∀ a b : Algorithm, a.identifierBytes <+: b.identifierBytes → a = b := by
    intro a b
    cases a <;> cases b <;> decide
  rcases List.prefix_or_prefix_of_prefix ha hb with h | h
  · exact hne a b h
  · exact (hne b a h).symm

/-! ### Where they stand -/

/-- The document that is a sequence with the given body. -/
def sequenceDer (body : Bytes) : Bytes :=
  (Element.mk .sequence body).encode

/-- The content of a sequence is known from its bytes. -/
theorem sequenceDer_inj {body body' : Bytes} (h : sequenceDer body = sequenceDer body')
    (hlen : (sequenceDer body).length ≤ maxLength) : body = body' :=
  congrArg Element.body (Element.encode_inj h hlen)

/-- What follows the first element does not depend on how the document is taken apart. -/
theorem sequenceDer_append_inj {e e' : Element} {body body' : Bytes}
    (h : sequenceDer (e.encode ++ body) = sequenceDer (e'.encode ++ body'))
    (hlen : (sequenceDer (e.encode ++ body)).length ≤ maxLength) : body = body' := by
  have hfront : e.encode ++ body = e'.encode ++ body' := sequenceDer_inj h hlen
  have hle : (e.encode ++ body).length ≤ maxLength :=
    (Element.length_body_le ⟨.sequence, e.encode ++ body⟩).trans hlen
  have hfits : ∀ (x : Element) (rest : Bytes), (x.encode ++ rest).length ≤ maxLength →
      x.body.length ≤ maxLength := by
    intro x rest hx
    rw [List.length_append] at hx
    exact x.length_body_le.trans ((Nat.le_add_right _ _).trans hx)
  -- both contents start with one element, and reading it leaves the rest.
  have hread := Element.read?_encode (hfits e body hle) body
  rw [hfront, Element.read?_encode (hfits e' body' (hfront ▸ hle)) body'] at hread
  exact (Prod.mk.inj (Option.some.inj hread)).2.symm

/-- Whether a document has an identifier in front, as those of public keys have. -/
def StartsWithIdentifier (a : Algorithm) (der : Bytes) : Prop :=
  ∃ tail, der = sequenceDer (a.identifierBytes ++ tail)

/-- Whether a document has an identifier behind a version, as those of private keys have. -/
def HasVersionAndIdentifier (a : Algorithm) (der : Bytes) : Prop :=
  ∃ version tail, der = sequenceDer ((Element.nat version).encode ++ (a.identifierBytes ++ tail))

/-- A document starts with one identifier only. -/
theorem StartsWithIdentifier.unique {a b : Algorithm} {der : Bytes}
    (ha : StartsWithIdentifier a der) (hb : StartsWithIdentifier b der)
    (hlen : der.length ≤ maxLength) : a = b := by
  obtain ⟨tail, rfl⟩ := ha
  obtain ⟨tail', h⟩ := hb
  exact Algorithm.eq_of_identifierBytes_prefix ⟨tail, rfl⟩ ⟨tail', (sequenceDer_inj h hlen).symm⟩

/-- A document has one identifier after its version only. -/
theorem HasVersionAndIdentifier.unique {a b : Algorithm} {der : Bytes}
    (ha : HasVersionAndIdentifier a der) (hb : HasVersionAndIdentifier b der)
    (hlen : der.length ≤ maxLength) : a = b := by
  obtain ⟨version, tail, rfl⟩ := ha
  obtain ⟨version', tail', h⟩ := hb
  exact Algorithm.eq_of_identifierBytes_prefix ⟨tail, rfl⟩
    ⟨tail', (sequenceDer_append_inj h hlen).symm⟩

/-- A sequence whose first element is the identifier starts with it. -/
theorem startsWithIdentifier_sequence (a : Algorithm) (rest : List Element) :
    StartsWithIdentifier a (Element.sequence (a.identifier :: rest)).encode := by
  refine ⟨Element.encodeAll rest, ?_⟩
  rw [← a.encode_identifier]
  rfl

/-- A sequence of a version and the identifier has them at its start. -/
theorem hasVersionAndIdentifier_sequence (version : ℕ) (a : Algorithm) (rest : List Element) :
    HasVersionAndIdentifier a
      (Element.sequence (.nat version :: a.identifier :: rest)).encode := by
  refine ⟨version, Element.encodeAll rest, ?_⟩
  rw [← a.encode_identifier]
  rfl

/-! ### What is read -/

/-- A private document that is read has the identifier of its key. -/
theorem PrivateKey.hasVersionAndIdentifier_of_ofPkcs8? {der : Bytes} {key : PrivateKey}
    (h : ofPkcs8? der = some key) :
    HasVersionAndIdentifier key.algorithm der ∧ der.length ≤ maxLength := by
  simp only [ofPkcs8?, Option.bind_eq_bind, Option.bind_eq_some_iff] at h
  obtain ⟨info, hread, h⟩ := h
  obtain ⟨rest, -, hes, -⟩ := PrivateKeyInfo.exists_elements_of_ofDer? hread
  -- the key that is made is of the algorithm that the identifier named.
  have halgorithm : key.algorithm = info.algorithm := by
    cases halgorithm : info.algorithm with
    | ed25519 =>
      rw [halgorithm] at h
      exact algorithm_of_ofSeedDocument? h
    | rsa =>
      rw [halgorithm] at h
      obtain ⟨k, -, rfl, -⟩ := ofPkcs1?_eq_some_iff.1 h
      rfl
    | ecdsaP256 =>
      rw [halgorithm] at h
      exact algorithm_of_ofSec1? h
  obtain ⟨rfl, hlen⟩ := Element.sequenceOfBytes?_eq_some_iff.1 hes
  rw [halgorithm]
  exact ⟨hasVersionAndIdentifier_sequence _ _ _, hlen⟩

/-- A public document that is read starts with the identifier of its key. -/
theorem PublicKey.startsWithIdentifier_of_ofSpki? {der : Bytes} {key : PublicKey}
    (h : ofSpki? der = some key) :
    StartsWithIdentifier key.algorithm der ∧ der.length ≤ maxLength := by
  simp only [ofSpki?, Option.bind_eq_bind, Option.bind_eq_some_iff] at h
  obtain ⟨info, hread, h⟩ := h
  -- the key that is made is of the algorithm that the identifier named.
  have halgorithm : key.algorithm = info.algorithm := by
    cases halgorithm : info.algorithm with
    | ed25519 =>
      rw [halgorithm] at h
      obtain ⟨k, -, rfl⟩ := Option.map_eq_some_iff.1 h
      rfl
    | rsa =>
      rw [halgorithm] at h
      simp only [ofPkcs1?, Option.bind_eq_bind, Option.bind_eq_some_iff,
        Option.ite_none_right_eq_some, Option.some.injEq] at h
      obtain ⟨_, -, _, -, -, rfl⟩ := h
      rfl
    | ecdsaP256 =>
      rw [halgorithm] at h
      obtain ⟨P, -, rfl⟩ := Option.map_eq_some_iff.1 h
      rfl
  obtain ⟨rfl, hlen⟩ := SubjectPublicKeyInfo.ofDer?_eq_some_iff.1 hread
  rw [halgorithm]
  exact ⟨startsWithIdentifier_sequence _ _, hlen⟩

/-! ### What is written -/

/-- A public document that is written starts with the identifier of its key. -/
theorem PublicKey.startsWithIdentifier_toSpkiDer (key : PublicKey) :
    StartsWithIdentifier key.algorithm key.toSpkiDer := by
  rw [← key.algorithm_toSpki]
  exact startsWithIdentifier_sequence _ _

/-- A private document that is written has the identifier of its key. -/
theorem PrivateKey.hasVersionAndIdentifier_of_toPkcs8? {key : PrivateKey} {info : PrivateKeyInfo}
    (h : key.toPkcs8? = some info) :
    HasVersionAndIdentifier key.algorithm info.toElement.encode := by
  rw [← algorithm_of_toPkcs8? h]
  exact hasVersionAndIdentifier_sequence _ _ _

namespace Key

/-- How the identifier of the algorithm of a key stands in what is exported for it. The public half
can always be exported. -/
structure ExportsIdentifier (key : Key) : Prop where
  exportPublic : ∃ der, key.exportPublic = .ok (armour .publicKey der) ∧
    StartsWithIdentifier key.algorithm der
  privatePem : ∀ text, key.privatePem = .ok text → ∃ der, text = armour .privateKey der ∧
    HasVersionAndIdentifier key.algorithm der

/-- A key that fits into a document exports its identifier. -/
theorem exportsIdentifier_of_length_le {key : Key}
    (h : key.publicKey.toSpkiDer.length ≤ maxLength) : ExportsIdentifier key where
  exportPublic := by
    refine ⟨key.publicKey.toSpkiDer, exportPublic_of_length_le h, ?_⟩
    rw [← key.algorithm_publicKey]
    exact key.publicKey.startsWithIdentifier_toSpkiDer
  privatePem text htext := by
    cases key with
    | ofPublic k => cases htext
    | ofPrivate k =>
      obtain ⟨info, hinfo, -, rfl⟩ := privatePem_eq_ok_iff.1 htext
      exact ⟨_, rfl, PrivateKey.hasVersionAndIdentifier_of_toPkcs8? hinfo⟩

/-! ### Both importers -/

/-- A private import fails in one way. -/
theorem importPrivate_eq_ok_or (text : String) :
    (∃ key, importPrivate text = .ok key) ∨ importPrivate text = .error .parseFailure := by
  unfold importPrivate
  split
  · exact .inl ⟨_, rfl⟩
  · exact .inr rfl

/-- A public import fails in one way. -/
theorem importPublic_eq_ok_or (text : String) :
    (∃ key, importPublic text = .ok key) ∨ importPublic text = .error .parseFailure := by
  unfold importPublic
  split
  · exact .inl ⟨_, rfl⟩
  · exact .inr rfl

theorem hasVersionAndIdentifier_of_importPrivate {der : Bytes} {text : String} {key : Key}
    (htext : IsArmoured .privateKey der text) (h : importPrivate text = .ok key) :
    HasVersionAndIdentifier key.algorithm der ∧ der.length ≤ maxLength := by
  obtain ⟨label, der', k, hdecode, hread, rfl⟩ := importPrivate_eq_ok_iff.1 h
  obtain ⟨rfl, rfl⟩ := Prod.mk.inj (htext.eq_of_decode? hdecode)
  exact PrivateKey.hasVersionAndIdentifier_of_ofPkcs8? hread

theorem startsWithIdentifier_of_importPublic {der : Bytes} {text : String} {key : Key}
    (htext : IsArmoured .publicKey der text) (h : importPublic text = .ok key) :
    StartsWithIdentifier key.algorithm der ∧ der.length ≤ maxLength := by
  obtain ⟨der', k, hdecode, hread, rfl⟩ := importPublic_eq_ok_iff.1 h
  obtain ⟨-, rfl⟩ := Prod.mk.inj (htext.eq_of_decode? hdecode)
  exact PublicKey.startsWithIdentifier_of_ofSpki? hread

/-- The identifier of an imported document is one of three byte strings, the one that belongs to the
algorithm of the key, and it stands in every export of the key as well. A document with anything
else in the place of the identifier is a parse failure, whatever stands around it. -/
theorem identifier_is_exact :
    (∀ der text key, IsArmoured .privateKey der text → importPrivate text = .ok key →
      (∀ a, HasVersionAndIdentifier a der ↔ key.algorithm = a) ∧ key.ExportsIdentifier) ∧
    (∀ der text key, IsArmoured .publicKey der text → importPublic text = .ok key →
      (∀ a, StartsWithIdentifier a der ↔ key.algorithm = a) ∧ key.ExportsIdentifier) ∧
    (∀ (version : Element) body text, (∀ a : Algorithm, ¬ a.identifierBytes <+: body) →
      IsArmoured .privateKey (sequenceDer (version.encode ++ body)) text →
        importPrivate text = .error .parseFailure) ∧
    ∀ body text, (∀ a : Algorithm, ¬ a.identifierBytes <+: body) →
      IsArmoured .publicKey (sequenceDer body) text → importPublic text = .error .parseFailure := by
  refine ⟨fun der text key htext h => ?_, fun der text key htext h => ?_,
    fun version body text hbody htext => ?_, fun body text hbody htext => ?_⟩
  · obtain ⟨hidentifier, hlen⟩ := hasVersionAndIdentifier_of_importPrivate htext h
    refine ⟨fun a => ⟨fun ha => hidentifier.unique ha hlen, ?_⟩,
      exportsIdentifier_of_length_le (length_toSpkiDer_le_of_importPrivate h)⟩
    rintro rfl
    exact hidentifier
  · obtain ⟨hidentifier, hlen⟩ := startsWithIdentifier_of_importPublic htext h
    refine ⟨fun a => ⟨fun ha => hidentifier.unique ha hlen, ?_⟩, exportsIdentifier_of_length_le
      (PublicKey.length_toSpkiDer_le (fitsModulus_of_importPublic h))⟩
    rintro rfl
    exact hidentifier
  -- a key that were read would have its identifier at the start of the body.
  · rcases importPrivate_eq_ok_or text with ⟨key, h⟩ | h
    · exfalso
      obtain ⟨⟨number, tail, hder⟩, hlen⟩ := hasVersionAndIdentifier_of_importPrivate htext h
      exact hbody key.algorithm ⟨tail, (sequenceDer_append_inj hder hlen).symm⟩
    · exact h
  · rcases importPublic_eq_ok_or text with ⟨key, h⟩ | h
    · exfalso
      obtain ⟨⟨tail, hder⟩, hlen⟩ := startsWithIdentifier_of_importPublic htext h
      exact hbody key.algorithm ⟨tail, (sequenceDer_inj hder hlen).symm⟩
    · exact h

/-- Identifiers that are none of the three: Ed25519 with an empty element, RSA without one, a key on
a curve that is not P-256, and Ed25519 with a length that is written too long. -/
def otherIdentifiers : List Bytes :=
  [[0x30, 0x07, 0x06, 0x03, 0x2b, 0x65, 0x70, 0x05, 0x00],
    [0x30, 0x0b, 0x06, 0x09, 0x2a, 0x86, 0x48, 0x86, 0xf7, 0x0d, 0x01, 0x01, 0x01],
    [0x30, 0x10, 0x06, 0x07, 0x2a, 0x86, 0x48, 0xce, 0x3d, 0x02, 0x01,
      0x06, 0x05, 0x2b, 0x81, 0x04, 0x00, 0x0a],
    [0x30, 0x81, 0x05, 0x06, 0x03, 0x2b, 0x65, 0x70]]

/-- A seed of zeros and the generator of P-256 are imported, and nothing is imported that has one of
the other identifiers in it. -/
theorem identifier_is_exact_zero_generator :
    (∃ der key, importPrivate (armour .privateKey der) = .ok key ∧
      HasVersionAndIdentifier .ed25519 der ∧ key.ExportsIdentifier) ∧
    (∃ der key, importPublic (armour .publicKey der) = .ok key ∧
      StartsWithIdentifier .ecdsaP256 der ∧ key.ExportsIdentifier) ∧
    ∀ identifier ∈ otherIdentifiers, ∀ tail,
      importPrivate (armour .privateKey
        (sequenceDer ((Element.nat 0).encode ++ (identifier ++ tail)))) = .error .parseFailure ∧
      importPublic (armour .publicKey (sequenceDer (identifier ++ tail)))
        = .error .parseFailure := by
  obtain ⟨hprivate, hpublic, hrefusePrivate, hrefusePublic⟩ := identifier_is_exact
  refine ⟨?_, ?_, fun identifier hidentifier tail => ?_⟩
  · obtain ⟨der, himport⟩ := exists_importPrivate_ed25519 ⟨List.replicate 32 0, rfl⟩
    obtain ⟨hidentifier, hexports⟩ := hprivate der _ _ (.inl rfl) himport
    exact ⟨der, _, himport, (hidentifier .ed25519).2 rfl, hexports⟩
  · have hsound : (ofPublic (.ecdsaP256 P256.generator)).publicKey.IsSound :=
      ⟨nofun, P256.contains_generator⟩
    have himport := importPublic_armour_toSpkiDer hsound nofun
    obtain ⟨hidentifier, hexports⟩ := hpublic _ _ _ (.inl rfl) himport
    exact ⟨_, _, himport, (hidentifier .ecdsaP256).2 rfl, hexports⟩
  · have hother : ∀ a : Algorithm, ¬ a.identifierBytes <+: identifier ++ tail := by
      intro a
      simp only [otherIdentifiers, List.mem_cons, List.not_mem_nil, or_false] at hidentifier
      rcases hidentifier with rfl | rfl | rfl | rfl <;> cases a <;>
        simp [Algorithm.identifierBytes]
    exact ⟨hrefusePrivate _ _ _ hother (.inl rfl), hrefusePublic _ _ hother (.inl rfl)⟩

end Key

end Keyring
