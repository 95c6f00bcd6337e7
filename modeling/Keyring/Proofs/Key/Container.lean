import Keyring.Proofs.Key.Identity
/-!
# Private keys in two containers

RSA keys and keys on P-256 have documents of their own, and the same documents can stand inside the
one for keys of any algorithm. It makes no difference to the key: whether the label of the text or
the identifier beside the bytes names the algorithm, the same bytes reach the same reader.
-/

namespace Keyring

open Bytes Document Der Text

/-! ### Texts of documents -/

/-- Whether a text holds a document: it is the one that is written for it, or it is read as it. What
is written is read as well, unless the document has no bytes. -/
def IsArmoured (label : Pem.Label) (der : Bytes) (text : String) : Prop :=
  text = armour label der ∨ Pem.decode? text.toList = some (label, der)

/-- A text holds one document. -/
theorem IsArmoured.eq_of_decode? {label : Pem.Label} {der : Bytes} {text : String}
    {document : Pem.Label × Bytes} (h : IsArmoured label der text)
    (hdecode : Pem.decode? text.toList = some document) : document = (label, der) := by
  rcases h with rfl | h
  · have hder : der ≠ [] := by
      rintro rfl
      rw [toList_armour, Pem.decode?_encode_nil] at hdecode
      cases hdecode
    exact Option.some.inj (hdecode.symm.trans (decode?_armour label hder))
  · exact Option.some.inj (hdecode.symm.trans h)

theorem PrivateKey.ofDocument?_nil (label : Pem.Label) : ofDocument? label [] = none := by
  cases label <;> rfl

theorem Key.importPrivate_of_isArmoured {label : Pem.Label} {der : Bytes} {text : String}
    (h : IsArmoured label der text) :
    importPrivate text
      = ((PrivateKey.ofDocument? label der).map ofPrivate).elim (.error .parseFailure) .ok := by
  rcases h with rfl | h
  · by_cases hder : der = []
    · subst hder
      rw [PrivateKey.ofDocument?_nil, importPrivate, PrivateKey.ofPem?_eq_bind, toList_armour,
        Pem.decode?_encode_nil]
      rfl
    · exact importPrivate_armour label hder
  · exact importPrivate_of_decode? h

/-- Every seed has a document that is imported as it. -/
theorem Key.exists_importPrivate_ed25519 (seed : Ed25519.Seed) :
    ∃ der, importPrivate (armour .privateKey der) = .ok (.ofPrivate (.ed25519 seed)) := by
  let info : PrivateKeyInfo :=
    ⟨.ed25519, (Element.octets seed.val).encode, some (Ed25519.publicKey seed).val⟩
  have hfits : PrivateKey.FitsDer (.ed25519 seed) := PrivateKey.fitsDer_of_ne_rsa nofun
  have hread : PrivateKey.ofDocument? .privateKey info.toElement.encode = some (.ed25519 seed) :=
    PrivateKey.ofPkcs8?_encode rfl (hfits info rfl)
  refine ⟨info.toElement.encode, ?_⟩
  rw [importPrivate_of_isArmoured (.inl rfl), hread]
  rfl

/-! ### Wrapped documents -/

/-- The algorithm of the keys in a kind of documents, if it holds keys of one algorithm only. -/
def Text.Pem.Label.algorithm? : Pem.Label → Option Algorithm
  | .rsaPrivateKey => some .rsa
  | .ecPrivateKey => some .ecdsaP256
  | .privateKey | .publicKey => none

namespace PrivateKey

/-- The document for keys of any algorithm, in its first version, around given bytes. -/
def wrap (a : Algorithm) (k : Bytes) : Bytes :=
  (Element.sequence [.nat 0, a.identifier, .octets k]).encode

variable {label : Pem.Label} {a : Algorithm} {k : Bytes}

theorem ofDer?_wrap (hlen : (wrap a k).length ≤ maxLength) :
    PrivateKeyInfo.ofDer? (wrap a k) = some ⟨a, k, none⟩ := by
  let info : PrivateKeyInfo := ⟨a, k, none⟩
  have hwrap : wrap a k = info.toElement.encode := rfl
  rw [hwrap] at hlen ⊢
  exact PrivateKeyInfo.ofDer?_encode hlen

/-- What is wrapped is read as it is read by itself, whatever it is. -/
theorem ofDocument?_wrap (hlabel : label.algorithm? = some a)
    (hlen : (wrap a k).length ≤ maxLength) :
    ofDocument? .privateKey (wrap a k) = ofDocument? label k := by
  rw [ofDocument?, ofPkcs8?, ofDer?_wrap hlen]
  cases label with
  | rsaPrivateKey =>
    obtain rfl := Option.some.inj hlabel
    rfl
  | ecPrivateKey =>
    obtain rfl := Option.some.inj hlabel
    rfl
  | privateKey => cases hlabel
  | publicKey => cases hlabel

end PrivateKey

/-! ### Imported keys -/

namespace Key

/-- What two keys have in common that come from the same document. -/
structure IsSameKey (key other : Key) : Prop where
  algorithm_eq : other.algorithm = key.algorithm
  /-- All the numbers of the keys are the same. -/
  eq : other = key
  privatePem_eq : other.privatePem = key.privatePem
  /-- With the same random values the keys sign alike under every scheme. -/
  sign_eq : ∀ scheme draw message, other.sign scheme draw message = key.sign scheme draw message
  sign_ed25519 : ∀ draw draw' message,
    other.sign .ed25519 draw message = key.sign .ed25519 draw' message
  sign_ecdsaP256Sha256 : ∀ draw draw' message,
    other.sign .ecdsaP256Sha256 draw message = key.sign .ecdsaP256Sha256 draw' message
  /-- The random values do not matter where the public operation undoes the private one. -/
  sign_of_isUndone : ∀ k, key = .ofPrivate (.rsa k) → k.IsUndone → ∀ draw draw' message,
    other.sign .rsaPkcs1Sha256 draw message = key.sign .rsaPkcs1Sha256 draw' message
  /-- It does so for different prime factors. -/
  sign_of_prime : ∀ k, key = .ofPrivate (.rsa k) → k.p.Prime → k.q.Prime → k.p ≠ k.q →
    ∀ draw draw' message,
      other.sign .rsaPkcs1Sha256 draw message = key.sign .rsaPkcs1Sha256 draw' message

theorem isSameKey_self (key : Key) : IsSameKey key key where
  algorithm_eq := rfl
  eq := rfl
  privatePem_eq := rfl
  sign_eq _ _ _ := rfl
  sign_ed25519 := signsAlike_ed25519 key
  sign_ecdsaP256Sha256 := signsAlike_ecdsaP256Sha256 key
  sign_of_isUndone := by
    rintro k rfl hundone
    exact signsAlike_rsaPkcs1Sha256 hundone
  sign_of_prime := by
    rintro k rfl hp hq hne
    exact signsAlike_rsaPkcs1Sha256 (k.isUndone_of_prime hp hq hne)

/-- Two texts that are both imported or both refused, and imported as the same key. -/
structure ImportsSameKey (text other : String) : Prop where
  exists_iff : (∃ key, importPrivate text = .ok key) ↔ ∃ key, importPrivate other = .ok key
  isSameKey : ∀ key key', importPrivate text = .ok key → importPrivate other = .ok key' →
    IsSameKey key key'

theorem importsSameKey_of_eq {text other : String} (h : importPrivate text = importPrivate other) :
    ImportsSameKey text other where
  exists_iff := by rw [h]
  isSameKey key key' hkey hkey' := by
    rw [h, hkey'] at hkey
    obtain rfl := Except.ok.inj hkey
    exact isSameKey_self key'

/-- A document of one algorithm and the document around it mean the same private key, for all bytes
that the first one may consist of. -/
theorem importsSameKey_wrap {label : Pem.Label} {a : Algorithm} {k : Bytes} {text other : String}
    (hlabel : label.algorithm? = some a) (hlen : (PrivateKey.wrap a k).length ≤ maxLength)
    (htext : IsArmoured label k text)
    (hother : IsArmoured .privateKey (PrivateKey.wrap a k) other) :
    ImportsSameKey text other := by
  refine importsSameKey_of_eq ?_
  rw [importPrivate_of_isArmoured htext, importPrivate_of_isArmoured hother,
    PrivateKey.ofDocument?_wrap hlabel hlen]

/-- The numbers of a key with the factors 3 and 5. -/
def smallNumbers : RsaPrivateNumbers := ⟨15, 3, 3, 3, 5, 1, 3, 2⟩

/-- A small key is imported from its own document and from the one around it. -/
theorem importsSameKey_wrap_smallNumbers :
    (PrivateKey.wrap .rsa smallNumbers.toElement.encode).length ≤ maxLength ∧
      (∃ key, importPrivate (armour .rsaPrivateKey smallNumbers.toElement.encode) = .ok key) ∧
      ImportsSameKey (armour .rsaPrivateKey smallNumbers.toElement.encode)
        (armour .privateKey (PrivateKey.wrap .rsa smallNumbers.toElement.encode)) := by
  have hlen : (PrivateKey.wrap .rsa smallNumbers.toElement.encode).length ≤ maxLength := by
    decide +kernel
  have hread : RsaPrivateNumbers.ofDer? smallNumbers.toElement.encode = some smallNumbers :=
    RsaPrivateNumbers.ofDer?_eq_some_iff.2 ⟨rfl, by decide +kernel⟩
  obtain ⟨k, hk⟩ : ∃ k, Rsa.PrivateKey.ofNumbers? 15 3 3 3 5 = some k :=
    Option.isSome_iff_exists.1 (by decide)
  have hkey : PrivateKey.ofPkcs1? smallNumbers.toElement.encode = some (.rsa k) := by
    rw [PrivateKey.ofPkcs1?, hread]
    simp only [smallNumbers, Option.bind_eq_bind, Option.bind_some, hk, Option.map_some]
  refine ⟨hlen, ⟨.ofPrivate (.rsa k), ?_⟩,
    importsSameKey_wrap rfl hlen (Or.inl rfl) (Or.inl rfl)⟩
  rw [importPrivate_of_isArmoured (Or.inl rfl), PrivateKey.ofDocument?, hkey]
  rfl

/-! ### A document with several signatures -/

/-- The document of a key whose first factor is no prime. -/
def looseDocument : Bytes :=
  (RsaPrivateNumbers.toElement ⟨looseKey.n, looseKey.e, looseKey.d, looseKey.p, looseKey.q,
    looseKey.dP, looseKey.dQ,
    54114927062400420838424895841967868452646070798316084173115219978764815628942⟩).encode

/-- The two handles on this key, which differ in the container it was imported from, sign one
message differently. -/
theorem looseDocument_sign_ne :
    (PrivateKey.wrap .rsa looseDocument).length ≤ maxLength ∧
      ∃ key other s t, importPrivate (armour .rsaPrivateKey looseDocument) = .ok key ∧
        importPrivate (armour .privateKey (PrivateKey.wrap .rsa looseDocument)) = .ok other ∧
        key.sign .rsaPkcs1Sha256 (drawOfMask 1) [0, 3, 0x4c, 0x0b] = .ok s ∧
        other.sign .rsaPkcs1Sha256 (drawOfMask 2) [0, 3, 0x4c, 0x0b] = .ok t ∧ s ≠ t := by
  have hlen : (PrivateKey.wrap .rsa looseDocument).length ≤ maxLength := by decide +kernel
  have hread := RsaPrivateNumbers.ofDer?_eq_some_iff.2
    ⟨(rfl : looseDocument = _), (by decide +kernel : looseDocument.length ≤ maxLength)⟩
  have hkey : PrivateKey.ofDocument? .rsaPrivateKey looseDocument = some (.rsa looseKey) :=
    PrivateKey.ofPkcs1?_eq_some_iff.2 ⟨looseKey, _, rfl, hread, rfl, rfl, rfl, rfl, rfl⟩
  have hlabel : Pem.Label.algorithm? .rsaPrivateKey = some .rsa := rfl
  -- the wrapped document is read as the bare one.
  have hwrap : PrivateKey.ofDocument? .privateKey (PrivateKey.wrap .rsa looseDocument)
      = some (.rsa looseKey) :=
    (PrivateKey.ofDocument?_wrap hlabel hlen).trans hkey
  obtain ⟨s, t, hs, ht, hne⟩ := exists_looseKey_sign?_ne
  refine ⟨hlen, .ofPrivate (.rsa looseKey), .ofPrivate (.rsa looseKey), s, t, ?_, ?_, ?_, ?_, hne⟩
  · rw [importPrivate_of_isArmoured (Or.inl rfl), hkey]
    rfl
  · rw [importPrivate_of_isArmoured (Or.inl rfl), hwrap]
    rfl
  · rw [sign_rsaPkcs1Sha256, drawOfMask, hs, primitive]
  · rw [sign_rsaPkcs1Sha256, drawOfMask, ht, primitive]

end Key

end Keyring
