import Keyring.Proofs.Key.PrivateText
/-!
# The curve that a private key names

A private key on a curve may name its curve in two places. The identifier around it has to name
P-256. The name inside it is only looked at for its form: a document that names another curve there
is read as if it named P-256, so every scalar in it becomes a key on P-256.
-/

namespace Keyring

open Bytes Document Der Text

namespace Document

/-- The field that names a curve. -/
def curveField (curve : Element) : Element :=
  .constructed (.explicit attributesNumber) [curve]

/-- The document of a private key with the given elements that names a curve. -/
def namedCurveDer (curve version key : Element) (rest : List Element) : Bytes :=
  (Element.sequence (version :: key :: curveField curve :: rest)).encode

/-- The document that wraps a private key under the identifier of P-256. -/
def p256WrappedDer (version : Element) (content : Bytes) (rest : List Element) : Bytes :=
  (Element.sequence (version :: Algorithm.ecdsaP256.identifier :: .octets content :: rest)).encode

theorem namedCurveDer_ne_nil {curve version key : Element} {rest : List Element} :
    namedCurveDer curve version key rest ≠ [] :=
  Element.encode_ne_nil _

theorem p256WrappedDer_ne_nil {version : Element} {content : Bytes} {rest : List Element} :
    p256WrappedDer version content rest ≠ [] :=
  Element.encode_ne_nil _

/-- The field for a curve is skipped on the way to the public key. -/
theorem readPublicKey?_curveField (read : Element → Option Bytes) (curve : Element)
    (rest : List Element) :
    readPublicKey? read (curveField curve :: rest) = readPublicKey? read rest := by
  have hmark : isMarked attributesNumber (curveField curve) = true := rfl
  unfold readPublicKey?
  rw [List.dropWhile_cons_of_pos hmark]

variable {curve curve' : Element}

/-- The content of a valid identifier is short enough for any document. -/
theorem length_body_of_isValid (h : ObjectIdentifier.isValid curve = true) :
    curve.body.length ≤ 39 := by
  simp only [ObjectIdentifier.isValid, Bool.and_eq_true, decide_eq_true_eq] at h
  exact h.1.2

/-- A field that names a valid identifier passes for a curve. -/
theorem hasValidCurve_curveField (h : ObjectIdentifier.isValid curve = true)
    (rest : List Element) : EcPrivateKey.hasValidCurve (curveField curve :: rest) = true := by
  have hparts : (curveField curve).parts? (.explicit attributesNumber) = some [curve] := by
    refine Element.parts?_eq_some_iff.2 ⟨rfl, fun e he => ?_⟩
    obtain rfl := List.mem_singleton.1 he
    exact (length_body_of_isValid h).trans (by decide)
  have hcontent : content? attributesNumber (curveField curve) = some curve := by
    simp only [content?, hparts, Option.bind_eq_bind, Option.bind_some]
  simp only [EcPrivateKey.hasValidCurve, hcontent, Option.any_some, h, Bool.or_true]

/-- Reading does not depend on which curve is named. -/
theorem EcPrivateKey.ofElements?_curveField (h : ObjectIdentifier.isValid curve = true)
    (h' : ObjectIdentifier.isValid curve' = true) (version key : Element) (rest : List Element) :
    ofElements? (version :: key :: curveField curve :: rest)
      = ofElements? (version :: key :: curveField curve' :: rest) := by
  simp only [ofElements?, readPublicKey?_curveField, hasValidCurve_curveField h,
    hasValidCurve_curveField h']

/-- Which curve a SEC1 document names has no part in how it is read. -/
theorem EcPrivateKey.ofDer?_namedCurveDer (h : ObjectIdentifier.isValid curve = true)
    (h' : ObjectIdentifier.isValid curve' = true) {version key : Element} {rest : List Element}
    (hlen : (namedCurveDer curve version key rest).length ≤ maxLength)
    (hlen' : (namedCurveDer curve' version key rest).length ≤ maxLength) :
    ofDer? (namedCurveDer curve version key rest)
      = ofDer? (namedCurveDer curve' version key rest) := by
  have hread := Element.sequenceOfBytes?_eq_some_iff.2 ⟨rfl, hlen⟩
  have hread' := Element.sequenceOfBytes?_eq_some_iff.2 ⟨rfl, hlen'⟩
  unfold namedCurveDer at hread hread' ⊢
  simp only [ofDer?, hread, hread', Option.bind_eq_bind, Option.bind_some]
  exact ofElements?_curveField h h' version key rest

/-- The document of a private key with a curve named in it. -/
def keyDer (curve : Element) (info : EcPrivateKey) : Bytes :=
  namedCurveDer curve (.nat 1) (.octets info.key)
    (info.publicKey.map fun b => .constructed (.explicit publicKeyNumber) [.bits b]).toList

variable {info : EcPrivateKey}

/-- The SEC1 document of a key is short, whichever curve it names. -/
theorem length_keyDer_le (h : ObjectIdentifier.isValid curve = true) (hkey : info.key.length ≤ 32)
    (hpublic : ∀ b, info.publicKey = some b → b.length ≤ 65) :
    (keyDer curve info).length ≤ 181 := by
  -- one bound for each of the four fields, added up at the end.
  have hversion : (Element.nat 1).encode.length ≤ 8 :=
    length_nat_encode_le (k := 1) (by decide) (by decide)
  have hoctets : (Element.octets info.key).encode.length ≤ 38 :=
    Element.length_encode_le_of_body (by decide) hkey
  have hcurve : (curveField curve).encode.length ≤ 51 := by
    have hname : curve.encode.length ≤ 45 :=
      Element.length_encode_le_of_body (by decide) (length_body_of_isValid h)
    have hbody : (curveField curve).body.length ≤ 45 := by
      show (Element.encodeAll [curve]).length ≤ 45
      simpa using hname
    exact Element.length_encode_le_of_body (by decide) hbody
  have hfield := EcPrivateKey.length_field_le hpublic
  refine Element.length_encode_le_of_body (k := 175) (by decide) ?_
  show (Element.encodeAll (_ :: _ :: _ :: _)).length ≤ 175
  simp only [Element.encodeAll_cons, List.length_append]
  omega

/-- Such a document still fits when it is wrapped. -/
theorem length_p256WrappedDer_le {content : Bytes} (h : content.length ≤ 181) :
    (p256WrappedDer (.nat 0) content []).length ≤ maxLength := by
  let info : PrivateKeyInfo := ⟨.ecdsaP256, content, none⟩
  show info.toElement.encode.length ≤ maxLength
  have hpublic : ∀ b, info.publicKey = some b → b.length ≤ 32 := by
    rintro b hb
    cases hb
  exact (PrivateKeyInfo.length_encode_le (by decide) h hpublic).trans (by decide)

/-- The fields of a SEC1 document are read back, whichever curve it names. -/
theorem EcPrivateKey.ofDer?_keyDer (h : ObjectIdentifier.isValid curve = true)
    (hkey : info.key.length ≤ 32) (hpublic : ∀ b, info.publicKey = some b → b.length ≤ 65) :
    ofDer? (keyDer curve info) = some info := by
  have hlen : (keyDer curve info).length ≤ maxLength :=
    (length_keyDer_le h hkey hpublic).trans (by decide)
  have hread := Element.sequenceOfBytes?_eq_some_iff.2 ⟨rfl, hlen⟩
  have hbody : ∀ b, info.publicKey = some b → (Element.bits b).body.length ≤ maxLength :=
    fun b hb => (Nat.succ_le_succ (hpublic b hb)).trans (by decide)
  unfold keyDer namedCurveDer
  simp only [ofDer?, hread, Option.bind_eq_bind, Option.bind_some, ofElements?,
    readPublicKey?_curveField, readPublicKey?_field hbody]
  exact if_pos ⟨trivial, rfl, hasValidCurve_curveField h _, rfl⟩

/-- Whether the elements around a private key are those of a document that is read. -/
def isWrapping (version : Element) (rest : List Element) : Bool :=
  (readPublicKey? PrivateKeyInfo.publicKey? rest).any fun fields =>
    version = .nat (if fields.1.isSome then 1 else 0) && fields.2.all isExtension

end Document

namespace PrivateKey

variable {curve curve' : Element}

/-- A key is read from a SEC1 document regardless of the curve it names. -/
theorem ofSec1?_namedCurveDer (h : ObjectIdentifier.isValid curve = true)
    (h' : ObjectIdentifier.isValid curve' = true) {version key : Element} {rest : List Element}
    (hlen : (namedCurveDer curve version key rest).length ≤ maxLength)
    (hlen' : (namedCurveDer curve' version key rest).length ≤ maxLength) :
    ofSec1? (namedCurveDer curve version key rest)
      = ofSec1? (namedCurveDer curve' version key rest) := by
  rw [ofSec1?, EcPrivateKey.ofDer?_namedCurveDer h h' hlen hlen', ← ofSec1?]

/-- A wrapped private key on a curve is read as it is read by itself. -/
theorem ofPkcs8?_p256WrappedDer {version : Element} {content : Bytes} {rest : List Element}
    (hlen : (p256WrappedDer version content rest).length ≤ maxLength) :
    ofPkcs8? (p256WrappedDer version content rest)
      = if isWrapping version rest then ofSec1? content else none := by
  have hread := Element.sequenceOfBytes?_eq_some_iff.2 ⟨rfl, hlen⟩
  have hidentifier := Algorithm.ofIdentifier?_eq_some_iff.2
    (rfl : Algorithm.ecdsaP256.identifier = _)
  have htag : (Element.octets content).tag = .octetString := rfl
  unfold p256WrappedDer at hread ⊢
  simp only [ofPkcs8?, PrivateKeyInfo.ofDer?, hread, PrivateKeyInfo.ofElements?, hidentifier, htag,
    Option.bind_eq_bind, Option.bind_some, true_and, PrivateKeyInfo.version]
  -- what stands around the content decides whether it is read, and has no other part in it.
  rcases hfields : readPublicKey? PrivateKeyInfo.publicKey? rest with - | fields
  · have hwrap : isWrapping version rest = false := by rw [isWrapping, hfields, Option.any_none]
    rw [hwrap]
    rfl
  · have hwrap : isWrapping version rest = true
        ↔ version = .nat (if fields.1.isSome then 1 else 0) ∧ fields.2.all isExtension = true := by
      rw [isWrapping, hfields, Option.any_some, Bool.and_eq_true, decide_eq_true_eq]
    rw [Option.bind_some]
    by_cases h : isWrapping version rest = true
    · rw [if_pos h, if_pos (hwrap.1 h)]
      rfl
    · rw [if_neg h, if_neg (mt hwrap.2 h)]
      rfl

/-- A public key that belongs beside the scalar is 65 bytes long. -/
theorem length_le_of_belongs {k : Ecdsa.SecretKey} {publicKey : Option Bytes}
    (hpublic : publicKey = none ∨ publicKey = some (P256.uncompressed k.publicKey)) :
    ∀ b, publicKey = some b → b.length ≤ 65 := by
  rintro b rfl
  obtain rfl := Option.some.inj (hpublic.resolve_left (Option.some_ne_none b))
  exact P256.length_uncompressed_le k.publicKey

/-- The document of a P-256 key is read as this key under any named curve. -/
theorem ofSec1?_keyDer (h : ObjectIdentifier.isValid curve = true) (k : Ecdsa.SecretKey)
    {publicKey : Option Bytes}
    (hpublic : publicKey = none ∨ publicKey = some (P256.uncompressed k.publicKey)) :
    ofSec1? (keyDer curve ⟨k.toBytes, publicKey⟩) = some (.ecdsaP256 k) := by
  refine ofSec1?_of_ofDer? k (EcPrivateKey.ofDer?_keyDer h ?_ ?_) rfl hpublic
  · exact (length_ofNat _ _).le
  · exact length_le_of_belongs hpublic

end PrivateKey

namespace Key

/-- Two documents of private keys on a curve that are imported alike, by themselves and inside any
document that names P-256. -/
structure ImportsAlike (der der' : Bytes) : Prop where
  alone : importPrivate (armour .ecPrivateKey der) = importPrivate (armour .ecPrivateKey der')
  wrapped : ∀ version rest, (p256WrappedDer version der rest).length ≤ maxLength →
    (p256WrappedDer version der' rest).length ≤ maxLength →
    importPrivate (armour .privateKey (p256WrappedDer version der rest))
      = importPrivate (armour .privateKey (p256WrappedDer version der' rest))

/-- A document that is imported as a key on P-256, by itself and inside one that names P-256. -/
structure ImportsAs (der : Bytes) (k : Ecdsa.SecretKey) : Prop where
  alone : importPrivate (armour .ecPrivateKey der) = .ok (.ofPrivate (.ecdsaP256 k))
  wrapped : importPrivate (armour .privateKey (p256WrappedDer (.nat 0) der []))
    = .ok (.ofPrivate (.ecdsaP256 k))

/-- Two SEC1 documents that read alike are imported alike, alone and wrapped. -/
theorem importsAlike_of_ofSec1?_eq {der der' : Bytes} (hne : der ≠ []) (hne' : der' ≠ [])
    (hread : PrivateKey.ofSec1? der = PrivateKey.ofSec1? der') : ImportsAlike der der' where
  alone := by
    rw [importPrivate_armour _ hne, importPrivate_armour _ hne', PrivateKey.ofDocument?,
      PrivateKey.ofDocument?, hread]
  wrapped version rest hlen hlen' := by
    rw [importPrivate_armour _ p256WrappedDer_ne_nil, importPrivate_armour _ p256WrappedDer_ne_nil,
      PrivateKey.ofDocument?, PrivateKey.ofDocument?, PrivateKey.ofPkcs8?_p256WrappedDer hlen,
      PrivateKey.ofPkcs8?_p256WrappedDer hlen', hread]

/-- A SEC1 document that reads as a key is imported as this key, alone and wrapped. -/
theorem importsAs_of_ofSec1? {der : Bytes} {k : Ecdsa.SecretKey} (hne : der ≠ [])
    (hlen : (p256WrappedDer (.nat 0) der []).length ≤ maxLength)
    (hread : PrivateKey.ofSec1? der = some (.ecdsaP256 k)) : ImportsAs der k where
  alone := by
    rw [importPrivate_armour _ hne, PrivateKey.ofDocument?, hread]
    rfl
  wrapped := by
    rw [importPrivate_armour _ p256WrappedDer_ne_nil, PrivateKey.ofDocument?,
      PrivateKey.ofPkcs8?_p256WrappedDer hlen, hread]
    rfl

/-- The document of a P-256 key under any named curve is imported as this key. -/
theorem importsAs_keyDer {curve : Element} (h : ObjectIdentifier.isValid curve = true)
    (k : Ecdsa.SecretKey) {publicKey : Option Bytes}
    (hpublic : publicKey = none ∨ publicKey = some (P256.uncompressed k.publicKey)) :
    ImportsAs (keyDer curve ⟨k.toBytes, publicKey⟩) k := by
  have hlen : (keyDer curve ⟨k.toBytes, publicKey⟩).length ≤ 181 :=
    length_keyDer_le h (length_ofNat _ _).le (PrivateKey.length_le_of_belongs hpublic)
  exact importsAs_of_ofSec1? namedCurveDer_ne_nil (length_p256WrappedDer_le hlen)
    (PrivateKey.ofSec1?_keyDer h k hpublic)

/-- A document that names another curve is refused only where the same document for P-256 is: the
two give the same key, or neither gives one. In particular every scalar gives its key on P-256
beside any name of a curve, with the public key of that key or without. -/
theorem importPrivate_namedCurve {curve curve' : Element}
    (h : ObjectIdentifier.isValid curve = true) (h' : ObjectIdentifier.isValid curve' = true)
    {version key : Element} {rest : List Element}
    (hlen : (namedCurveDer curve version key rest).length ≤ maxLength)
    (hlen' : (namedCurveDer curve' version key rest).length ≤ maxLength) :
    ImportsAlike (namedCurveDer curve version key rest) (namedCurveDer curve' version key rest) ∧
    ∀ (k : Ecdsa.SecretKey) publicKey,
      (publicKey = none ∨ publicKey = some (P256.uncompressed k.publicKey)) →
      ImportsAs (keyDer curve ⟨k.toBytes, publicKey⟩) k := by
  constructor
  · exact importsAlike_of_ofSec1?_eq namedCurveDer_ne_nil namedCurveDer_ne_nil
      (PrivateKey.ofSec1?_namedCurveDer h h' hlen hlen')
  · intro k publicKey hpublic
    exact importsAs_keyDer h k hpublic

/-! ### A scalar on another curve -/

/-- The curve secp256k1: 1.3.132.0.10. -/
def secp256k1 : Element :=
  ObjectIdentifier.element [0x2b, 0x81, 0x04, 0x00, 0x0a]

/-- The private key on P-256 whose public key is the generator. -/
def scalarOne : Ecdsa.SecretKey :=
  ⟨1, by decide, by decide⟩

/-- The document of the scalar one on a curve. -/
def scalarOneDer (curve : Element) : Bytes :=
  keyDer curve ⟨scalarOne.toBytes, none⟩

theorem isValid_secp256k1 : ObjectIdentifier.isValid secp256k1 = true := by decide

/-- The document of the scalar one on secp256k1 is imported as the P-256 key of the same scalar. -/
theorem importPrivate_namedCurve_scalarOne :
    ImportsAlike (scalarOneDer secp256k1) (scalarOneDer ObjectIdentifier.secp256r1) ∧
      ImportsAs (scalarOneDer secp256k1) scalarOne := by
  have hlen : (scalarOneDer secp256k1).length ≤ maxLength := by decide +kernel
  have hlen' : (scalarOneDer ObjectIdentifier.secp256r1).length ≤ maxLength := by decide +kernel
  have hvalid : ObjectIdentifier.isValid ObjectIdentifier.secp256r1 = true := by decide
  obtain ⟨halike, hkey⟩ := importPrivate_namedCurve isValid_secp256k1 hvalid hlen hlen'
  exact ⟨halike, hkey scalarOne none (.inl rfl)⟩

/-- A document that names secp256k1 is read as a key on P-256, by itself and inside another. -/
theorem importPrivate_secp256k1 :
    secp256k1 ≠ ObjectIdentifier.secp256r1 ∧
      importPrivate (armour .ecPrivateKey (scalarOneDer secp256k1))
        = .ok (.ofPrivate (.ecdsaP256 scalarOne)) ∧
      importPrivate (armour .privateKey (p256WrappedDer (.nat 0) (scalarOneDer secp256k1) []))
        = .ok (.ofPrivate (.ecdsaP256 scalarOne)) := by
  obtain ⟨halone, hwrapped⟩ := importsAs_keyDer isValid_secp256k1 scalarOne (.inl rfl)
  exact ⟨by decide, halone, hwrapped⟩

end Key

end Keyring
