import Keyring.Proofs.BitFlip
import Keyring.Proofs.Key.DocumentKind
import Keyring.Proofs.Key.NamedCurve
/-!
# Public keys inside private documents

The document of a private key says more than the secret: a public key may stand beside a seed or a
scalar, and an RSA key comes with its modulus. None of this is believed. A document is imported only
if the public key in it is the one that follows from the secret, and is refused otherwise, whichever
of the three kinds of documents it stands in.

The fields around the document of a scalar or of RSA numbers are not compared with it. The key is
not taken from them either.
-/

namespace Keyring

open Bytes Document Der Text

/-! ### What documents say -/

/-- Whether a document has bytes of an algorithm for its content: it consists of them, or it is a
document for keys of any algorithm, with a version in front of the bytes and fields behind them. -/
inductive HasContent (a : Algorithm) (content : Bytes) :
    List Element → Pem.Label → Bytes → Prop
  | alone {label : Pem.Label} (h : label.algorithm? = some a) :
      HasContent a content [] label content
  | wrapped (version : Element) (fields : List Element) :
      HasContent a content fields .privateKey
        (Element.sequence (version :: a.identifier :: .octets content :: fields)).encode

/-- What the document of a private key says: the secret, and the fields beside it, of which some may
be for a public key. -/
inductive PrivateContents where
  | seed (seed : Ed25519.Seed) (fields : List Element)
  | numbers (numbers : RsaPrivateNumbers)
  | scalar (secret : Bytes) (fields : List Element)

namespace PrivateContents

/-- Whether a document says it. -/
inductive IsIn (label : Pem.Label) (der : Bytes) : PrivateContents → Prop
  | seed {value : Ed25519.Seed} {fields : List Element}
      (h : HasContent .ed25519 (Element.octets value.val).encode fields label der) :
      IsIn label der (.seed value fields)
  | numbers {k : RsaPrivateNumbers} {fields : List Element}
      (h : HasContent .rsa k.toElement.encode fields label der) :
      IsIn label der (.numbers k)
  | scalar {version : Element} {secret : Bytes} {fields outer : List Element}
      (h : HasContent .ecdsaP256 (Element.sequence (version :: .octets secret :: fields)).encode
        outer label der) :
      IsIn label der (.scalar secret fields)

/-- Whether what stands beside the secret follows from it: each public key is the one of the seed,
or is an encoding of the multiple of the generator, with both coordinates or compressed, and the
modulus is the product of the factors. -/
def IsConsistent : PrivateContents → Prop
  -- a bit string is not constructed: a constructed field with this number is no public key.
  | .seed value fields => ∀ e ∈ fields, e.tag = .implicit publicKeyNumber →
      e = PrivateKeyInfo.publicKeyField (Ed25519.publicKey value).val
  | .numbers k => k.n = k.p * k.q
  | .scalar secret fields => ∀ e ∈ fields, isMarked publicKeyNumber e = true →
      let point := P256.curve.smul (toNat secret) P256.generator
      e = EcPrivateKey.publicKeyField (P256.uncompressed point) ∨
        e = EcPrivateKey.publicKeyField (P256.compressed point)

/-- Whether a private key is the one that is meant. -/
def IsFor : PrivateContents → PrivateKey → Prop
  | .seed value _, .ed25519 value' => value' = value
  | .numbers k, .rsa k' => k'.toPublicKey.n = k.n ∧ k'.toPublicKey.e = k.e
  | .scalar secret _, .ecdsaP256 k => k.scalar = toNat secret
  | _, _ => False

end PrivateContents

/-! ### A document says one thing -/

namespace HasContent

variable {a a' : Algorithm} {content content' der : Bytes} {fields fields' : List Element}
  {label : Pem.Label}

theorem length_le (h : HasContent a content fields label der) : content.length ≤ der.length := by
  cases h with
  | alone => exact le_rfl
  | wrapped version =>
    exact Element.length_body_le_constructed (e := .octets content) (by simp)

/-- A document has one content. -/
theorem unique (h : HasContent a content fields label der)
    (h' : HasContent a' content' fields' label der) (hlen : der.length ≤ maxLength) :
    a = a' ∧ content = content' ∧ fields = fields' := by
  cases h with
  | alone h =>
    cases h' with
    | alone h' => exact ⟨Option.some.inj (h.symm.trans h'), rfl, rfl⟩
    | wrapped => cases h
  | wrapped version =>
    -- two wrapped documents of one length are one sequence, which is compared element by element.
    generalize hder : (Element.sequence (version :: a.identifier :: .octets content ::
      fields)).encode = der at h' hlen
    cases h' with
    | alone h' => cases h'
    | wrapped version' =>
      have hes := Element.sequence_encode_inj hder (hder ▸ hlen)
      simp only [List.cons.injEq, Element.octets, Element.mk.injEq] at hes
      obtain ⟨-, hidentifier, ⟨-, hcontent⟩, hfields⟩ := hes
      exact ⟨Algorithm.identifier_injective hidentifier, hcontent, hfields⟩

end HasContent

namespace PrivateContents

variable {label : Pem.Label} {der content : Bytes} {key : PrivateKey} {fields : List Element}
  {contents contents' : PrivateContents}

/-- The secret and the fields beside it can be told from the bytes. -/
theorem IsIn.unique (h : IsIn label der contents) (h' : IsIn label der contents')
    (hlen : der.length ≤ maxLength) : contents = contents' := by
  -- the identifier tells the kinds apart, and within a kind the content is read in one way.
  cases h with
  | seed h =>
    cases h' with
    | seed h' =>
      obtain ⟨-, hcontent, rfl⟩ := h.unique h' hlen
      have hseed := Element.encode_inj hcontent (h.length_le.trans hlen)
      rw [Subtype.ext (congrArg Element.body hseed)]
    | numbers h' | scalar h' => cases (h.unique h' hlen).1
  | numbers h =>
    cases h' with
    | numbers h' =>
      obtain ⟨-, hcontent, -⟩ := h.unique h' hlen
      have hread := RsaPrivateNumbers.ofDer?_eq_some_iff.2 ⟨rfl, h.length_le.trans hlen⟩
      rw [RsaPrivateNumbers.ofDer?_eq_some_iff.2 ⟨hcontent, h.length_le.trans hlen⟩] at hread
      rw [Option.some.inj hread]
    | seed h' | scalar h' => cases (h.unique h' hlen).1
  | scalar h =>
    cases h' with
    | scalar h' =>
      obtain ⟨-, hcontent, -⟩ := h.unique h' hlen
      have hes := Element.sequence_encode_inj hcontent (h.length_le.trans hlen)
      simp only [List.cons.injEq, Element.octets, Element.mk.injEq] at hes
      obtain ⟨-, ⟨-, rfl⟩, rfl⟩ := hes
      rfl
    | seed h' | numbers h' => cases (h.unique h' hlen).1

/-! ### What is read -/

/-- Whether a document says something consistent by which it means a private key. -/
def Means (label : Pem.Label) (der : Bytes) (key : PrivateKey) : Prop :=
  ∃ contents, IsIn label der contents ∧ contents.IsFor key ∧ contents.IsConsistent

/-- An RSA document that is read means the key. -/
theorem means_of_ofPkcs1? (hcontent : HasContent .rsa content fields label der)
    (h : PrivateKey.ofPkcs1? content = some key) : Means label der key := by
  obtain ⟨k, numbers, rfl, hread, hn, he, -, hp, hq⟩ := PrivateKey.ofPkcs1?_eq_some_iff.1 h
  obtain ⟨rfl, -⟩ := RsaPrivateNumbers.ofDer?_eq_some_iff.1 hread
  refine ⟨.numbers numbers, .numbers hcontent, ⟨hn, he⟩, ?_⟩
  rw [IsConsistent, ← hn, ← hp, ← hq, k.p_mul_q]

/-- A SEC1 document that is read means the key. -/
theorem means_of_ofSec1? (hcontent : HasContent .ecdsaP256 content fields label der)
    (h : PrivateKey.ofSec1? content = some key) : Means label der key := by
  simp only [PrivateKey.ofSec1?, Option.bind_eq_bind, Option.bind_eq_some_iff,
    Option.ite_none_right_eq_some, Option.some.injEq] at h
  obtain ⟨info, hread, k, hk, ⟨-, -, hfits⟩, rfl⟩ := h
  obtain ⟨inner, hes, hfield⟩ := EcPrivateKey.exists_elements_of_ofDer? hread
  obtain ⟨rfl, -⟩ := Element.sequenceOfBytes?_eq_some_iff.1 hes
  have hscalar : k.scalar = toNat info.key := by
    unfold Ecdsa.SecretKey.ofNat? at hk
    split_ifs at hk
    obtain rfl := Option.some.inj hk
    rfl
  refine ⟨.scalar info.key inner, .scalar hcontent, hscalar, fun e he hmark => ?_⟩
  -- nothing is left behind the field that is read.
  obtain ⟨b, hpublic, hb⟩ := (exists_of_readPublicKey? hfield he hmark).resolve_right
    List.not_mem_nil
  rw [hpublic, Option.all_some, decide_eq_true_eq, Ecdsa.SecretKey.publicKey, hscalar] at hfits
  rw [EcPrivateKey.eq_publicKeyField_of_publicKey? hb]
  exact hfits.imp (congrArg _) (congrArg _)

/-- A wrapped seed that is read means the key. -/
theorem means_of_ofSeedDocument? {info : PrivateKeyInfo} {behind : List Element}
    (hcontent : HasContent .ed25519 info.key fields label der)
    (hfield : readPublicKey? PrivateKeyInfo.publicKey? fields = some (info.publicKey, behind))
    (hbehind : ∀ e ∈ behind, isExtension e = true)
    (h : PrivateKey.ofSeedDocument? info = some key) : Means label der key := by
  simp only [PrivateKey.ofSeedDocument?, Option.bind_eq_bind, Option.bind_eq_some_iff,
    Option.ite_none_right_eq_some, Option.some.injEq] at h
  obtain ⟨inner, hinner, value, hvalue, ⟨htag, hfits⟩, rfl⟩ := h
  obtain ⟨hkey, -⟩ := Element.ofBytes?_eq_some_iff.1 hinner
  have hoctets : inner = .octets value.val := by
    unfold sized? at hvalue
    split_ifs at hvalue
    rw [Element.octets, ← htag, ← Option.some.inj hvalue]
  rw [hkey, hoctets] at hcontent
  refine ⟨.seed value fields, .seed hcontent, rfl, fun e he htag => ?_⟩
  have hmark : isMarked publicKeyNumber e = true := isMarked_iff.2 ⟨_, htag⟩
  rcases exists_of_readPublicKey? hfield he hmark with ⟨b, hpublic, hb⟩ | hlater
  · rw [hpublic, Option.all_some, decide_eq_true_eq] at hfits
    rw [PrivateKeyInfo.eq_publicKeyField_of_publicKey? hb, hfits]
  · -- what is skipped behind the field is constructed, which a bit string is not.
    have hskip := hbehind e hlater
    simp [isExtension, htag] at hskip

/-- A document that is read means the key, whatever its label. -/
theorem means_of_ofDocument? (h : PrivateKey.ofDocument? label der = some key) :
    Means label der key := by
  cases label with
  | privateKey =>
    simp only [PrivateKey.ofDocument?, PrivateKey.ofPkcs8?, Option.bind_eq_bind,
      Option.bind_eq_some_iff] at h
    obtain ⟨info, hread, h⟩ := h
    obtain ⟨fields, behind, hes, hfield, hbehind⟩ := PrivateKeyInfo.exists_elements_of_ofDer? hread
    obtain ⟨rfl, -⟩ := Element.sequenceOfBytes?_eq_some_iff.1 hes
    -- what is wrapped is read as it is alone, by the algorithm that the identifier names.
    have hcontent : HasContent info.algorithm info.key fields .privateKey _ :=
      .wrapped (.nat info.version) fields
    cases halgorithm : info.algorithm with
    | ed25519 =>
      rw [halgorithm] at h hcontent
      exact means_of_ofSeedDocument? hcontent hfield hbehind h
    | rsa =>
      rw [halgorithm] at h hcontent
      exact means_of_ofPkcs1? hcontent h
    | ecdsaP256 =>
      rw [halgorithm] at h hcontent
      exact means_of_ofSec1? hcontent h
  | rsaPrivateKey => exact means_of_ofPkcs1? (.alone rfl) h
  | ecPrivateKey => exact means_of_ofSec1? (.alone rfl) h
  | publicKey => cases h

/-- A document that is inconsistent is not read, since it says nothing else. -/
theorem IsIn.ofDocument?_eq_none (h : IsIn label der contents) (hforged : ¬ contents.IsConsistent) :
    PrivateKey.ofDocument? label der = none := by
  refine Option.eq_none_iff_forall_ne_some.2 fun key hread => ?_
  obtain ⟨_, _, _, hes, -⟩ := PrivateKey.hasFirstTags_of_ofDocument? hread
  obtain ⟨contents', hin, -, hconsistent⟩ := means_of_ofDocument? hread
  obtain rfl := h.unique hin (Element.sequenceOfBytes?_eq_some_iff.1 hes).2
  exact hforged hconsistent

end PrivateContents

namespace Key

/-- What is imported as a private key comes from a document whose public key, if it has one, follows
from the secret, and which means this private key. A document in which it does not follow is
refused, whatever text it is in. -/
theorem embedded_key_is_derived :
    (∀ text key, importPrivate text = .ok key → ∃ label der k,
      Pem.decode? text.toList = some (label, der) ∧ key = .ofPrivate k ∧
        PrivateContents.Means label der k) ∧
    ∀ label der text contents, IsArmoured label der text →
      PrivateContents.IsIn label der contents → ¬ contents.IsConsistent →
        importPrivate text = .error .parseFailure := by
  constructor
  · intro text key h
    obtain ⟨label, der, k, hdecode, hread, rfl⟩ := importPrivate_eq_ok_iff.1 h
    exact ⟨label, der, k, hdecode, rfl, PrivateContents.means_of_ofDocument? hread⟩
  · intro label der text contents htext hin hforged
    rw [importPrivate_of_isArmoured htext, hin.ofDocument?_eq_none hforged]
    rfl

/-- A document of a seed with a public key beside it. -/
def seedDer (seed : Ed25519.Seed) (b : Bytes) : Bytes :=
  PrivateKeyInfo.toElement ⟨.ed25519, (Element.octets seed.val).encode, some b⟩ |>.encode

/-- A document of the scalar one with a public point beside it. -/
def scalarOnePointDer (b : Bytes) : Bytes :=
  EcPrivateKey.toElement ⟨scalarOne.toBytes, some b⟩ |>.encode

/-- The numbers of `smallNumbers` with another modulus. -/
def otherModulus : RsaPrivateNumbers := ⟨21, 3, 3, 3, 5, 1, 3, 2⟩

/-- The document of a seed of zeros means this seed. One with a public key that differs in a bit is
refused, and so are one of the scalar one with the opposite of its point, by itself and inside
another, and one of the factors 3 and 5 with the modulus 21. -/
theorem embedded_key_is_derived_zero :
    let zero : Ed25519.Seed := ⟨List.replicate 32 0, rfl⟩
    let opposite := scalarOnePointDer (P256.uncompressed P256.generator.neg)
    (∃ der, importPrivate (armour .privateKey der) = .ok (.ofPrivate (.ed25519 zero)) ∧
      PrivateContents.Means .privateKey der (.ed25519 zero)) ∧
    importPrivate (armour .privateKey (seedDer zero (flipBit (Ed25519.publicKey zero).val 0 0)))
      = .error .parseFailure ∧
    importPrivate (armour .ecPrivateKey opposite) = .error .parseFailure ∧
    importPrivate (armour .privateKey (PrivateKey.wrap .ecdsaP256 opposite))
      = .error .parseFailure ∧
    importPrivate (armour .rsaPrivateKey otherModulus.toElement.encode)
      = .error .parseFailure := by
  intro zero opposite
  obtain ⟨hmeans, hforged⟩ := embedded_key_is_derived
  -- the public point of the scalar one is the generator, and its negative stands beside it.
  have hopposite : ¬ PrivateContents.IsConsistent (.scalar scalarOne.toBytes
      [EcPrivateKey.publicKeyField (P256.uncompressed P256.generator.neg)]) := by
    intro h
    have hone : P256.curve.smul (toNat scalarOne.toBytes) P256.generator = P256.generator := by
      decide +kernel
    have hfield := h _ (List.mem_singleton_self _) rfl
    rw [hone] at hfield
    revert hfield
    decide +kernel
  -- here the modulus is not the product.
  have hproduct : ¬ PrivateContents.IsConsistent (.numbers otherModulus) := by
    rw [PrivateContents.IsConsistent]
    decide
  refine ⟨?_, hforged .privateKey _ _ _ (.inl rfl) (.seed (.wrapped (.nat 1) _)) ?_,
    hforged .ecPrivateKey _ _ _ (.inl rfl) (.scalar (.alone rfl)) hopposite,
    hforged .privateKey _ _ _ (.inl rfl) (.scalar (.wrapped (.nat 0) [])) hopposite,
    hforged .rsaPrivateKey _ _ _ (.inl rfl) (.numbers (.alone rfl)) hproduct⟩
  · obtain ⟨der, himport⟩ := exists_importPrivate_ed25519 zero
    obtain ⟨label, der', k, hdecode, hkey, hread⟩ := hmeans _ _ himport
    obtain ⟨rfl, rfl⟩ := Prod.mk.inj (IsArmoured.eq_of_decode? (.inl rfl) hdecode)
    obtain rfl := ofPrivate.inj hkey
    exact ⟨_, himport, hread⟩
  · intro h
    have hfield := h _ (List.mem_singleton_self _) rfl
    have hbits := (List.cons.inj (congrArg Element.body hfield)).2
    have hlength : (Ed25519.publicKey zero).val.length = 32 := (Ed25519.publicKey zero).2
    exact flipBit_ne (by omega) (by decide) hbits

end Key

end Keyring
