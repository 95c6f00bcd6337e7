import Keyring.Key.Text
import Keyring.Proofs.Curve.P256
import Keyring.Proofs.Key.PublicDocument
import Keyring.Proofs.Key.Signature
import Keyring.Proofs.Rsa.Power
import Keyring.Proofs.Text.Pem
/-!
# Private keys written and read again

A private key that has a document is read back from its text as the same key, whichever of the three
kinds of documents it came from, and its text is a normal form. The only keys without a document are
RSA keys whose second factor has no inverse modulo the first.
-/

namespace Keyring

open Bytes Document Der Text

/-! ### Texts -/

theorem toList_armour (label : Pem.Label) (der : Bytes) :
    (armour label der).toList = Pem.encode label.name.toList der :=
  String.toList_ofList

/-- The text of a document is read back as the document, with its label. -/
theorem decode?_armour (label : Pem.Label) {der : Bytes} (hder : der ≠ []) :
    Pem.decode? (armour label der).toList = some (label, der) := by
  rw [toList_armour, Pem.decode?_encode label hder]

/-- The private key in a document of the kind that a label names. -/
def PrivateKey.ofDocument? (label : Pem.Label) (der : Bytes) : Option PrivateKey :=
  match label with
  | .privateKey => ofPkcs8? der
  | .rsaPrivateKey => ofPkcs1? der
  | .ecPrivateKey => ofSec1? der
  | .publicKey => none

/-- A private key is read from a text in two steps: the text gives a document, and the label says
how to read it. -/
theorem PrivateKey.ofPem?_eq_bind (text : String) :
    ofPem? text = (Pem.decode? text.toList).bind fun document =>
      (ofDocument? document.1 document.2).map (document.1, ·) := by
  unfold ofPem?
  rcases Pem.decode? text.toList with - | ⟨label, der⟩
  · rfl
  · cases label with
    | privateKey => exact (Option.map_eq_bind ..).symm
    | rsaPrivateKey => exact (Option.map_eq_bind ..).symm
    | ecPrivateKey => exact (Option.map_eq_bind ..).symm
    | publicKey => rfl

/-- What is imported depends on a text only through the document in it. -/
theorem Key.importPrivate_of_decode? {text : String} {label : Pem.Label} {der : Bytes}
    (h : Pem.decode? text.toList = some (label, der)) :
    importPrivate text
      = ((PrivateKey.ofDocument? label der).map ofPrivate).elim (.error .parseFailure) .ok := by
  rw [importPrivate, PrivateKey.ofPem?_eq_bind, h, Option.bind_some]
  cases PrivateKey.ofDocument? label der with
  | none => rfl
  | some key => rfl

/-- What is imported from the text of a document is what the document is read as. -/
theorem Key.importPrivate_armour (label : Pem.Label) {der : Bytes} (hder : der ≠ []) :
    importPrivate (armour label der)
      = ((PrivateKey.ofDocument? label der).map ofPrivate).elim (.error .parseFailure) .ok :=
  importPrivate_of_decode? (decode?_armour label hder)

/-! ### Keys and their numbers -/

theorem Rsa.PublicKey.ofNumbers?_numbers (key : Rsa.PublicKey) :
    Rsa.PublicKey.ofNumbers? key.n key.e = some key :=
  dif_pos ⟨key.n_odd, key.e_odd, key.three_le_e, key.e_le, key.e_lt_n⟩

/-- The numbers of a key pass the tests that make a key of them. -/
theorem Rsa.PrivateKey.ofNumbers?_numbers (key : Rsa.PrivateKey) :
    Rsa.PrivateKey.ofNumbers? key.n key.e key.d key.p key.q = some key := by
  rw [Rsa.PrivateKey.ofNumbers?, Rsa.PublicKey.ofNumbers?_numbers key.toPublicKey]
  exact dif_pos ⟨key.one_lt_p, key.one_lt_q, key.p_mul_q, key.inverse_p, key.inverse_q⟩

/-- The scalar is read back from its bytes. -/
theorem Ecdsa.SecretKey.toNat_toBytes (key : Ecdsa.SecretKey) :
    toNat key.toBytes = key.scalar :=
  toNat_ofNat_of_lt (key.scalar_lt.trans (by norm_num [P256.order, P256.byteLength]))

theorem Ecdsa.SecretKey.ofNat?_scalar (key : Ecdsa.SecretKey) :
    Ecdsa.SecretKey.ofNat? key.scalar = some key :=
  dif_pos ⟨key.scalar_pos, key.scalar_lt⟩

/-- The second factor has no inverse modulo the first exactly when the algorithm finds none. -/
theorem Rsa.PrivateKey.qInv?_eq_none_iff (key : Rsa.PrivateKey) :
    key.qInv? = none ↔ ¬ ∃ x, key.q * x % key.p = 1 := by
  rw [qInv?, Arith.inverse?_eq_none_iff key.p_pos, not_iff_not]
  constructor
  · intro h
    obtain ⟨x, -, hx⟩ := Nat.exists_mul_mod_eq_one_of_coprime h key.one_lt_p
    exact ⟨x, hx⟩
  · rintro ⟨x, hx⟩
    refine Nat.coprime_of_mul_modEq_one x ?_
    rw [Nat.ModEq, hx, Nat.mod_eq_of_lt key.one_lt_p]

/-! ### Documents -/

namespace PrivateKey

/-- Whether a key has a document: a key that is no RSA key has, and an RSA key if its second factor
has an inverse modulo the first. -/
def HasDocument (key : PrivateKey) : Prop :=
  ∀ k, key = .rsa k → ∃ x, k.q * x % k.p = 1

/-- The only key without a document is an RSA key whose factors are not coprime. -/
theorem toPkcs8?_eq_none_iff (key : PrivateKey) : key.toPkcs8? = none ↔ ¬ key.HasDocument := by
  cases key with
  | ed25519 seed => simp [toPkcs8?, HasDocument]
  | ecdsaP256 key => simp [toPkcs8?, HasDocument]
  | rsa k =>
    have hnone : (PrivateKey.rsa k).toPkcs8? = none ↔ k.qInv? = none := by
      cases h : k.qInv? <;> simp [toPkcs8?, h]
    rw [hnone, k.qInv?_eq_none_iff]
    simp [HasDocument]

/-- Whether the document of a key, if there is one, is within the limit of what can be read. -/
def FitsDer (key : PrivateKey) : Prop :=
  ∀ info, key.toPkcs8? = some info → info.toElement.encode.length ≤ maxLength

/-- Only the documents of RSA keys can be too long. -/
theorem fitsDer_of_ne_rsa {key : PrivateKey} (h : key.algorithm ≠ .rsa) : key.FitsDer := by
  intro info hinfo
  -- a seed and a scalar have fixed lengths, so only RSA documents can grow.
  cases key with
  | ed25519 seed =>
    obtain rfl := Option.some.inj hinfo
    have hkey : (Element.octets seed.val).encode.length ≤ 38 :=
      Element.length_encode_le_of_body (k := 32) (by decide) seed.2.le
    refine (PrivateKeyInfo.length_encode_le (by decide) hkey ?_).trans (by decide)
    rintro b hb
    obtain rfl := Option.some.inj hb
    exact (Ed25519.publicKey seed).2.le
  | rsa k => exact absurd rfl h
  | ecdsaP256 k =>
    obtain rfl := Option.some.inj hinfo
    have hkey : (EcPrivateKey.toElement
        ⟨k.toBytes, some (P256.uncompressed k.publicKey)⟩).encode.length ≤ 130 := by
      refine EcPrivateKey.length_encode_le (length_ofNat _ _).le ?_
      rintro b hb
      obtain rfl := Option.some.inj hb
      exact P256.length_uncompressed_le k.publicKey
    refine (PrivateKeyInfo.length_encode_le (by decide) hkey ?_).trans (by decide)
    rintro b hb
    cases hb

/-- The length of the document of a given key is found by writing it. -/
theorem fitsDer_of_all {key : PrivateKey}
    (h : key.toPkcs8?.all (fun info => info.toElement.encode.length ≤ maxLength) = true) :
    key.FitsDer := by
  intro info hinfo
  rw [hinfo, Option.all_some, decide_eq_true_iff] at h
  exact h

/-- An RSA key with coprime factors has a document. -/
theorem hasDocument_rsa {k : Rsa.PrivateKey} (h : Nat.Coprime k.q k.p) :
    HasDocument (.rsa k) := by
  intro k' hk
  obtain rfl := PrivateKey.rsa.inj hk
  obtain ⟨x, -, hx⟩ := Nat.exists_mul_mod_eq_one_of_coprime h k.one_lt_p
  exact ⟨x, hx⟩

/-- The key is part of its document. -/
theorem length_key_le (info : PrivateKeyInfo) :
    info.key.length ≤ info.toElement.encode.length :=
  Element.length_body_le_constructed (e := .octets info.key) (by simp)

-- Stated for any test and any bytes: with the public key in their place, comparing them would
-- compute it.
theorem all_of_eq_some {test : Bytes → Prop} [DecidablePred test] {value : Option Bytes} {b : Bytes}
    (h : value = some b) (hb : test b) : value.all test = true := by
  rw [h, Option.all_some, decide_eq_true_iff]
  exact hb

/-- A wrapped seed with its public key beside it is read as this seed. -/
theorem ofSeedDocument?_octets (seed : Ed25519.Seed) {info : PrivateKeyInfo}
    (hkey : info.key = (Element.octets seed.val).encode)
    (hpublic : info.publicKey = some (Ed25519.publicKey seed).val)
    (hlen : info.key.length ≤ maxLength) :
    ofSeedDocument? info = some (.ed25519 seed) := by
  have hinner : Element.ofBytes? info.key = some (.octets seed.val) :=
    Element.ofBytes?_eq_some_iff.2 ⟨hkey, hlen⟩
  have hseed : sized? 32 (Element.octets seed.val).body = some seed := dif_pos seed.2
  have hfits : info.publicKey.all (· = (Ed25519.publicKey seed).val) :=
    all_of_eq_some hpublic rfl
  simp only [ofSeedDocument?, hinner, hseed, Option.bind_eq_bind, Option.bind_some]
  exact if_pos ⟨rfl, hfits⟩

/-- The fields of a key on P-256 are read as this key, whether its public key stands beside it or
not. -/
theorem ofSec1?_of_ofDer? (k : Ecdsa.SecretKey) {der : Bytes} {info : EcPrivateKey}
    (hread : EcPrivateKey.ofDer? der = some info) (hkey : info.key = k.toBytes)
    (hpublic : info.publicKey = none ∨ info.publicKey = some (P256.uncompressed k.publicKey)) :
    ofSec1? der = some (.ecdsaP256 k) := by
  have hlength : k.toBytes.length = P256.byteLength := length_ofNat _ _
  -- what is compared is the public key of the scalar that was just read.
  have hfits : info.publicKey.all fun b =>
      b = P256.uncompressed k.publicKey ∨ b = P256.compressed k.publicKey := by
    rcases hpublic with hpublic | hpublic
    · rw [hpublic, Option.all_none]
    · exact all_of_eq_some hpublic (Or.inl rfl)
  simp only [ofSec1?, hread, Option.bind_eq_bind, Option.bind_some, hkey, k.toNat_toBytes,
    k.ofNat?_scalar]
  refine if_pos ⟨?_, hlength.le, hfits⟩
  rw [hlength]
  decide

/-- The document of a key is read as this key, if it is not too long. -/
theorem ofPkcs8?_encode {key : PrivateKey} {info : PrivateKeyInfo} (h : key.toPkcs8? = some info)
    (hlen : info.toElement.encode.length ≤ maxLength) :
    ofPkcs8? info.toElement.encode = some key := by
  have hkey : info.key.length ≤ maxLength := (length_key_le info).trans hlen
  simp only [ofPkcs8?, PrivateKeyInfo.ofDer?_encode hlen, Option.bind_eq_bind, Option.bind_some]
  cases key with
  | ed25519 seed =>
    obtain rfl := Option.some.inj h
    exact ofSeedDocument?_octets seed rfl rfl hkey
  | rsa k =>
    simp only [toPkcs8?, Option.bind_eq_bind, Option.bind_eq_some_iff, Option.some.injEq] at h
    -- the numbers that follow from the others are written and not looked at in reading.
    -- the numbers that follow from the others are written and not looked at in reading.
    obtain ⟨qInv, -, rfl⟩ := h
    have hnumbers := RsaPrivateNumbers.ofDer?_eq_some_iff.2 ⟨rfl, hkey⟩
    simp [ofPkcs1?, hnumbers, k.ofNumbers?_numbers]
  | ecdsaP256 k =>
    obtain rfl := Option.some.inj h
    exact ofSec1?_of_ofDer? k (EcPrivateKey.ofDer?_encode hkey) rfl (.inr rfl)

end PrivateKey

/-! ### Signatures and random values -/

/-- The masks of two signatures do not matter where the public operation undoes the private one. -/
theorem Rsa.PrivateKey.IsUndone.sign?_eq {k : Rsa.PrivateKey} (h : k.IsUndone) (mask mask' : Nat)
    (message : Bytes) :
    Rsa.Pkcs1v15.sign? k mask message = Rsa.Pkcs1v15.sign? k mask' message := by
  cases hpad : Rsa.Pkcs1v15.pad? k.size message with
  | none => simp [Rsa.Pkcs1v15.sign?, hpad]
  | some padded =>
    -- a number as large as the modulus fails the check, whatever the root.
    -- a number as large as the modulus fails the check, whatever the root.
    have hchecked : k.checked? (toNat padded) (k.powerMasked mask (toNat padded))
        = k.checked? (toNat padded) (k.powerMasked mask' (toNat padded)) := by
      by_cases hlt : toNat padded < k.n
      · rw [h.powerMasked_eq mask hlt, h.powerMasked_eq mask' hlt]
      · simp [Rsa.PrivateKey.checked?, hlt]
    simp only [Rsa.Pkcs1v15.sign?, hpad, Option.bind_eq_bind, Option.bind_some, hchecked]

/-- An RSA key with a document whose factors are prime has two different factors. -/
theorem Rsa.PrivateKey.isUndone_of_inverse {k : Rsa.PrivateKey} (hinv : ∃ x, k.q * x % k.p = 1)
    (hp : k.p.Prime) (hq : k.q.Prime) : k.IsUndone := by
  refine k.isUndone_of_prime hp hq fun heq => ?_
  obtain ⟨x, hx⟩ := hinv
  rw [← heq, Nat.mul_mod_right] at hx
  exact absurd hx (by decide)

namespace Key

/-- The signatures under the scheme do not depend on the random values that are drawn. -/
def SignsAlike (scheme : Scheme) (key : Key) : Prop :=
  ∀ (draw draw' : Draw) (message : Bytes),
    key.sign scheme draw message = key.sign scheme draw' message

/-- Only the primitive of the context uses the random values; errors come before it. -/
theorem signsAlike_of_signature?_eq {scheme : Scheme}
    (h : ∀ k context, SigningContext.ofScheme scheme k = .ok context → ∀ draw draw' message,
      context.signature? draw message = context.signature? draw' message) (key : Key) :
    key.SignsAlike scheme := by
  intro draw draw' message
  cases key with
  | ofPublic k => rw [sign_of_not_isPrivate rfl, sign_of_not_isPrivate rfl]
  | ofPrivate k =>
    -- only a context draws, and a scheme of another algorithm has none.
    by_cases halgorithm : scheme.algorithm = k.algorithm
    · obtain ⟨context, hcontext⟩ := SigningContext.exists_ofScheme halgorithm
      rw [SigningContext.sign_eq_primitive hcontext, SigningContext.sign_eq_primitive hcontext,
        h k context hcontext draw draw']
    · have hrequire : (ofPrivate k).require (some scheme.algorithm) true
          = .error (.typeMismatch scheme.algorithm k.algorithm) := require_of_ne halgorithm true
      rw [sign_of_require_eq_error hrequire, sign_of_require_eq_error hrequire]

/-- Ed25519 signatures do not depend on random values. -/
theorem signsAlike_ed25519 (key : Key) : key.SignsAlike .ed25519 := by
  refine signsAlike_of_signature?_eq (fun k context hcontext draw draw' message => ?_) key
  cases k <;> cases hcontext
  rfl

/-- ECDSA signatures do not depend on random values, since the nonce is derived. -/
theorem signsAlike_ecdsaP256Sha256 (key : Key) : key.SignsAlike .ecdsaP256Sha256 := by
  refine signsAlike_of_signature?_eq (fun k context hcontext draw draw' message => ?_) key
  cases k <;> cases hcontext
  rfl

/-- RSA signatures without a salt do not depend on the mask if the exponents undo each other. -/
theorem signsAlike_rsaPkcs1Sha256 {k : Rsa.PrivateKey} (h : k.IsUndone) :
    (ofPrivate (.rsa k)).SignsAlike .rsaPkcs1Sha256 := by
  intro draw draw' message
  rw [sign_rsaPkcs1Sha256, sign_rsaPkcs1Sha256, h.sign?_eq draw.mask draw'.mask]

/-! ### Texts of private keys -/

/-- What a key that was written and read again has in common with the key it comes from. -/
structure IsPrivateCopy (key : PrivateKey) (text : String) (copy : Key) : Prop where
  isPrivate : copy.isPrivate = true
  algorithm : copy.algorithm = key.algorithm
  /-- All the numbers of the key are the same. -/
  eq_ofPrivate : copy = .ofPrivate key
  samePublic : samePublic (.ofPrivate key) copy = true
  /-- With the same random values the keys sign alike under every scheme. -/
  sign_eq : ∀ scheme draw message,
    copy.sign scheme draw message = (ofPrivate key).sign scheme draw message
  sign_ed25519 : ∀ draw draw' message,
    copy.sign .ed25519 draw message = (ofPrivate key).sign .ed25519 draw' message
  sign_ecdsaP256Sha256 : ∀ draw draw' message,
    copy.sign .ecdsaP256Sha256 draw message = (ofPrivate key).sign .ecdsaP256Sha256 draw' message
  /-- The random values do not matter where the public operation undoes the private one. -/
  sign_of_isUndone : ∀ k, key = .rsa k → k.IsUndone → ∀ draw draw' message,
    copy.sign .rsaPkcs1Sha256 draw message = (ofPrivate key).sign .rsaPkcs1Sha256 draw' message
  /-- It does so for prime factors. -/
  sign_of_prime : ∀ k, key = .rsa k → k.p.Prime → k.q.Prime → ∀ draw draw' message,
    copy.sign .rsaPkcs1Sha256 draw message = (ofPrivate key).sign .rsaPkcs1Sha256 draw' message
  privatePem_eq : copy.privatePem = .ok text

/-- The text of a private key is that of its document, which is within the limit. -/
theorem privatePem_eq_ok_iff {key : PrivateKey} {text : String} :
    (ofPrivate key).privatePem = .ok text ↔ ∃ info, key.toPkcs8? = some info ∧
      info.toElement.encode.length ≤ maxLength ∧
      text = armour .privateKey info.toElement.encode := by
  cases hinfo : key.toPkcs8? with
  | none => simp [privatePem, hinfo]
  | some info =>
    by_cases hlen : info.toElement.encode.length ≤ maxLength
    · simp [privatePem, hinfo, hlen, eq_comm]
    · simp [privatePem, hinfo, hlen]

/-- A private key that is written has a public half that can be written. -/
theorem length_toSpkiDer_le_of_privatePem {key : PrivateKey} {text : String}
    (h : (ofPrivate key).privatePem = .ok text) : key.publicKey.toSpkiDer.length ≤ maxLength := by
  obtain ⟨info, hinfo, hlen, -⟩ := privatePem_eq_ok_iff.1 h
  cases key with
  | rsa k =>
    simp only [PrivateKey.toPkcs8?, Option.bind_eq_bind, Option.bind_eq_some_iff,
      Option.some.injEq] at hinfo
    obtain ⟨qInv, -, rfl⟩ := hinfo
    exact PrivateKey.length_toSpkiDer_le_of_numbers rfl rfl rfl rfl
      ((PrivateKey.length_key_le _).trans hlen)
  | _ => exact PrivateKey.length_toSpkiDer_le_of_ne_rsa nofun

/-- A key is a copy of itself. -/
theorem isPrivateCopy_self {key : PrivateKey} {text : String} (hdoc : key.HasDocument)
    (h : (ofPrivate key).privatePem = .ok text) : IsPrivateCopy key text (.ofPrivate key) where
  isPrivate := rfl
  algorithm := rfl
  eq_ofPrivate := rfl
  samePublic := samePublic_eq_true_iff.2
    ⟨_, PublicKey.spkiDer?_of_length_le (length_toSpkiDer_le_of_privatePem h),
      PublicKey.spkiDer?_of_length_le (length_toSpkiDer_le_of_privatePem h)⟩
  sign_eq _ _ _ := rfl
  sign_ed25519 := signsAlike_ed25519 _
  sign_ecdsaP256Sha256 := signsAlike_ecdsaP256Sha256 _
  sign_of_isUndone := by
    rintro k rfl hundone
    exact signsAlike_rsaPkcs1Sha256 hundone
  sign_of_prime := by
    rintro k rfl hp hq
    exact signsAlike_rsaPkcs1Sha256 (Rsa.PrivateKey.isUndone_of_inverse (hdoc k rfl) hp hq)
  privatePem_eq := h

/-- The text of a private key is read as this key. -/
theorem importPrivate_of_privatePem {key : PrivateKey} {text : String}
    (h : (ofPrivate key).privatePem = .ok text) : importPrivate text = .ok (.ofPrivate key) := by
  obtain ⟨info, hinfo, hlen, rfl⟩ := privatePem_eq_ok_iff.1 h
  have hread : PrivateKey.ofDocument? .privateKey info.toElement.encode = some key :=
    PrivateKey.ofPkcs8?_encode hinfo hlen
  rw [importPrivate_armour .privateKey info.toElement.encode_ne_nil, hread]
  rfl

/-- A key with a document is written, and read as itself. -/
theorem exists_privatePem {key : PrivateKey} (hlen : key.FitsDer) (hdoc : key.HasDocument) :
    ∃ text, (ofPrivate key).privatePem = .ok text ∧
      importPrivate text = .ok (.ofPrivate key) := by
  obtain ⟨info, hinfo⟩ : ∃ info, key.toPkcs8? = some info := by
    rw [← Option.ne_none_iff_exists', ne_eq, key.toPkcs8?_eq_none_iff, not_not]
    exact hdoc
  have htext := privatePem_eq_ok_iff.2 ⟨info, hinfo, hlen info hinfo, rfl⟩
  exact ⟨_, htext, importPrivate_of_privatePem htext⟩

/-- The only keys that are not written are RSA keys whose second factor has no inverse modulo the
first. Any other key comes back from its text with all its numbers, and its text is the only one it
is written as. -/
theorem privatePem_roundTrip (key : PrivateKey) (hlen : key.FitsDer) :
    ((ofPrivate key).privatePem = .error .encodeFailure ↔
      ∃ k, key = .rsa k ∧ ¬ ∃ x, k.q * x % k.p = 1) ∧
    ((¬ ∃ k, key = .rsa k ∧ ¬ ∃ x, k.q * x % k.p = 1) →
      ∃ text copy, (ofPrivate key).privatePem = .ok text ∧ importPrivate text = .ok copy ∧
        IsPrivateCopy key text copy) := by
  -- a key has no document exactly if the coefficient of the factors does not exist.
  have hdoc : key.HasDocument ↔ ¬ ∃ k, key = .rsa k ∧ ¬ ∃ x, k.q * x % k.p = 1 := by
    constructor
    · rintro h ⟨k, rfl, hk⟩
      exact hk (h k rfl)
    · intro h k hk
      by_contra hx
      exact h ⟨k, hk, hx⟩
  constructor
  · by_cases h : key.HasDocument
    · obtain ⟨text, htext, -⟩ := exists_privatePem hlen h
      refine iff_of_false ?_ (hdoc.1 h)
      simp [htext]
    · have hnone := key.toPkcs8?_eq_none_iff.2 h
      refine iff_of_true ?_ (not_not.1 (mt hdoc.2 h))
      simp only [privatePem, hnone]
  · intro h
    obtain ⟨text, htext, hread⟩ := exists_privatePem hlen (hdoc.2 h)
    exact ⟨text, _, htext, hread, isPrivateCopy_self (hdoc.2 h) htext⟩

/-- A seed of zeros is written and read again. -/
theorem privatePem_roundTrip_zero :
    PrivateKey.FitsDer (.ed25519 ⟨List.replicate 32 0, rfl⟩) ∧
      ∃ text copy, (ofPrivate (.ed25519 ⟨List.replicate 32 0, rfl⟩)).privatePem = .ok text ∧
        importPrivate text = .ok copy ∧
        IsPrivateCopy (.ed25519 ⟨List.replicate 32 0, rfl⟩) text copy := by
  have hlen : PrivateKey.FitsDer (.ed25519 ⟨List.replicate 32 0, rfl⟩) :=
    PrivateKey.fitsDer_of_ne_rsa (by decide)
  refine ⟨hlen, (privatePem_roundTrip _ hlen).2 ?_⟩
  rintro ⟨k, hk, -⟩
  cases hk

/-! ### A key with several signatures -/

/-- A key that is read although its first factor is not prime. That factor is the product of `a + 1`
and `a * e + 1`, so a number has as many roots modulo it as the exponent says, or none. -/
def looseKey : Rsa.PrivateKey where
  n := 0xa4995e7d3cd0ee6f4f1d2caea217ea2df5a671e131c9ce24d0e7090407d04001
    * 0xeb93df81f8eee1b357c8831eaab47502c2507e955aaf2fb50849333850cfe05b
  e := 1048583
  d := 0x3ff167a352953e57b2ec34708ab526ae5165c87ed01bc549141bb73b52a7f1e * 16 ^ 64
    + 0xd330771d255104b45b062178a6f177be6abd3490e78bcdfb55dbdd7232492db7
  p := 0xa4995e7d3cd0ee6f4f1d2caea217ea2df5a671e131c9ce24d0e7090407d04001
  q := 0xeb93df81f8eee1b357c8831eaab47502c2507e955aaf2fb50849333850cfe05b
  n_odd := by decide
  e_odd := by decide
  three_le_e := by decide
  e_le := by decide
  e_lt_n := by decide
  one_lt_p := by decide
  one_lt_q := by decide
  p_mul_q := by decide
  inverse_p := by decide
  inverse_q := by decide

/-- The two masks lead to different roots of the padded message. -/
theorem exists_looseKey_sign?_ne :
    ∃ s t, Rsa.Pkcs1v15.sign? looseKey 1 [0, 3, 0x4c, 0x0b] = some s ∧
      Rsa.Pkcs1v15.sign? looseKey 2 [0, 3, 0x4c, 0x0b] = some t ∧ s ≠ t := by
  have hsign : (Rsa.Pkcs1v15.sign? looseKey 1 [0, 3, 0x4c, 0x0b]).isSome ∧
      (Rsa.Pkcs1v15.sign? looseKey 2 [0, 3, 0x4c, 0x0b]).isSome ∧
      Rsa.Pkcs1v15.sign? looseKey 1 [0, 3, 0x4c, 0x0b]
        ≠ Rsa.Pkcs1v15.sign? looseKey 2 [0, 3, 0x4c, 0x0b] := by decide +kernel
  obtain ⟨hs, ht, hne⟩ := hsign
  obtain ⟨s, hs⟩ := Option.isSome_iff_exists.1 hs
  obtain ⟨t, ht⟩ := Option.isSome_iff_exists.1 ht
  exact ⟨s, t, hs, ht, fun heq => hne (by rw [hs, ht, heq])⟩

/-- A draw of random values that differs from others in its mask alone. -/
def drawOfMask (mask : ℕ) : Draw where
  seed := ⟨List.replicate 32 0, rfl⟩
  salt := ⟨List.replicate 32 0, rfl⟩
  mask := mask

/-- The key and the copy of it that comes back from its text sign one message differently. -/
theorem looseKey_sign_ne :
    ∃ text s t, (ofPrivate (.rsa looseKey)).privatePem = .ok text ∧
      importPrivate text = .ok (.ofPrivate (.rsa looseKey)) ∧
      (ofPrivate (.rsa looseKey)).sign .rsaPkcs1Sha256 (drawOfMask 1) [0, 3, 0x4c, 0x0b] = .ok s ∧
      (ofPrivate (.rsa looseKey)).sign .rsaPkcs1Sha256 (drawOfMask 2) [0, 3, 0x4c, 0x0b] = .ok t ∧
      s ≠ t := by
  -- one factor is composite, but the two are coprime.
  have hdoc : PrivateKey.HasDocument (.rsa looseKey) := by
    intro k hk
    obtain rfl := PrivateKey.rsa.inj hk
    exact ⟨54114927062400420838424895841967868452646070798316084173115219978764815628942, by decide⟩
  have hlen : PrivateKey.FitsDer (.rsa looseKey) := by
    intro info hinfo
    have hall : (PrivateKey.rsa looseKey).toPkcs8?.all
        (fun info => info.toElement.encode.length ≤ maxLength) = true := by decide +kernel
    rw [hinfo, Option.all_some, decide_eq_true_iff] at hall
    exact hall
  obtain ⟨text, htext, hread⟩ := exists_privatePem hlen hdoc
  obtain ⟨s, t, hs, ht, hne⟩ := exists_looseKey_sign?_ne
  refine ⟨text, s, t, htext, hread, ?_, ?_, hne⟩
  · rw [sign_rsaPkcs1Sha256, drawOfMask, hs, primitive]
  · rw [sign_rsaPkcs1Sha256, drawOfMask, ht, primitive]

end Key

end Keyring
