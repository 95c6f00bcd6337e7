import Keyring.Document.Pkcs1
import Keyring.Document.Pkcs8
import Keyring.Document.Sec1
import Keyring.Document.Spki
import Keyring.Key.Basic
/-!
# Keys as documents

Private keys are read from three kinds of documents and written as one of them; public keys have one
kind. Reading checks what a document says twice: a public key that stands beside a private one has
to belong to it.
-/

namespace Keyring

open Document Der

namespace PrivateKey

/-- The RSA key of a document that holds its numbers. The exponents and the inverse that speed up
the private operation are not looked at, since they follow from the rest. -/
def ofPkcs1? (der : Bytes) : Option PrivateKey := do
  let k ← RsaPrivateNumbers.ofDer? der
  (Rsa.PrivateKey.ofNumbers? k.n k.e k.d k.p k.q).map .rsa

/-- The fewest bytes of a scalar in a document. -/
def minScalarLength : Nat := 24

/-- The key on P-256 of a document that holds its scalar. Missing leading bytes are zeros, and the
public point has to be written with both coordinates or compressed. -/
def ofSec1? (der : Bytes) : Option PrivateKey := do
  let info ← EcPrivateKey.ofDer? der
  let key ← Ecdsa.SecretKey.ofNat? (Bytes.toNat info.key)
  let fits := fun b => b = P256.uncompressed key.publicKey ∨ b = P256.compressed key.publicKey
  if minScalarLength ≤ info.key.length ∧ info.key.length ≤ P256.byteLength
      ∧ info.publicKey.all fits then
    some (.ecdsaP256 key)
  else none

/-- The Ed25519 key of a document, whose seed is wrapped once more. -/
def ofSeedDocument? (info : PrivateKeyInfo) : Option PrivateKey := do
  let inner ← Element.ofBytes? info.key
  let seed ← Bytes.sized? 32 inner.body
  if inner.tag = .octetString ∧ info.publicKey.all (· = (Ed25519.publicKey seed).val) then
    some (.ed25519 seed)
  else none

/-- The key of a document that names its algorithm. -/
def ofPkcs8? (der : Bytes) : Option PrivateKey := do
  let info ← PrivateKeyInfo.ofDer? der
  match info.algorithm with
  | .ed25519 => ofSeedDocument? info
  | .rsa => ofPkcs1? info.key
  | .ecdsaP256 => ofSec1? info.key

/-- The document for a private key. An RSA key whose second factor has no inverse modulo the first
has none. -/
def toPkcs8? : PrivateKey → Option PrivateKeyInfo
  | .ed25519 seed =>
    some ⟨.ed25519, (Element.octets seed.val).encode, some (Ed25519.publicKey seed).val⟩
  | .rsa key => do
    let qInv ← key.qInv?
    let numbers : RsaPrivateNumbers :=
      ⟨key.n, key.e, key.d, key.p, key.q, key.dP, key.dQ, qInv⟩
    some ⟨.rsa, numbers.toElement.encode, none⟩
  | .ecdsaP256 key =>
    let info : EcPrivateKey := ⟨key.toBytes, some (P256.uncompressed key.publicKey)⟩
    some ⟨.ecdsaP256, info.toElement.encode, none⟩

end PrivateKey

namespace PublicKey

/-- The most bits of the modulus of a public RSA key in a document. -/
def maxModulusBits : Nat := 4096

/-- The RSA key of a document that holds its numbers. -/
def ofPkcs1? (der : Bytes) : Option PublicKey := do
  let k ← RsaPublicNumbers.ofDer? der
  let key ← Rsa.PublicKey.ofNumbers? k.n k.e
  if key.bits ≤ maxModulusBits then some (.rsa key) else none

/-- The key of a document that names its algorithm. -/
def ofSpki? (der : Bytes) : Option PublicKey := do
  let info ← SubjectPublicKeyInfo.ofDer? der
  match info.algorithm with
  | .ed25519 => (Ed25519.publicKey? info.key).map .ed25519
  | .rsa => ofPkcs1? info.key
  | .ecdsaP256 => (P256.point? info.key).map .ecdsaP256

/-- The document for a public key. -/
def toSpki : PublicKey → SubjectPublicKeyInfo
  | .ed25519 key => ⟨.ed25519, key.val⟩
  | .rsa key =>
    let numbers : RsaPublicNumbers := ⟨key.n, key.e⟩
    ⟨.rsa, numbers.toElement.encode⟩
  | .ecdsaP256 point => ⟨.ecdsaP256, P256.uncompressed point⟩

/-- The document for a public key, as bytes. -/
def toSpkiDer (key : PublicKey) : Bytes :=
  key.toSpki.toElement.encode

/-- The document for a public key, unless it is too long to be one. -/
def spkiDer? (key : PublicKey) : Option Bytes :=
  let der := key.toSpkiDer
  if der.length ≤ Der.maxLength then some der else none

end PublicKey

/-- Whether two keys have the same public half: whether both have a document for it, and the same
one. The private halves do not count. -/
def Key.samePublic (a b : Key) : Bool :=
  match a.publicKey.spkiDer?, b.publicKey.spkiDer? with
  | some ours, some theirs => ours = theirs
  | _, _ => false

end Keyring
