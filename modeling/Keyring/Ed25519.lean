import Keyring.Curve.Edwards25519
import Keyring.Hash.Sha2
/-!
# Ed25519 signatures

A private key is a seed of 32 bytes, and a public key is the encoding of a point. Public keys are
kept as bytes: two encodings of one point are two keys, since the bytes enter the hash.
-/

namespace Keyring.Ed25519

open Edwards25519

/-- A private key. -/
abbrev Seed := Bytes.Sized 32

/-- A public key: 32 bytes, whether or not they encode a point. -/
abbrev PublicKey := Bytes.Sized 32

/-- The number of bytes of a signature. -/
def signatureLength : Nat := 64

/-- The scalar of a seed: the lower half of its hash, as a multiple of eight between `2 ^ 254` and
`2 ^ 255`. -/
def scalar (seed : Seed) : Nat :=
  1 <<< 254 + Bytes.toNatLE ((Hash.sha512 seed.val).take 32) % 1 <<< 254 / 8 * 8

/-- The part of a seed that makes the nonces: the upper half of its hash. -/
def nonceKey (seed : Seed) : Bytes :=
  (Hash.sha512 seed.val).drop 32

/-- The public key of a seed. -/
def publicKey (seed : Seed) : PublicKey :=
  ⟨encode (curve.smul (scalar seed) generator), by simp [encode, byteLength]⟩

/-- The public key with the given bytes, if they encode a point. -/
def publicKey? (b : Bytes) : Option PublicKey := do
  let key ← Bytes.sized? 32 b
  if (decode? b).isSome then some key else none

/-- A hash as a scalar. -/
def hashScalar (b : Bytes) : Nat :=
  Bytes.toNatLE (Hash.sha512 b) % order

/-- The scalar that ties a signature to its first half, its key and its message. -/
def challenge (first key message : Bytes) : Nat :=
  hashScalar (first ++ key ++ message)

/-- The signature of a message: the encoding of a multiple of the generator, then a scalar. -/
def sign (seed : Seed) (message : Bytes) : Bytes :=
  let r := hashScalar (nonceKey seed ++ message)
  let first := encode (curve.smul r generator)
  let k := challenge first (publicKey seed).val message
  first ++ Bytes.ofNatLE byteLength ((r + k * scalar seed) % order)

/-- Whether a signature is valid. The scalar has to be reduced, and the point computed from it has
to have the first half for its encoding, byte for byte. -/
def verify (key : PublicKey) (message signature : Bytes) : Bool :=
  let first := signature.take byteLength
  let s := Bytes.toNatLE (signature.drop byteLength)
  match decode? key.val with
  | none => false
  | some A =>
    let k := challenge first key.val message
    signature.length = signatureLength && s < order &&
      encode (curve.add (curve.smul s generator) (curve.smul k A).neg) = first

end Keyring.Ed25519
