import Keyring.Curve.P256
import Keyring.EcdsaSignature
import Keyring.Hash.Hmac
/-!
# ECDSA signatures on P-256 with SHA-256

Nonces are derived from the key and the message, so signing needs no randomness. Signatures are DER
documents on the outside and pairs of numbers inside.
-/

namespace Keyring.Ecdsa

open P256

/-- A private key: a scalar that is neither zero nor a multiple of the order. -/
structure SecretKey where
  /-- The factor of the generator that gives the public key. -/
  scalar : Nat
  scalar_pos : 0 < scalar
  scalar_lt : scalar < order
deriving DecidableEq, Repr

/-- The private key with the given scalar. -/
def SecretKey.ofNat? (d : Nat) : Option SecretKey :=
  if h : 0 < d ∧ d < order then some ⟨d, h.1, h.2⟩ else none

/-- The scalar as bytes. -/
def SecretKey.toBytes (key : SecretKey) : Bytes :=
  Bytes.ofNat byteLength key.scalar

/-- The public key: the multiple of the generator. -/
def SecretKey.publicKey (key : SecretKey) : Point :=
  curve.smul key.scalar generator

/-- The digest of a message as a scalar. -/
def digestScalar (message : Bytes) : Nat :=
  Bytes.toNat (Hash.sha256 message) % order

/-! ### Nonces -/

/-- The state of the generator of nonces: a key and a value that are hashed in turn. -/
structure NonceState where
  /-- The key of the hash. -/
  key : Bytes
  /-- The value hashed last. -/
  value : Bytes

/-- The state after some data have been mixed in. -/
def NonceState.absorb (s : NonceState) (data : Bytes) : NonceState :=
  let key := Hash.hmacSha256 s.key (s.value ++ data)
  ⟨key, Hash.hmacSha256 key s.value⟩

/-- The state for a private key and the digest of a message. -/
def NonceState.start (key : SecretKey) (z : Nat) : NonceState :=
  let input := key.toBytes ++ Bytes.ofNat byteLength z
  let blank : NonceState := ⟨List.replicate 32 0, List.replicate 32 1⟩
  (blank.absorb (0 :: input)).absorb (1 :: input)

/-- The first of the next values that is a scalar other than zero, among so many. -/
def NonceState.next? : Nat → NonceState → Option Nat
  | 0, _ => none
  | tries + 1, s =>
    let value := Hash.hmacSha256 s.key s.value
    let k := Bytes.toNat value
    if 0 < k ∧ k < order then some k
    else NonceState.next? tries (NonceState.absorb ⟨s.key, value⟩ [0])

/-- How many values are tried. The derivation has no such bound and goes on until a value fits; the
bound makes it a function by recursion. A value does not fit with a probability of about `2 ^ -32`.
Running out of tries stands for all that comes after the last of them: the derivation would go on
there, and here no signature is answered. -/
def nonceTries : Nat := 256

/-! ### Signing and verifying -/

/-- The first coordinate of a point as a scalar, and zero at infinity. -/
def pointScalar : Point → Nat
  | .infinity => 0
  | .affine x _ => x.val % order

/-- The two numbers of the signature of a digest with the nonce `k`. -/
def signNumbers? (key : SecretKey) (z k : Nat) : Option (Nat × Nat) := do
  let r := pointScalar (curve.smul k generator)
  let s := (← Arith.inverse? k order) * (z + r * key.scalar) % order
  if r = 0 ∨ s = 0 then none else some (r, s)

/-- The encoded signature of a message. The second number is left as it is computed, whichever half
of the scalars it is in. -/
def sign? (key : SecretKey) (message : Bytes) : Option Bytes := do
  let z := digestScalar message
  let k ← NonceState.next? nonceTries (NonceState.start key z)
  let (r, s) ← signNumbers? key z k
  some (EcdsaSignature.toDer ⟨Bytes.ofNatMin r, Bytes.ofNatMin s⟩)

/-- Whether two numbers are a signature of a message: both are scalars other than zero, and the
point that they determine together with the digest has the first one for its first coordinate. -/
def verifyNumbers (key : Point) (message : Bytes) (r s : Nat) : Bool :=
  0 < r && r < order && 0 < s && s < order &&
    match Arith.inverse? s order with
    | none => false
    | some w =>
      let u := digestScalar message * w % order
      let v := r * w % order
      pointScalar (curve.add (curve.smul u generator) (curve.smul v key)) = r

/-- Whether an encoded signature is valid. Its integers have any length, and scalars one; an integer
that is longer than a scalar makes the signature invalid and is no error. -/
def verify (key : Point) (message signature : Bytes) : Except Error Bool := do
  let sig ← EcdsaSignature.parse signature
  match Bytes.padLeft? byteLength sig.r, Bytes.padLeft? byteLength sig.s with
  | some r, some s => return verifyNumbers key message (Bytes.toNat r) (Bytes.toNat s)
  | _, _ => return false

end Keyring.Ecdsa
