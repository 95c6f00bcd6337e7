import Keyring.Key.Basic
import Keyring.Rsa.Pkcs1v15
import Keyring.Rsa.Pss
import Keyring.Scheme
/-!
# Signing contexts

A private key together with what a scheme does with it. A context tells the length of its longest
signature, so that the caller can make room for it, and signs into the room it is given.
-/

namespace Keyring

/-- The random values that one operation may use. Their source may fail when it is asked for a seed,
which is an error of the operation; when it fails during a signature, the program stops, and so
there is nothing to say about that. -/
structure Draw where
  /-- The seed of a new key. -/
  seed : Ed25519.Seed
  /-- The salt of a signature. -/
  salt : Bytes.Sized Rsa.Pss.saltLength
  /-- The mask of an RSA private operation. -/
  mask : Nat
  /-- Whether the source fails when it is asked for a seed. -/
  seedFails : Bool := false

/-- The result of a primitive that may give none. -/
def Key.primitive (result : Option Bytes) : Except Error Bytes :=
  match result with
  | some b => .ok b
  | none => .error .cryptoFailure

/-- A private key with what a scheme does with it. -/
inductive SigningContext where
  | ed25519 (seed : Ed25519.Seed)
  | rsa (key : Rsa.PrivateKey) (padding : Padding)
  | ecdsaP256 (key : Ecdsa.SecretKey)
deriving DecidableEq

namespace SigningContext

/-- The context of a private key under a scheme. The digest and the padding of the scheme have to
belong to the algorithm of the key. -/
def ofScheme (scheme : Scheme) (key : PrivateKey) : Except Error SigningContext :=
  match key, scheme.digest, scheme.padding with
  | .ed25519 seed, .none, none => .ok (.ed25519 seed)
  | .rsa k, .sha256, some padding => .ok (.rsa k padding)
  | .ecdsaP256 k, .sha256, none => .ok (.ecdsaP256 k)
  | _, _, _ => .error .cryptoFailure

/-- The number of bytes of the longest signature. -/
def signatureLength : SigningContext → Nat
  | .ed25519 _ => Ed25519.signatureLength
  | .rsa key _ => key.size
  | .ecdsaP256 _ => EcdsaSignature.maxP256Length

/-- The signature of a message, if the primitive gives one. The salted padding depends on the random
values; the other one does so only for keys whose exponents do not undo each other. -/
def signature? (context : SigningContext) (draw : Draw) (message : Bytes) : Option Bytes :=
  match context with
  | .ed25519 seed => some (Ed25519.sign seed message)
  | .rsa key .pkcs1v15 => Rsa.Pkcs1v15.sign? key draw.mask message
  | .rsa key .pss => Rsa.Pss.sign? key message draw.salt.val
  | .ecdsaP256 key => Ecdsa.sign? key message

/-- Writes a signature to the front of the room. The answer is the room after that and the number of
bytes that were written. Nothing is written if the signature does not fit. -/
def copyOut (signature room : Bytes) : Except Error (Bytes × Nat) :=
  if signature.length ≤ room.length then
    .ok (signature ++ room.drop signature.length, signature.length)
  else .error .cryptoFailure

/-- Signs a message into the front of the room. -/
def signInto (context : SigningContext) (draw : Draw) (message room : Bytes) :
    Except Error (Bytes × Nat) := do
  let signature ← Key.primitive (context.signature? draw message)
  copyOut signature room

end SigningContext

end Keyring
