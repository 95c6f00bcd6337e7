import Keyring.Ecdsa
import Keyring.Ed25519
import Keyring.Error
import Keyring.Rsa.Key
/-!
# Keys

A key is private or public, and of one of three algorithms. Both facts are read off the key itself,
so neither can disagree with it.
-/

namespace Keyring

/-- A private key of any algorithm. -/
inductive PrivateKey where
  | ed25519 (seed : Ed25519.Seed)
  | rsa (key : Rsa.PrivateKey)
  | ecdsaP256 (key : Ecdsa.SecretKey)
deriving DecidableEq

/-- A public key of any algorithm. -/
inductive PublicKey where
  | ed25519 (key : Ed25519.PublicKey)
  | rsa (key : Rsa.PublicKey)
  | ecdsaP256 (point : P256.Point)
deriving DecidableEq

/-- The algorithm of a private key. -/
def PrivateKey.algorithm : PrivateKey → Algorithm
  | .ed25519 _ => .ed25519
  | .rsa _ => .rsa
  | .ecdsaP256 _ => .ecdsaP256

/-- The algorithm of a public key. -/
def PublicKey.algorithm : PublicKey → Algorithm
  | .ed25519 _ => .ed25519
  | .rsa _ => .rsa
  | .ecdsaP256 _ => .ecdsaP256

/-- The public key that belongs to a private key. -/
def PrivateKey.publicKey : PrivateKey → PublicKey
  | .ed25519 seed => .ed25519 (Ed25519.publicKey seed)
  | .rsa key => .rsa key.toPublicKey
  | .ecdsaP256 key => .ecdsaP256 key.publicKey

/-- The public key that belongs to a private key is of the same algorithm. -/
@[simp] theorem PrivateKey.algorithm_publicKey (key : PrivateKey) :
    key.publicKey.algorithm = key.algorithm := by
  cases key <;> rfl

/-- A key, with its private half or without. -/
inductive Key where
  | ofPrivate (key : PrivateKey)
  | ofPublic (key : PublicKey)
deriving DecidableEq

namespace Key

/-- The algorithm of a key. -/
def algorithm : Key → Algorithm
  | .ofPrivate key => key.algorithm
  | .ofPublic key => key.algorithm

/-- Whether the private half is there. -/
def isPrivate : Key → Bool
  | .ofPrivate _ => true
  | .ofPublic _ => false

/-- The public half. -/
def publicKey : Key → PublicKey
  | .ofPrivate key => key.publicKey
  | .ofPublic key => key

/-- The key without its private half. -/
def toPublic (key : Key) : Key :=
  .ofPublic key.publicKey

@[simp] theorem algorithm_publicKey (key : Key) : key.publicKey.algorithm = key.algorithm := by
  cases key with
  | ofPrivate key => exact key.algorithm_publicKey
  | ofPublic key => rfl

/-- Fails if an algorithm is expected and the actual one is another. -/
def requireAlgorithm (actual : Algorithm) (expected : Option Algorithm) : Except Error Unit :=
  match expected with
  | none => .ok ()
  | some a => if a = actual then .ok () else .error (.typeMismatch a actual)

/-- Fails if the private half is needed and is not there. -/
def requirePrivate (key : Key) (needed : Bool) : Except Error Unit :=
  if needed && !key.isPrivate then .error .capabilityMismatch else .ok ()

/-- Checks a key against what an operation needs: first the algorithm, then the private half. -/
def require (key : Key) (expected : Option Algorithm) (needsPrivate : Bool) :
    Except Error Unit := do
  requireAlgorithm key.algorithm expected
  key.requirePrivate needsPrivate

/-- What may be shown of a key. -/
structure Description where
  /-- The algorithm of the key. -/
  algorithm : Algorithm
  /-- Whether the private half is there. -/
  isPrivate : Bool
deriving DecidableEq, Repr

/-- What may be shown of a key. -/
def describe (key : Key) : Description :=
  ⟨key.algorithm, key.isPrivate⟩

/-- The description for debugging. The key itself does not appear in it. -/
def Description.debug (d : Description) : String :=
  "KeyHandle \x7b algorithm: " ++ d.algorithm.debugName ++ ", private: " ++ toString d.isPrivate
    ++ ", key: \"[REDACTED]\" \x7d"

end Key

end Keyring
