import Keyring.Key.SigningContext
/-!
# Making keys, signing and verifying

The scheme fixes everything about a signature; the key only has to be of its algorithm. That is
checked before anything else, and for signing the private half next.
-/

namespace Keyring

/-- The outcome of a verification. That a signature does not fit is an outcome and no error. -/
inductive Verdict where
  | valid
  | invalid
deriving DecidableEq, Repr

namespace Verdict

/-- The verdict on a signature that passed the check or did not. -/
def ofBool (passed : Bool) : Verdict :=
  if passed then .valid else .invalid

/-- Whether the signature is valid. -/
def isValid (v : Verdict) : Bool :=
  v = .valid

/-- The name of the verdict. -/
def name : Verdict → String
  | .valid => "Valid"
  | .invalid => "Invalid"

end Verdict

namespace Key

/-- A new key, unless there is no seed for it. -/
def generate (draw : Draw) : Except Error Key :=
  if draw.seedFails then .error .cryptoFailure else .ok (.ofPrivate (.ed25519 draw.seed))

/-- The signature of a message under a scheme, by a key that has been checked. The room for it is
made as long as the longest signature, and cut to what was written. -/
def signChecked (scheme : Scheme) (key : Key) (draw : Draw) (message : Bytes) :
    Except Error Bytes :=
  match key with
  | .ofPublic _ => .error .capabilityMismatch
  | .ofPrivate k => do
    let context ← SigningContext.ofScheme scheme k
    let room := List.replicate context.signatureLength 0
    let (filled, written) ← context.signInto draw message room
    return filled.take written

/-- The signature of a message under a scheme. -/
def sign (scheme : Scheme) (key : Key) (draw : Draw) (message : Bytes) : Except Error Bytes := do
  key.require (some scheme.algorithm) true
  key.signChecked scheme draw message

/-- The verdict on a signature of a message under a scheme, with a key that has been checked, so
that one of the first four cases applies. Only a signature that is a document can fail to be
read. -/
def verifyChecked (scheme : Scheme) (key : Key) (message signature : Bytes) :
    Except Error Verdict :=
  match scheme, key.publicKey with
  | .ed25519, .ed25519 k => return .ofBool (Ed25519.verify k message signature)
  | .rsaPkcs1Sha256, .rsa k => return .ofBool (Rsa.Pkcs1v15.verify k message signature)
  | .rsaPssSha256, .rsa k => return .ofBool (Rsa.Pss.verify k message signature)
  | .ecdsaP256Sha256, .ecdsaP256 P => return .ofBool (← Ecdsa.verify P message signature)
  | _, _ => .error .cryptoFailure

/-- The verdict on a signature of a message under a scheme. -/
def verify (scheme : Scheme) (key : Key) (message signature : Bytes) : Except Error Verdict := do
  key.require (some scheme.algorithm) false
  key.verifyChecked scheme message signature

end Key

end Keyring
