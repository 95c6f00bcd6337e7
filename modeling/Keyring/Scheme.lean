import Keyring.Algorithm
/-!
# Signature schemes

A scheme fixes the algorithm of the key, the digest and the padding, so that a signature is
described by its scheme alone.
-/

namespace Keyring

/-- The digest that a scheme applies to the message before the signature primitive sees it. -/
inductive Digest where
  | none
  | sha256
deriving DecidableEq, Repr

/-- The name of a digest. -/
def Digest.name : Digest → String
  | .none => "None"
  | .sha256 => "Sha256"

/-- The padding of an RSA signature. -/
inductive Padding where
  | pkcs1v15
  | pss
deriving DecidableEq, Repr

/-- The name of a padding. -/
def Padding.name : Padding → String
  | .pkcs1v15 => "Pkcs1v15"
  | .pss => "Pss"

/-- A signature scheme. It fixes the key algorithm, the digest and the padding, so that none of them
is left to the caller. -/
inductive Scheme where
  | ed25519
  | rsaPkcs1Sha256
  | rsaPssSha256
  | ecdsaP256Sha256
deriving DecidableEq, Repr

namespace Scheme

/-- Every scheme. -/
def all : List Scheme := [.ed25519, .rsaPkcs1Sha256, .rsaPssSha256, .ecdsaP256Sha256]

theorem mem_all (s : Scheme) : s ∈ all := by cases s <;> decide

/-- The algorithm of the keys that the scheme accepts. -/
def algorithm : Scheme → Algorithm
  | .ed25519 => .ed25519
  | .rsaPkcs1Sha256 | .rsaPssSha256 => .rsa
  | .ecdsaP256Sha256 => .ecdsaP256

/-- The digest applied to the message. -/
def digest : Scheme → Digest
  | .ed25519 => .none
  | .rsaPkcs1Sha256 | .rsaPssSha256 | .ecdsaP256Sha256 => .sha256

/-- The RSA padding, for the schemes that have one. -/
def padding : Scheme → Option Padding
  | .rsaPkcs1Sha256 => some .pkcs1v15
  | .rsaPssSha256 => some .pss
  | .ed25519 | .ecdsaP256Sha256 => none

/-- The name of the scheme, as it stands in events. -/
def name : Scheme → String
  | .ed25519 => "ed25519"
  | .rsaPkcs1Sha256 => "rsassa-pkcs1-sha256"
  | .rsaPssSha256 => "rsassa-pss-sha256"
  | .ecdsaP256Sha256 => "ecdsa-p256-sha256"

/-- The name of the scheme in descriptions for debugging. -/
def debugName : Scheme → String
  | .ed25519 => "Ed25519"
  | .rsaPkcs1Sha256 => "RsaPkcs1Sha256"
  | .rsaPssSha256 => "RsaPssSha256"
  | .ecdsaP256Sha256 => "EcdsaP256Sha256"

instance : ToString Scheme where
  toString := name

end Scheme

end Keyring
