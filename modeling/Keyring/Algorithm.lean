/-!
# Algorithms

The algorithms that an asymmetric key may belong to, and their names.
-/

namespace Keyring

/-- The algorithm an asymmetric key belongs to. -/
inductive Algorithm where
  | ed25519
  | rsa
  | ecdsaP256
deriving DecidableEq, Repr

namespace Algorithm

/-- Every algorithm. -/
def all : List Algorithm := [.ed25519, .rsa, .ecdsaP256]

theorem mem_all (a : Algorithm) : a ∈ all := by cases a <;> decide

/-- The name of the key type, as it stands in messages and events. -/
def shortName : Algorithm → String
  | .ed25519 => "ED25519"
  | .rsa => "rsaEncryption"
  | .ecdsaP256 => "id-ecPublicKey"

/-- The name of the algorithm in descriptions for debugging. -/
def debugName : Algorithm → String
  | .ed25519 => "Ed25519"
  | .rsa => "Rsa"
  | .ecdsaP256 => "EcdsaP256"

instance : ToString Algorithm where
  toString := shortName

end Algorithm

end Keyring
