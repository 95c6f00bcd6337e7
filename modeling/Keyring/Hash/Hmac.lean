import Keyring.Hash.Sha2
/-!
# Keyed hashing

HMAC with SHA-256: the message is hashed behind one mask of the key, and the digest is hashed again
behind another.
-/

namespace Keyring.Hash

/-- The number of bytes of a block of SHA-256. -/
def blockLength : Nat := 64

/-- The key as one block: hashed if it is longer, and filled with zeros. -/
def hmacBlock (key : Bytes) : Bytes :=
  let short := if key.length ≤ blockLength then key else sha256 key
  short ++ List.replicate (blockLength - short.length) 0

/-- The authentication code of a message under a key. -/
def hmacSha256 (key message : Bytes) : Bytes :=
  let block := hmacBlock key
  sha256 (block.map (· ^^^ 0x5c) ++ sha256 (block.map (· ^^^ 0x36) ++ message))

end Keyring.Hash
