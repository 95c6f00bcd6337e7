import Keyring.Hash.Sha2
import Keyring.Rsa.Key
/-!
# RSA signatures with a random salt

The digest of the message is hashed with a salt, and the hash masks the salt. Whoever has the
encoded message takes the mask off, finds the salt behind zeros and a one, and compares the hash.
-/

namespace Keyring.Rsa.Pss

/-- The number of bytes of a digest. -/
def hashLength : Nat := 32

/-- The number of bytes of the salt of a new signature. -/
def saltLength : Nat := 32

/-- A mask of `n` bytes that is determined by a seed: hashes of the seed and a counter. -/
def mask (seed : Bytes) (n : Nat) : Bytes :=
  ((List.range ((n + hashLength - 1) / hashLength)).flatMap
    fun i => Hash.sha256 (seed ++ Bytes.ofNat 4 i)).take n

/-- The number of bytes of an encoded message with the given number of bits. -/
def encodedLength (bits : Nat) : Nat := (bits + 7) / 8

/-- The hash of a digest and a salt. -/
def saltedHash (digest salt : Bytes) : Bytes :=
  Hash.sha256 (List.replicate 8 0 ++ digest ++ salt)

/-- The bytes with those bits of the first one cleared that go beyond the given number of bits. -/
def clearExcess (bits : Nat) : Bytes → Bytes
  | [] => []
  | b :: rest => (b &&& 0xff >>> UInt8.ofNat (8 * encodedLength bits - bits)) :: rest

/-- The encoded message of the given number of bits: the masked salt behind zeros and a one, the
hash, and a fixed last byte. -/
def encode? (bits : Nat) (message salt : Bytes) : Option Bytes :=
  let n := encodedLength bits
  if n < hashLength + salt.length + 2 then none
  else
    let hash := saltedHash (Hash.sha256 message) salt
    let block := List.replicate (n - salt.length - hashLength - 2) 0 ++ 1 :: salt
    some (clearExcess bits (Bytes.xor block (mask hash block.length)) ++ hash ++ [0xbc])

/-- The hash in an encoded message: it stands in front of the last byte. -/
def hashOf (encoded : Bytes) : Bytes :=
  (encoded.drop (encoded.length - hashLength - 1)).take hashLength

/-- The masked block in an encoded message: all that stands in front of the hash. -/
def maskedOf (encoded : Bytes) : Bytes :=
  encoded.take (encoded.length - hashLength - 1)

/-- The block of an encoded message without its mask, with the excess bits cleared once more. -/
def blockOf (bits : Nat) (encoded : Bytes) : Bytes :=
  let masked := maskedOf encoded
  clearExcess bits (Bytes.xor masked (mask (hashOf encoded) masked.length))

/-- Whether an encoded message is valid for a salt of `k` bytes: there is room for it, the last byte
is the fixed one, the excess bits are clear, and behind the mask stand zeros, a one, and a salt with
which the digest has the hash. -/
def isEncoding (bits : Nat) (message encoded : Bytes) (k : Nat) : Bool :=
  let zeros := encoded.length - k - hashLength - 2
  let block := blockOf bits encoded
  hashLength + k + 2 ≤ encoded.length &&
    encoded.getLast? = some 0xbc &&
    clearExcess bits (maskedOf encoded) = maskedOf encoded &&
    (block.take zeros).all (· == 0) &&
    block[zeros]? = some 1 &&
    saltedHash (Hash.sha256 message) (block.drop (zeros + 1)) = hashOf encoded

/-- The number of bits of an encoded message under a key: it stays below the modulus. -/
def encodedBits (key : PublicKey) : Nat := key.bits - 1

/-- The length of the longest salt that fits under a key. -/
def maxSaltLength (key : PublicKey) : Nat :=
  encodedLength (encodedBits key) - hashLength - 2

/-- The signature of a message with the given salt. -/
def sign? (key : PrivateKey) (message salt : Bytes) : Option Bytes := do
  let x := Bytes.toNat (← encode? (encodedBits key.toPublicKey) message salt)
  let y ← key.checked? x (key.power x)
  some (Bytes.ofNat key.size y)

/-- Whether a signature is valid. Salts as long as the digest are accepted, and the longest ones. -/
def verify (key : PublicKey) (message signature : Bytes) : Bool :=
  let bits := encodedBits key
  let encoded := Bytes.ofNat (encodedLength bits) (key.apply (Bytes.toNat signature))
  let longest := maxSaltLength key
  signature.length = key.size &&
    (isEncoding bits message encoded saltLength ||
      (saltLength < longest && isEncoding bits message encoded longest))

end Keyring.Rsa.Pss
