import Keyring.Bytes
/-!
# Cipher blocks

A block of 128 bits, and its reading and writing as sixteen bytes. A block cipher under a key is any
function on blocks; nothing built on one here needs its inverse.
-/

namespace Keyring.Cipher

/-- A block of sixteen bytes; the first byte holds the most significant bits. -/
abbrev Block := BitVec 128

/-- The number of bytes of a block. -/
def blockLength : Nat := 16

/-- The block that starts with the given bytes and goes on with zeros. -/
def Block.ofBytes (b : Bytes) : Block :=
  BitVec.ofNat 128 (Bytes.toNat b <<< (8 * (blockLength - b.length)))

/-- The sixteen bytes of a block. -/
def Block.toBytes (x : Block) : Bytes :=
  Bytes.ofNat blockLength x.toNat

theorem Block.length_toBytes (x : Block) : x.toBytes.length = blockLength :=
  Bytes.length_ofNat _ _

end Keyring.Cipher
