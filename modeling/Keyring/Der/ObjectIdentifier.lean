import Keyring.Der.Element
/-!
# Object identifiers

The identifiers that key documents use, and the form that any identifier has: a first byte for two
arcs, then arcs in base 128, each of which fits 32 bits.
-/

namespace Keyring.Der.ObjectIdentifier

/-- The element of an identifier with the given body. -/
def element (body : Bytes) : Element :=
  ⟨.objectIdentifier, body⟩

/-- Ed25519 keys: 1.3.101.112. -/
def ed25519 : Element := element [0x2b, 0x65, 0x70]

/-- RSA keys: 1.2.840.113549.1.1.1. -/
def rsaEncryption : Element :=
  element [0x2a, 0x86, 0x48, 0x86, 0xf7, 0x0d, 0x01, 0x01, 0x01]

/-- Keys on an elliptic curve: 1.2.840.10045.2.1. -/
def ecPublicKey : Element :=
  element [0x2a, 0x86, 0x48, 0xce, 0x3d, 0x02, 0x01]

/-- The curve P-256: 1.2.840.10045.3.1.7. -/
def secp256r1 : Element :=
  element [0x2a, 0x86, 0x48, 0xce, 0x3d, 0x03, 0x01, 0x07]

/-- The fewest bytes of a body. -/
def minLength : Nat := 3

/-- The most bytes of a body. -/
def maxLength : Nat := 39

/-- Whether the bytes are a row of arcs in base 128, when `k` bytes of an arc have been read. The
fifth byte of an arc would take it beyond 32 bits unless its upper half is zero, and an arc has no
sixth. -/
def areArcs : Nat → Bytes → Bool
  | k, [] => k = 0
  | k, b :: rest =>
    (k < 4 || b < 0x10) && areArcs (if b < 0x80 then 0 else k + 1) rest

/-- Whether an element is a well-formed identifier. -/
def isValid (e : Element) : Bool :=
  e.tag = .objectIdentifier && minLength ≤ e.body.length && e.body.length ≤ maxLength &&
    match e.body with
    | [] => false
    | first :: rest => first ≤ 119 && areArcs 0 rest

end Keyring.Der.ObjectIdentifier
