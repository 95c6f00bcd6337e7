import Keyring.Der.Element
/-!
# RSA keys as numbers

The documents that hold the numbers of an RSA key. That the numbers fit together is not their
business.
-/

namespace Keyring.Document

open Der

/-- The numbers of a public RSA key. -/
structure RsaPublicNumbers where
  /-- The modulus. -/
  n : Nat
  /-- The public exponent. -/
  e : Nat
deriving DecidableEq, Repr

namespace RsaPublicNumbers

/-- The document as an element. -/
def toElement (k : RsaPublicNumbers) : Element :=
  .sequence [.nat k.n, .nat k.e]

/-- Reads a document. -/
def ofDer? (der : Bytes) : Option RsaPublicNumbers := do
  match ← Element.sequenceOfBytes? der with
  | [n, e] => some ⟨← n.nat?, ← e.nat?⟩
  | _ => none

end RsaPublicNumbers

/-- The numbers of a private RSA key with two factors. -/
structure RsaPrivateNumbers where
  /-- The modulus. -/
  n : Nat
  /-- The public exponent. -/
  e : Nat
  /-- The private exponent. -/
  d : Nat
  /-- The first factor. -/
  p : Nat
  /-- The second factor. -/
  q : Nat
  /-- The private exponent for the first factor. -/
  dP : Nat
  /-- The private exponent for the second factor. -/
  dQ : Nat
  /-- The inverse of the second factor modulo the first. -/
  qInv : Nat
deriving DecidableEq, Repr

namespace RsaPrivateNumbers

/-- The document as an element. Its version is that of keys with two factors. -/
def toElement (k : RsaPrivateNumbers) : Element :=
  .sequence ([0, k.n, k.e, k.d, k.p, k.q, k.dP, k.dQ, k.qInv].map Element.nat)

/-- Reads a document. -/
def ofDer? (der : Bytes) : Option RsaPrivateNumbers := do
  match ← (← Element.sequenceOfBytes? der).mapM Element.nat? with
  | [0, n, e, d, p, q, dP, dQ, qInv] => some ⟨n, e, d, p, q, dP, dQ, qInv⟩
  | _ => none

end RsaPrivateNumbers

end Keyring.Document
