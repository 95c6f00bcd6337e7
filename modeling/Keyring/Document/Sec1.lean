import Keyring.Document.Field
/-!
# Private keys on a curve

The document that holds the scalar of a private key and, as a rule, its public point. It may name a
curve; the name is read and not compared with anything.
-/

namespace Keyring.Document

open Der

/-- A private key on a curve. -/
structure EcPrivateKey where
  /-- The scalar, most significant byte first. -/
  key : Bytes
  /-- The encoding of the public point. -/
  publicKey : Option Bytes := none
deriving DecidableEq, Repr

namespace EcPrivateKey

/-- The document as an element. It names no curve. -/
def toElement (info : EcPrivateKey) : Element :=
  .sequence ([.nat 1, .octets info.key]
    ++ (info.publicKey.map fun b => .constructed (.explicit publicKeyNumber) [.bits b]).toList)

/-- The bytes of the public point in its field. -/
def publicKey? (e : Element) : Option Bytes := do
  (← content? publicKeyNumber e).bits?

/-- Whether the elements do not start with the name of a curve, or with a well-formed one. -/
def hasValidCurve : List Element → Bool
  | [] => true
  | e :: _ =>
    !isMarked attributesNumber e || (content? attributesNumber e).any ObjectIdentifier.isValid

/-- The document that consists of the given elements. -/
def ofElements? : List Element → Option EcPrivateKey
  | version :: key :: rest => do
    let (publicKey, behind) ← readPublicKey? publicKey? rest
    if version = .nat 1 ∧ key.tag = .octetString ∧ hasValidCurve rest ∧ behind.isEmpty then
      some ⟨key.body, publicKey⟩
    else none
  | _ => none

/-- Reads a document. -/
def ofDer? (der : Bytes) : Option EcPrivateKey := do
  ofElements? (← Element.sequenceOfBytes? der)

end EcPrivateKey

end Keyring.Document
