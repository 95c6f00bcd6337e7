import Keyring.Document.AlgorithmIdentifier
import Keyring.Document.Field
/-!
# Private keys of any algorithm

The document that holds a private key with the identifier of its algorithm. Its second version may
also hold the public key, and has to.
-/

namespace Keyring.Document

open Der

/-- A private key with its algorithm. -/
structure PrivateKeyInfo where
  /-- The algorithm of the key. -/
  algorithm : Algorithm
  /-- The key, in the form that belongs to its algorithm. -/
  key : Bytes
  /-- The public key. -/
  publicKey : Option Bytes := none
deriving DecidableEq, Repr

namespace PrivateKeyInfo

/-- The version of the document: one with a public key, and zero without. -/
def version (info : PrivateKeyInfo) : Nat :=
  if info.publicKey.isSome then 1 else 0

/-- The field that holds a public key: a bit string under another tag. -/
def publicKeyField (b : Bytes) : Element :=
  ⟨.implicit publicKeyNumber, (Element.bits b).body⟩

/-- The public key in its field. -/
def publicKey? (e : Element) : Option Bytes :=
  if e.tag = .implicit publicKeyNumber then Element.bitBytes? e.body else none

/-- The document as an element. -/
def toElement (info : PrivateKeyInfo) : Element :=
  .sequence ([.nat info.version, info.algorithm.identifier, .octets info.key]
    ++ (info.publicKey.map publicKeyField).toList)

/-- The document that consists of the given elements. Attributes in front of the public key are
skipped, and so are extensions behind it. -/
def ofElements? : List Element → Option PrivateKeyInfo
  | version :: identifier :: key :: rest => do
    let algorithm ← Algorithm.ofIdentifier? identifier
    let (publicKey, rest) ← readPublicKey? publicKey? rest
    let info : PrivateKeyInfo := ⟨algorithm, key.body, publicKey⟩
    if key.tag = .octetString ∧ version = .nat info.version ∧ rest.all isExtension then
      some info
    else none
  | _ => none

/-- Reads a document. -/
def ofDer? (der : Bytes) : Option PrivateKeyInfo := do
  ofElements? (← Element.sequenceOfBytes? der)

end PrivateKeyInfo

end Keyring.Document
