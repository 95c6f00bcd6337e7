import Keyring.Document.AlgorithmIdentifier
/-!
# Public keys of any algorithm

The document that holds a public key with the identifier of its algorithm.
-/

namespace Keyring.Document

open Der

/-- A public key with its algorithm. -/
structure SubjectPublicKeyInfo where
  /-- The algorithm of the key. -/
  algorithm : Algorithm
  /-- The key, in the form that belongs to its algorithm. -/
  key : Bytes
deriving DecidableEq, Repr

namespace SubjectPublicKeyInfo

/-- The document as an element. -/
def toElement (info : SubjectPublicKeyInfo) : Element :=
  .sequence [info.algorithm.identifier, .bits info.key]

/-- Reads a document. -/
def ofDer? (der : Bytes) : Option SubjectPublicKeyInfo := do
  match ← Element.sequenceOfBytes? der with
  | [identifier, key] => some ⟨← Algorithm.ofIdentifier? identifier, ← key.bits?⟩
  | _ => none

end SubjectPublicKeyInfo

end Keyring.Document
