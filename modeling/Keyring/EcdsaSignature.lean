import Keyring.Der.Element
import Keyring.Error
/-!
# Encoded ECDSA signatures

A signature is a pair of unsigned integers, written as a DER sequence. The integers are given by
their bytes and are not compared with any group order. Reading answers the shortest bytes, none for
zero; writing takes leading zeros as well, and gives no bytes if the integers are too long for one
sequence.
-/

namespace Keyring

/-- The two integers of a signature, each given by its bytes. -/
structure EcdsaSignature where
  /-- The first integer. -/
  r : Bytes
  /-- The second integer. -/
  s : Bytes
deriving DecidableEq, Repr

namespace EcdsaSignature

open Der

/-- The greatest length of an encoded signature whose integers have at most 256 bits. -/
def maxP256Length : Nat := 72

/-- The signature as an element. -/
def toElement (sig : EcdsaSignature) : Element :=
  .sequence [.unsigned sig.r, .unsigned sig.s]

/-- The number of bytes of an encoded signature, which is known before any of it is written. -/
def encodedLength (sig : EcdsaSignature) : Nat :=
  framedLength (framedLength (Element.unsignedBody sig.r).length
    + framedLength (Element.unsignedBody sig.s).length)

/-- The encoded signature. One beyond the length of any document has no encoding. -/
def encode (sig : EcdsaSignature) : Except Error Bytes :=
  if sig.encodedLength ≤ Der.maxLength then .ok sig.toElement.encode else .error .encodeFailure

/-- The encoded signature, and the empty string for one that has no encoding. The empty string is no
signature. -/
def toDer (sig : EcdsaSignature) : Bytes :=
  match sig.encode with
  | .ok der => der
  | .error _ => []

/-- The signature with the given encoding. -/
def ofDer? (der : Bytes) : Option EcdsaSignature := do
  match ← Element.sequenceOfBytes? der with
  | [r, s] => some ⟨← r.unsigned?, ← s.unsigned?⟩
  | _ => none

/-- Reads an encoded signature. -/
def parse (der : Bytes) : Except Error EcdsaSignature :=
  match ofDer? der with
  | some sig => .ok sig
  | none => .error .parseFailure

end EcdsaSignature

end Keyring
