import Keyring.Algorithm
import Keyring.Der.ObjectIdentifier
/-!
# Algorithm identifiers

Each algorithm has one identifier, parameters included, and reading accepts no other form of it. It
is found in two steps: first the object identifier tells the algorithm, together with the curve
where one stands for all curves, and then the parameters have to be those of the algorithm.
-/

namespace Keyring

open Der

/-- The identifier of an algorithm as it stands in a document. -/
structure AlgorithmIdentifier where
  /-- The object identifier. -/
  oid : Element
  /-- The parameters, of whatever type. -/
  parameters : Option Element
deriving DecidableEq, Repr

namespace AlgorithmIdentifier

/-- The identifier as an element. -/
def toElement (id : AlgorithmIdentifier) : Element :=
  .sequence (id.oid :: id.parameters.toList)

/-- Reads an identifier: a well-formed object identifier, and at most one element behind it. -/
def ofElement? (e : Element) : Option AlgorithmIdentifier := do
  match ← e.parts? .sequence with
  | [oid] => if ObjectIdentifier.isValid oid then some ⟨oid, none⟩ else none
  | [oid, parameters] => if ObjectIdentifier.isValid oid then some ⟨oid, some parameters⟩ else none
  | _ => none

/-- The curve that the parameters name. -/
def curve? (id : AlgorithmIdentifier) : Option Element :=
  id.parameters.filter ObjectIdentifier.isValid

/-- The algorithm that the object identifier stands for. Only for keys on a curve are the parameters
looked at. -/
def detect? (id : AlgorithmIdentifier) : Option Algorithm :=
  if id.oid = ObjectIdentifier.ed25519 then some .ed25519
  else if id.oid = ObjectIdentifier.rsaEncryption then some .rsa
  else if id.oid = ObjectIdentifier.ecPublicKey then
    if id.curve? = some ObjectIdentifier.secp256r1 then some .ecdsaP256 else none
  else none

end AlgorithmIdentifier

namespace Algorithm

/-- The identifier of an algorithm: Ed25519 has no parameters, RSA has an empty one, and a curve is
named by its parameter. -/
def identifier : Algorithm → Element
  | .ed25519 => .sequence [ObjectIdentifier.ed25519]
  | .rsa => .sequence [ObjectIdentifier.rsaEncryption, ⟨.null, []⟩]
  | .ecdsaP256 => .sequence [ObjectIdentifier.ecPublicKey, ObjectIdentifier.secp256r1]

/-- The parameters that the keys of an algorithm are read with. -/
def parameters : Algorithm → Option Element
  | .ed25519 => none
  | .rsa => some ⟨.null, []⟩
  | .ecdsaP256 => some ObjectIdentifier.secp256r1

/-- The algorithm with the given identifier. -/
def ofIdentifier? (e : Element) : Option Algorithm := do
  let id ← AlgorithmIdentifier.ofElement? e
  let a ← id.detect?
  if id.parameters = a.parameters then some a else none

end Algorithm

end Keyring
