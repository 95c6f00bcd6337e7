import Keyring.Key.Encoding
import Keyring.Text.Pem
/-!
# Keys as text

Import and export of keys as armoured documents. The label of the text selects the kind of document,
and every failure to read has the same cause, so that nothing is said about why.
-/

namespace Keyring

open Text Der

/-- The private key that a text holds, with the label of its document. -/
def PrivateKey.ofPem? (text : String) : Option (Pem.Label × PrivateKey) := do
  let (label, der) ← Pem.decode? text.toList
  let key ← match label with
    | .privateKey => PrivateKey.ofPkcs8? der
    | .rsaPrivateKey => PrivateKey.ofPkcs1? der
    | .ecPrivateKey => PrivateKey.ofSec1? der
    | .publicKey => none
  some (label, key)

/-- The public key that a text holds. -/
def PublicKey.ofPem? (text : String) : Option PublicKey := do
  match ← Pem.decode? text.toList with
  | (.publicKey, der) => PublicKey.ofSpki? der
  | _ => none

/-- A document as text. -/
def armour (label : Pem.Label) (der : Bytes) : String :=
  String.ofList (Pem.encode label.name.toList der)

namespace Key

/-- The private key that a text holds. -/
def importPrivate (text : String) : Except Error Key :=
  match PrivateKey.ofPem? text with
  | some (_, key) => .ok (.ofPrivate key)
  | none => .error .parseFailure

/-- The public key that a text holds. -/
def importPublic (text : String) : Except Error Key :=
  match PublicKey.ofPem? text with
  | some key => .ok (.ofPublic key)
  | none => .error .parseFailure

/-- The public half of a key as text, if it has a document. -/
def exportPublic (key : Key) : Except Error String :=
  match key.publicKey.spkiDer? with
  | some der => .ok (armour .publicKey der)
  | none => .error .encodeFailure

/-- The private half of a key as text. -/
def privatePem : Key → Except Error String
  | .ofPublic _ => .error .capabilityMismatch
  | .ofPrivate key =>
    match key.toPkcs8? with
    | none => .error .encodeFailure
    | some info =>
      let der := info.toElement.encode
      if der.length ≤ Der.maxLength then .ok (armour .privateKey der) else .error .encodeFailure

end Key

end Keyring
