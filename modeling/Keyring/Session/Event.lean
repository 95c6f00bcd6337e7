import Keyring.Cipher.Variant
import Keyring.Key.Basic
import Keyring.Scheme
import Keyring.Text.Pem
/-!
# Events

What a session tells an observer. Events hold names and lengths and nothing of a key, a text or a
tag.
-/

namespace Keyring.Session

/-- How important an event is. -/
inductive Level where
  | debug
  | trace
deriving DecidableEq, Repr

/-- The name of a level. -/
def Level.name : Level → String
  | .debug => "DEBUG"
  | .trace => "TRACE"

/-- Something that happened in a session. -/
inductive Event where
  | generatedKey (algorithm : Algorithm)
  | importedPrivateKey (algorithm : Algorithm) (label : Text.Pem.Label)
  | importedPublicKey (algorithm : Algorithm)
  | signedMessage (scheme : Scheme) (messageLength signatureLength : Nat)
  | verifiedSignature (scheme : Scheme) (messageLength : Nat) (valid : Bool)
  | encrypted (variant : CipherVariant) (textLength : Nat)
  | decrypted (variant : CipherVariant) (textLength : Nat)
  /-- Two integers of these lengths have no encoding as a signature, and the answer is empty. -/
  | oversizedSignature (rLength sLength : Nat)
  /-- The last holder of a key has let go of it. -/
  | releasingKey (description : Key.Description)
deriving DecidableEq, Repr

/-- The value of a field of an event. -/
inductive Field where
  | text (s : String)
  | number (n : Nat)
  | flag (b : Bool)
deriving DecidableEq, Repr

namespace Event

/-- The level of an event. -/
def level : Event → Level
  | .releasingKey _ => .trace
  | _ => .debug

/-- The text of an event. -/
def message : Event → String
  | .generatedKey _ => "generated key"
  | .importedPrivateKey .. => "imported private key"
  | .importedPublicKey _ => "imported public key"
  | .signedMessage .. => "signed message"
  | .verifiedSignature .. => "verified signature"
  | .encrypted .. => "encrypted"
  | .decrypted .. => "decrypted"
  | .oversizedSignature .. => "ecdsa signature too large to encode"
  | .releasingKey _ => "releasing key"

/-- The details of an event, by name. -/
def fields : Event → List (String × Field)
  | .generatedKey a => [("algorithm", .text a.shortName)]
  | .importedPrivateKey a l => [("algorithm", .text a.shortName), ("label", .text l.name)]
  | .importedPublicKey a => [("algorithm", .text a.shortName)]
  | .signedMessage s m n =>
    [("scheme", .text s.name), ("message_len", .number m), ("signature_len", .number n)]
  | .verifiedSignature s m v =>
    [("scheme", .text s.name), ("message_len", .number m), ("valid", .flag v)]
  | .encrypted v n => [("cipher", .text v.name), ("plaintext_len", .number n)]
  | .decrypted v n => [("cipher", .text v.name), ("plaintext_len", .number n)]
  | .oversizedSignature r s => [("r_len", .number r), ("s_len", .number s)]
  | .releasingKey d => [("algorithm", .text d.algorithm.shortName), ("private", .flag d.isPrivate)]

end Event

end Keyring.Session
