import Keyring.Algorithm
/-!
# Errors

One constructor per cause. Messages never hold more than lengths and names of algorithms, so that
nothing of a key or of a plaintext leaves through an error.
-/

namespace Keyring

/-- An argument whose length is fixed. -/
inductive Parameter where
  | key
  | nonce
  | ciphertext
deriving DecidableEq, Repr

/-- The name of a parameter in messages. -/
def Parameter.name : Parameter → String
  | .key => "key"
  | .nonce => "nonce"
  | .ciphertext => "ciphertext"

/-- Why an operation failed. -/
inductive Error where
  /-- An argument of the wrong length. -/
  | invalidArgument (param : Parameter) (expected actual : Nat)
  /-- A key of another algorithm than the operation is for. -/
  | typeMismatch (expected actual : Algorithm)
  /-- A public key where a private one is needed. -/
  | capabilityMismatch
  /-- Text or bytes that are no well-formed document of a supported kind. -/
  | parseFailure
  /-- A value that has no encoding. -/
  | encodeFailure
  /-- A primitive that gave no result. -/
  | cryptoFailure
  /-- A ciphertext that does not match its tag. -/
  | verifyFailure
deriving DecidableEq, Repr

namespace Error

/-- The message shown to callers. -/
def message : Error → String
  | .invalidArgument param expected actual =>
    s!"Invalid {param.name}: expected {expected} bytes, got {actual}"
  | .typeMismatch expected actual => s!"Unexpected key type: expected {expected}, got {actual}"
  | .capabilityMismatch => "Private key expected, got public key only"
  | .parseFailure => "Parse failure"
  | .encodeFailure => "Encode failure"
  | .cryptoFailure => "Cryptographic operation failed"
  | .verifyFailure => "Verify failed"

instance : ToString Error where
  toString := message

/-- The name of the cause, without its details. -/
def kind : Error → String
  | .invalidArgument .. => "InvalidArgument"
  | .typeMismatch .. => "TypeMismatch"
  | .capabilityMismatch => "CapabilityMismatch"
  | .parseFailure => "ParseFailure"
  | .encodeFailure => "EncodeFailure"
  | .cryptoFailure => "CryptoFailure"
  | .verifyFailure => "VerifyFailure"

/-- The cause with its details, for debugging. -/
def debug : Error → String
  | .invalidArgument param expected actual =>
    "InvalidArgument \x7b param: \"" ++ param.name ++ "\", expected: " ++ toString expected
      ++ ", actual: " ++ toString actual ++ " \x7d"
  | .typeMismatch expected actual =>
    "TypeMismatch \x7b expected: " ++ expected.debugName ++ ", actual: " ++ actual.debugName
      ++ " \x7d"
  | e => e.kind

/-- Whether the error says that data were tampered with, as opposed to misused. -/
def isVerifyFailure (e : Error) : Bool :=
  e = .verifyFailure

end Error

/-- An operation of two steps succeeds if the first does and then the second. -/
theorem bind_eq_ok_iff {ε α β : Type} {first : Except ε α} {next : α → Except ε β}
    {b : β} : (first >>= next) = .ok b ↔ ∃ a, first = .ok a ∧ next a = .ok b := by
  cases first with
  | error e => simp [bind, Except.bind]
  | ok a => simp [bind, Except.bind]

end Keyring
