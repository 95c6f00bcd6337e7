import Keyring.Key.Signature
import Keyring.Session.Event
import Keyring.Session.Slots
/-!
# The state and the steps of a session

A session works on named slots for keys, byte strings and texts. A slot for a key holds a handle,
which has the number of the key and its algorithm beside it, and several handles may share one key.
A key is released when the last slot that shares it is overwritten or cleared.
-/

namespace Keyring.Session

/-- A share of a key. Handles with the same number share one key, and the tag beside it. -/
structure Handle where
  /-- The number of the key, in the order in which keys were made. -/
  id : Nat
  /-- The tag: the algorithm, as it was noted when the key was made. -/
  algorithm : Algorithm
  /-- The key. -/
  key : Key

namespace Handle

/-- The handle of a new key. -/
def ofKey (id : Nat) (key : Key) : Handle :=
  ⟨id, key.algorithm, key⟩

/-- What may be shown of a handle. The algorithm is the one noted. -/
def describe (h : Handle) : Key.Description :=
  ⟨h.algorithm, h.key.isPrivate⟩

/-- Checks a handle against what an operation needs. The algorithm is the one noted. -/
def require (h : Handle) (expected : Option Algorithm) (needsPrivate : Bool) :
    Except Error Unit := do
  Key.requireAlgorithm h.algorithm expected
  h.key.requirePrivate needsPrivate

/-- The signature of a message under a scheme, after a check of the handle. -/
def sign (scheme : Scheme) (h : Handle) (draw : Draw) (message : Bytes) : Except Error Bytes := do
  h.require (some scheme.algorithm) true
  h.key.signChecked scheme draw message

/-- The verdict on a signature of a message under a scheme, after a check of the handle. -/
def verify (scheme : Scheme) (h : Handle) (message signature : Bytes) : Except Error Verdict := do
  h.require (some scheme.algorithm) false
  h.key.verifyChecked scheme message signature

end Handle

/-- What the slots hold. -/
structure State where
  /-- The slots for keys. -/
  keys : Slots Handle := ∅
  /-- The slots for byte strings. -/
  bytes : Slots Bytes := ∅
  /-- The slots for texts. -/
  texts : Slots String := ∅
  /-- How many keys have been made. -/
  made : Nat := 0

/-- An argument of a step: given in the step, or the content of a slot. -/
inductive Operand (α : Type) where
  | literal (a : α)
  | slot (name : String)

/-- How the variant of the cipher is chosen: by the length of the key, or in the step. -/
inductive CipherMode where
  | auto
  | fixed (variant : CipherVariant)
deriving DecidableEq, Repr

/-- A step. The results of most steps can be put into a slot, `target`. -/
inductive Step where
  | generate (target : Option String)
  | importPrivate (pem : Operand String) (target : Option String)
  | importPublic (pem : Operand String) (target : Option String)
  | clone (key : String) (target : Option String)
  | toPublic (key : String) (target : Option String)
  | drop (key : String)
  | describe (key : String)
  | publicPem (key : String) (target : Option String)
  | privatePem (key : String) (target : Option String)
  | require (key : String) (expected : Option Algorithm) (needsPrivate : Bool)
  | same (a b : String)
  | sign (scheme : Scheme) (key : String) (message : Operand Bytes) (target : Option String)
  | verify (scheme : Scheme) (key : String) (message signature : Operand Bytes)
  | encrypt (mode : CipherMode) (key nonce text : Operand Bytes) (target : Option String)
  | decrypt (mode : CipherMode) (key nonce ciphertext : Operand Bytes) (target : Option String)
  | parse (der : Operand Bytes) (toR toS : Option String)
  | build (r s : Operand Bytes) (target : Option String)
  /-- Changes the bits of one byte; a negative position counts from the end, and one out of range
  changes nothing. -/
  | flip (data : Operand Bytes) (position : Int) (mask : UInt8) (target : Option String)
  /-- Keeps the first bytes. -/
  | cut (data : Operand Bytes) (length : Nat) (target : Option String)
  | append (data tail : Operand Bytes) (target : Option String)

/-- What a successful step answers. -/
inductive Value where
  | none
  | description (d : Key.Description)
  | text (s : String)
  | bytes (b : Bytes)
  | flag (b : Bool)
  | verdict (v : Verdict)
  | signature (sig : EcdsaSignature)

/-- Why a step failed. -/
inductive Failure where
  /-- A slot that the step names is not occupied. -/
  | emptySlot (name : String)
  | error (e : Error)
deriving DecidableEq, Repr

/-- What a step did: its answer, its events and the slots after it. -/
structure Outcome where
  /-- The answer. -/
  answer : Except Failure Value
  /-- The events, in the order in which they happened. -/
  events : List Event
  /-- The slots after the step. -/
  state : State

/-! ### Slots -/

/-- The handle in a slot for keys. -/
def State.handle (s : State) (name : String) : Except Failure Handle :=
  match s.keys.get? name with
  | some h => .ok h
  | none => .error (.emptySlot name)

/-- The value of an argument, where slots of its kind are looked up in `slots`. -/
def Operand.eval {α : Type} (slots : Slots α) : Operand α → Except Failure α
  | .literal a => .ok a
  | .slot name =>
    match slots.get? name with
    | some a => .ok a
    | none => .error (.emptySlot name)

/-- The events of letting go of a handle, when `keys` are the slots that are left. -/
def release (keys : Slots Handle) (h : Handle) : List Event :=
  if keys.values.any (·.id = h.id) then [] else [.releasingKey h.describe]

/-- Puts a handle into a slot and then lets go of what was there. Without a slot the handle itself
is let go of. -/
def State.storeHandle (s : State) (target : Option String) (h : Handle) : State × List Event :=
  match target with
  | none => (s, release s.keys h)
  | some name =>
    let keys := s.keys.insert name h
    ({ s with keys }, ((s.keys.get? name).map (release keys)).getD [])

/-- Puts a new key into a slot. -/
def State.storeKey (s : State) (target : Option String) (key : Key) : State × List Event :=
  { s with made := s.made + 1 }.storeHandle target (.ofKey s.made key)

/-- Puts a byte string into a slot. -/
def State.storeBytes (s : State) (target : Option String) (b : Bytes) : State :=
  match target with
  | none => s
  | some name => { s with bytes := s.bytes.insert name b }

/-- Puts a text into a slot. -/
def State.storeText (s : State) (target : Option String) (t : String) : State :=
  match target with
  | none => s
  | some name => { s with texts := s.texts.insert name t }

end Keyring.Session
