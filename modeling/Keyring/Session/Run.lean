import Keyring.Aead
import Keyring.Key.Text
import Keyring.Session.Basic
/-!
# Running a session

A session runs a list of steps. A step answers a value or a failure, and a failure emits no event
and leaves every slot as it was. A clone shares the key it was made from, and so does the public
half of a public key, while the public half of a private key is a new key.
-/

namespace Keyring.Session

/-! ### Steps -/

/-- An operation of the library as part of a step. -/
def lift {α : Type} (r : Except Error α) : Except Failure α :=
  r.mapError .error

/-- The variant of the cipher that a step uses. -/
def CipherMode.variant (mode : CipherMode) (key : Bytes) : Except Error CipherVariant :=
  match mode with
  | .auto => Aead.variantOf key
  | .fixed v => .ok v

/-- The position of a byte, counted from the end if negative. -/
def index? (length : Nat) (position : Int) : Option Nat :=
  let i := if position < 0 then position + length else position
  if 0 ≤ i ∧ i < length then some i.toNat else none

/-- The byte string with the bits of one byte changed. -/
def flipAt (b : Bytes) (position : Int) (mask : UInt8) : Bytes :=
  match index? b.length position with
  | some i => b.modify i (· ^^^ mask)
  | none => b

/-- A successful outcome that puts a new key into a slot. -/
def withKey (s : State) (target : Option String) (key : Key) (event : Event) :
    Value × List Event × State :=
  let (s, released) := s.storeKey target key
  (.description key.describe, event :: released, s)

/-- A successful outcome that puts a byte string into a slot. -/
def withBytes (s : State) (target : Option String) (b : Bytes) (events : List Event) :
    Value × List Event × State :=
  (.bytes b, events, s.storeBytes target b)

/-- The events of writing a signature: one that has no encoding is told of, and is no failure. The
lengths are those of the integers as they were given. -/
def buildEvents (sig : EcdsaSignature) : List Event :=
  match sig.encode with
  | .ok _ => []
  | .error _ => [.oversizedSignature sig.r.length sig.s.length]

/-- The value, the events and the slots of a step, unless it fails. Slots are looked up before
anything else, in the order in which the step names them. -/
def Step.attempt (draw : Draw) (s : State) : Step → Except Failure (Value × List Event × State)
  | .generate target => do
    let key ← lift (Key.generate draw)
    return withKey s target key (.generatedKey key.algorithm)
  | .importPrivate pem target => do
    match PrivateKey.ofPem? (← pem.eval s.texts) with
    | some (label, key) =>
      return withKey s target (.ofPrivate key) (.importedPrivateKey key.algorithm label)
    | none => throw (.error .parseFailure)
  | .importPublic pem target => do
    match PublicKey.ofPem? (← pem.eval s.texts) with
    | some key => return withKey s target (.ofPublic key) (.importedPublicKey key.algorithm)
    | none => throw (.error .parseFailure)
  | .clone key target => do
    let h ← s.handle key
    let (s, released) := s.storeHandle target h
    return (.description h.describe, released, s)
  | .toPublic key target => do
    let h ← s.handle key
    if h.key.isPrivate then
      let key := h.key.toPublic
      let (s, released) := s.storeKey target key
      return (.description key.describe, released, s)
    else
      let (s, released) := s.storeHandle target h
      return (.description h.describe, released, s)
  | .drop key => do
    let h ← s.handle key
    let keys := s.keys.erase key
    return (.none, release keys h, { s with keys })
  | .describe key => do
    let h ← s.handle key
    return (.description h.describe, [], s)
  | .publicPem key target => do
    let h ← s.handle key
    let text ← lift h.key.exportPublic
    return (.text text, [], s.storeText target text)
  | .privatePem key target => do
    let h ← s.handle key
    let text ← lift h.key.privatePem
    return (.text text, [], s.storeText target text)
  | .require key expected needsPrivate => do
    let h ← s.handle key
    lift (h.require expected needsPrivate)
    return (.none, [], s)
  | .same a b => do
    let a ← s.handle a
    let b ← s.handle b
    return (.flag (a.key.samePublic b.key), [], s)
  | .sign scheme key message target => do
    let h ← s.handle key
    let message ← message.eval s.bytes
    let signature ← lift (h.sign scheme draw message)
    return withBytes s target signature [.signedMessage scheme message.length signature.length]
  | .verify scheme key message signature => do
    let h ← s.handle key
    let message ← message.eval s.bytes
    let signature ← signature.eval s.bytes
    let verdict ← lift (h.verify scheme message signature)
    return (.verdict verdict, [.verifiedSignature scheme message.length verdict.isValid], s)
  | .encrypt mode key nonce text target => do
    let key ← key.eval s.bytes
    let nonce ← nonce.eval s.bytes
    let text ← text.eval s.bytes
    let variant ← lift (mode.variant key)
    let ciphertext ← lift (Aead.encryptWith variant key nonce text)
    return withBytes s target ciphertext [.encrypted variant text.length]
  | .decrypt mode key nonce ciphertext target => do
    let key ← key.eval s.bytes
    let nonce ← nonce.eval s.bytes
    let ciphertext ← ciphertext.eval s.bytes
    let variant ← lift (mode.variant key)
    let text ← lift (Aead.decryptWith variant key nonce ciphertext)
    return withBytes s target text [.decrypted variant text.length]
  | .parse der toR toS => do
    let sig ← lift (EcdsaSignature.parse (← der.eval s.bytes))
    let stored :=
      if toR.isSome ∧ toS.isSome then (s.storeBytes toR sig.r).storeBytes toS sig.s else s
    return (.signature sig, [], stored)
  | .build r s' target => do
    let r ← r.eval s.bytes
    let s' ← s'.eval s.bytes
    let sig : EcdsaSignature := ⟨r, s'⟩
    return withBytes s target sig.toDer (buildEvents sig)
  | .flip data position mask target => do
    let data ← data.eval s.bytes
    return withBytes s target (flipAt data position mask) []
  | .cut data length target => do
    let data ← data.eval s.bytes
    return withBytes s target (data.take length) []
  | .append data tail target => do
    let data ← data.eval s.bytes
    let tail ← tail.eval s.bytes
    return withBytes s target (data ++ tail) []

/-- The outcome of a step. A failure changes nothing and emits nothing. -/
def Step.run (draw : Draw) (s : State) (step : Step) : Outcome :=
  match step.attempt draw s with
  | .ok (value, events, s) => ⟨.ok value, events, s⟩
  | .error failure => ⟨.error failure, [], s⟩

/-! ### Runs -/

/-- The events of clearing all slots for keys, one after the other in the order of their names. -/
def releaseAll : List (String × Handle) → List Event
  | [] => []
  | (_, h) :: rest =>
    (if rest.any (·.2.id = h.id) then [] else [.releasingKey h.describe]) ++ releaseAll rest

/-- The events at the end of a session. -/
def State.finish (s : State) : List Event :=
  releaseAll s.keys.entries

/-- The outcomes of the steps of a list, from the state `s` on. The random values of each step are
those of its place in the list, which starts at `i`. -/
def runFrom (draws : Nat → Draw) (i : Nat) (s : State) : List Step → List Outcome
  | [] => []
  | step :: rest =>
    let outcome := step.run (draws i) s
    outcome :: runFrom draws (i + 1) outcome.state rest

/-- The outcomes of a session. -/
def run (draws : Nat → Draw) (steps : List Step) : List Outcome :=
  runFrom draws 0 {} steps

/-- The state after the given outcomes of a session. -/
def finalState (outcomes : List Outcome) : State :=
  (outcomes.getLast?.map (·.state)).getD {}

end Keyring.Session
