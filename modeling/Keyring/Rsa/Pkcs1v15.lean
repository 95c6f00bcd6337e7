import Keyring.Der.Element
import Keyring.Hash.Sha2
import Keyring.Rsa.Key
/-!
# RSA signatures with the first padding

The digest of the message stands, with its algorithm, at the end of a fixed pattern as long as the
modulus, so that each message has one signature.
-/

namespace Keyring.Rsa.Pkcs1v15

open Der

/-- The digest of a message with the identifier of its algorithm. -/
def digestInfo (message : Bytes) : Bytes :=
  let sha256 : Element :=
    ⟨.objectIdentifier, [0x60, 0x86, 0x48, 0x01, 0x65, 0x03, 0x04, 0x02, 0x01]⟩
  (Element.sequence [.sequence [sha256, ⟨.null, []⟩], .octets (Hash.sha256 message)]).encode

/-- The padded digest of `k` bytes. At least eight bytes of the pattern have to fit. -/
def pad? (k : Nat) (message : Bytes) : Option Bytes :=
  let info := digestInfo message
  if k < info.length + 11 then none
  else some (0 :: 1 :: List.replicate (k - info.length - 3) 0xff ++ 0 :: info)

/-- The signature of a message. The mask changes nothing for a key whose exponents undo each other;
for any other key it may decide which of several roots is found, or whether one is. -/
def sign? (key : PrivateKey) (mask : Nat) (message : Bytes) : Option Bytes := do
  let x := Bytes.toNat (← pad? key.size message)
  let y ← key.checked? x (key.powerMasked mask x)
  some (Bytes.ofNat key.size y)

/-- Whether a signature is valid. -/
def verify (key : PublicKey) (message signature : Bytes) : Bool :=
  let y := Bytes.toNat signature
  signature.length = key.size && y < key.n &&
    pad? key.size message = some (Bytes.ofNat key.size (key.apply y))

end Keyring.Rsa.Pkcs1v15
