import Keyring.Proofs.Ecdsa
import Keyring.Proofs.Ed25519
import Keyring.Proofs.Key.Capability
import Keyring.Proofs.Rsa.Pkcs1v15
import Keyring.Proofs.Rsa.Pss
/-!
# Room for signatures

A context announces the length of its longest signature before it signs. No primitive gives a longer
one, so there is always room, copying never fails, and signing with a private key is nothing but the
primitive of its context.
-/

namespace Keyring

open Bytes

namespace SigningContext

variable {context : SigningContext} {scheme : Scheme} {key : PrivateKey} {draw : Draw}
  {message signature room : Bytes}

/-! ### Copying -/

theorem copyOut_of_le (h : signature.length ≤ room.length) :
    copyOut signature room
      = .ok (signature ++ room.drop signature.length, signature.length) :=
  if_pos h

/-! ### Contexts of schemes -/

theorem algorithm_of_ofScheme (h : ofScheme scheme key = .ok context) :
    scheme.algorithm = key.algorithm := by
  cases scheme <;> cases key <;> first | rfl | cases h

/-- A scheme has a context for every key of its algorithm. -/
theorem exists_ofScheme (h : scheme.algorithm = key.algorithm) :
    ∃ context, ofScheme scheme key = .ok context := by
  cases scheme <;> cases key <;> first | exact ⟨_, rfl⟩ | cases h

/-- Every context is that of a key under some scheme. -/
theorem exists_eq_ofScheme (context : SigningContext) :
    ∃ scheme key, ofScheme scheme key = .ok context := by
  cases context with
  | ed25519 seed => exact ⟨.ed25519, .ed25519 seed, rfl⟩
  | rsa k padding =>
    cases padding with
    | pkcs1v15 => exact ⟨.rsaPkcs1Sha256, .rsa k, rfl⟩
    | pss => exact ⟨.rsaPssSha256, .rsa k, rfl⟩
  | ecdsaP256 k => exact ⟨.ecdsaP256Sha256, .ecdsaP256 k, rfl⟩

/-! ### Lengths of signatures -/

/-- Under either padding an RSA signature is a number below the modulus, written with as many bytes
as the modulus has. -/
theorem exists_of_signature?_rsa {k : Rsa.PrivateKey} {padding : Padding}
    (h : (rsa k padding).signature? draw message = some signature) :
    ∃ y < k.n, ofNat k.size y = signature := by
  cases padding with
  | pkcs1v15 =>
    obtain ⟨padded, -, -, hsignature⟩ := Rsa.Pkcs1v15.sign?_eq_some_iff.1 h
    exact ⟨_, k.powerMasked_lt draw.mask (toNat padded), hsignature⟩
  | pss =>
    obtain ⟨encoded, -, -, hsignature⟩ := Rsa.Pss.sign?_eq_some_iff.1 h
    exact ⟨_, k.power_lt (toNat encoded), hsignature⟩

theorem length_le_of_signature? (h : context.signature? draw message = some signature) :
    signature.length ≤ context.signatureLength := by
  cases context with
  | ed25519 seed =>
    obtain rfl := Option.some.inj h
    exact (Ed25519.length_sign seed message).le
  | rsa k padding =>
    obtain ⟨y, -, rfl⟩ := exists_of_signature?_rsa h
    exact (length_ofNat k.size y).le
  | ecdsaP256 k =>
    obtain ⟨r, s, -, hr, hs, rfl⟩ := Ecdsa.exists_scalars_of_sign? h
    exact (EcdsaSignature.length_toDer_of_lt (hr.2.trans Ecdsa.order_lt)
      (hs.2.trans Ecdsa.order_lt)).2

/-! ### Signing -/

/-- With the room that was asked for, what the primitive gives is written, and only where it gives
nothing is there an error. -/
theorem signInto_of_le (h : context.signatureLength ≤ room.length) :
    context.signInto draw message room = (Key.primitive (context.signature? draw message)).map
      fun signature => (signature ++ room.drop signature.length, signature.length) := by
  unfold signInto
  cases hsignature : context.signature? draw message with
  | none => rfl
  | some signature => exact copyOut_of_le ((length_le_of_signature? hsignature).trans h)

/-- The signature of a private key is that of its context, and nothing is cut off. -/
theorem sign_eq_primitive (h : ofScheme scheme key = .ok context) (draw : Draw) (message : Bytes) :
    (Key.ofPrivate key).sign scheme draw message
      = Key.primitive (context.signature? draw message) := by
  have hrequire : (Key.ofPrivate key).require (some scheme.algorithm) true = .ok () :=
    Key.require_eq_ok_iff.2 ⟨algorithm_of_ofScheme h, fun _ => rfl⟩
  have hroom : context.signatureLength
      ≤ (List.replicate context.signatureLength (0 : UInt8)).length := List.length_replicate.ge
  simp only [Key.sign, Key.signChecked, hrequire, h, bind, Except.bind, signInto_of_le hroom]
  cases context.signature? draw message with
  | none => rfl
  | some signature => exact congrArg Except.ok List.take_left

end SigningContext

end Keyring
