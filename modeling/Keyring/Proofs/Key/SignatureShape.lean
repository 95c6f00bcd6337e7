import Keyring.Fixed
import Keyring.Proofs.Key.NamedCurve
import Keyring.Proofs.Key.RsaSignature
/-!
# The shape of signatures

Whatever a key signs has a shape that the scheme fixes: 64 bytes, as many bytes as the modulus has,
or the encoding of two scalars in at most 72 bytes. The room that is made for a signature is never
too small for it.
-/

namespace Keyring

open Bytes

/-! ### Room for a signature -/

/-- The room that a context asks for is enough, whatever it signs. -/
structure SigningContext.AsksForEnough (context : SigningContext) : Prop where
  length_le : ∀ draw message signature, context.signature? draw message = some signature →
    signature.length ≤ context.signatureLength
  /-- A signature is copied as it is, into any room that is as long as was asked for. -/
  copyOut_eq : ∀ draw message signature (room : Bytes),
    context.signature? draw message = some signature → context.signatureLength ≤ room.length →
      copyOut signature room = .ok (signature ++ room.drop signature.length, signature.length)
  /-- An error is that of the primitive. -/
  signInto_eq_error_iff : ∀ draw message (room : Bytes) e, context.signatureLength ≤ room.length →
    (context.signInto draw message room = .error e ↔
      context.signature? draw message = none ∧ e = .cryptoFailure)
  /-- The context is that of some key. -/
  exists_key : ∃ scheme key, ofScheme scheme key = .ok context
  /-- A key of the context signs what the primitive gives, uncut, and fails only with it. -/
  sign_eq : ∀ scheme key, ofScheme scheme key = .ok context → ∀ draw message,
    (Key.ofPrivate key).sign scheme draw message = Key.primitive (context.signature? draw message)

theorem SigningContext.asksForEnough (context : SigningContext) : context.AsksForEnough where
  length_le _ _ _ := length_le_of_signature?
  copyOut_eq _ _ _ _ hsignature hroom :=
    copyOut_of_le ((length_le_of_signature? hsignature).trans hroom)
  signInto_eq_error_iff draw message room e hroom := by
    rw [signInto_of_le hroom]
    cases context.signature? draw message with
    | none =>
      show Except.error Error.cryptoFailure = Except.error e ↔ _
      rw [Except.error.injEq, eq_comm, and_iff_right rfl]
    | some signature => exact iff_of_false nofun nofun
  exists_key := exists_eq_ofScheme context
  sign_eq _ _ := sign_eq_primitive

namespace Key

variable {key : Key} {scheme : Scheme} {draw : Draw} {message signature : Bytes}

/-! ### The shape under each scheme -/

/-- A key that signs has a context, and the signature is that of its primitive. -/
theorem exists_context_of_sign (h : key.sign scheme draw message = .ok signature) :
    ∃ k context, key = .ofPrivate k ∧ SigningContext.ofScheme scheme k = .ok context ∧
      context.signature? draw message = some signature := by
  obtain ⟨halgorithm, hprivate⟩ := algorithm_of_sign h
  cases key with
  | ofPublic k => cases hprivate
  | ofPrivate k =>
    obtain ⟨context, hcontext⟩ := SigningContext.exists_ofScheme halgorithm
    rw [SigningContext.sign_eq_primitive hcontext, primitive_eq_ok_iff] at h
    exact ⟨k, context, rfl, hcontext, h⟩

theorem length_of_sign_ed25519 (h : key.sign .ed25519 draw message = .ok signature) :
    signature.length = 64 := by
  obtain ⟨k, context, -, hcontext, hsignature⟩ := exists_context_of_sign h
  cases k <;> cases hcontext
  obtain rfl := Option.some.inj hsignature
  exact Ed25519.length_sign _ message

/-- Whichever the padding, the number of a signature is below the modulus, and the bytes that it
leaves free are zero. -/
theorem exists_of_sign_rsa (hscheme : scheme.algorithm = .rsa)
    (h : key.sign scheme draw message = .ok signature) :
    ∃ k, key.publicKey = .rsa k ∧ ∃ y < k.n, signature = ofNat k.size y := by
  obtain ⟨k, context, rfl, hcontext, hsignature⟩ := exists_context_of_sign h
  cases scheme <;> cases hscheme <;> cases k <;> cases hcontext
  -- one goal for each padding.
  all_goals
    obtain ⟨y, hlt, hy⟩ := SigningContext.exists_of_signature?_rsa hsignature
    exact ⟨_, rfl, y, hlt, hy.symm⟩

theorem exists_scalars_of_sign (h : key.sign .ecdsaP256Sha256 draw message = .ok signature) :
    ∃ r s : Bytes, EcdsaSignature.parse signature = .ok ⟨r, s⟩ ∧
      (0 < toNat r ∧ toNat r < P256.order) ∧ (0 < toNat s ∧ toNat s < P256.order) ∧
      EcdsaSignature.toDer ⟨r, s⟩ = signature := by
  obtain ⟨k, context, -, hcontext, hsignature⟩ := exists_context_of_sign h
  cases k <;> cases hcontext
  exact Ecdsa.exists_scalars_of_sign? hsignature

/-- What is promised of the signatures of a key, by their schemes. -/
structure SignsInShape (key : Key) : Prop where
  ed25519 : ∀ draw message signature, key.sign .ed25519 draw message = .ok signature →
    signature.length = 64
  /-- Both RSA schemes give as many bytes as the modulus has, with the zeros in front of a small
  number. -/
  rsa : ∀ scheme, scheme.algorithm = .rsa → ∀ draw message signature,
    key.sign scheme draw message = .ok signature → ∃ k, key.publicKey = .rsa k ∧
      signature.length = (k.bits + 7) / 8 ∧ ∃ y < k.n, signature = ofNat ((k.bits + 7) / 8) y
  ecdsaP256 : ∀ draw message signature,
    key.sign .ecdsaP256Sha256 draw message = .ok signature →
      8 ≤ signature.length ∧ signature.length ≤ 72 ∧
      ∃ r s, Fixed.parseEcdsaSignature signature = .ok ⟨r, s⟩ ∧
        (1 ≤ toNat r ∧ toNat r < P256.order) ∧ (1 ≤ toNat s ∧ toNat s < P256.order) ∧
        Fixed.buildEcdsaSignature r s = signature

theorem signsInShape (key : Key) : key.SignsInShape where
  ed25519 _ _ _ := length_of_sign_ed25519
  rsa scheme hscheme draw message signature h := by
    obtain ⟨k, hkey, y, hlt, rfl⟩ := exists_of_sign_rsa hscheme h
    exact ⟨k, hkey, length_ofNat k.size y, y, hlt, rfl⟩
  ecdsaP256 draw message signature h := by
    obtain ⟨r, s, hparse, hr, hs, rfl⟩ := exists_scalars_of_sign h
    obtain ⟨hle, hge⟩ := EcdsaSignature.length_toDer_of_lt (hr.2.trans Ecdsa.order_lt)
      (hs.2.trans Ecdsa.order_lt)
    exact ⟨hle, hge, r, s, hparse, hr, hs, rfl⟩

/-- Signatures have the shape of their scheme, two numbers of 256 bits are encoded in at most 72
bytes, and every context asks for enough room. -/
theorem sign_in_shape :
    (∀ key : Key, key.SignsInShape) ∧
    (∀ r s : Bytes, toNat r < 2 ^ 256 → toNat s < 2 ^ 256 →
      (Fixed.buildEcdsaSignature r s).length ≤ EcdsaSignature.maxP256Length) ∧
    ∀ context : SigningContext, context.AsksForEnough :=
  ⟨signsInShape, fun _ _ hr hs => (EcdsaSignature.length_toDer_of_lt hr hs).2,
    SigningContext.asksForEnough⟩

theorem exists_sign_scalarOne : ∃ signature,
    (ofPrivate (.ecdsaP256 scalarOne)).sign .ecdsaP256Sha256 (drawOfMask 1) [] = .ok signature := by
  have hsome : (Ecdsa.sign? scalarOne []).isSome := by
    simp only [Ecdsa.sign?, Ecdsa.signNumbers?, P256.smul_generator]
    decide +kernel
  rw [sign_ecdsaP256Sha256]
  exact exists_primitive_eq_ok_iff.2 hsome

/-- Keys of three algorithms sign the empty message. The greatest two numbers are encoded in as many
bytes as there is room for. -/
theorem sign_in_shape_of_empty :
    (∃ key signature, generate (drawOfMask 1) = .ok key ∧
      key.sign .ed25519 (drawOfMask 1) [] = .ok signature ∧ signature.length = 64) ∧
    (∀ scheme, scheme.algorithm = .rsa → ∃ signature,
      (ofPrivate (.rsa primeKey)).sign scheme (drawOfMask 1) [] = .ok signature ∧
        signature.length = 66) ∧
    (∃ signature,
      (ofPrivate (.ecdsaP256 scalarOne)).sign .ecdsaP256Sha256 (drawOfMask 1) [] = .ok signature ∧
        8 ≤ signature.length ∧ signature.length ≤ 72) ∧
    (Fixed.buildEcdsaSignature (List.replicate 32 0xff) (List.replicate 32 0xff)).length ≤ 72 ∧
    SigningContext.copyOut (Ed25519.sign (drawOfMask 1).seed []) (List.replicate 64 0)
      = .ok (Ed25519.sign (drawOfMask 1).seed [], 64) := by
  obtain ⟨hshape, hbuild, hroom⟩ := sign_in_shape
  refine ⟨?_, ?_, ?_, hbuild _ _ (by decide +kernel) (by decide +kernel), ?_⟩
  · have hsign := sign_ed25519 (drawOfMask 1).seed (drawOfMask 1) []
    exact ⟨_, _, rfl, hsign, (hshape _).ed25519 _ _ _ hsign⟩
  · intro scheme hscheme
    obtain ⟨signature, hsign⟩ := exists_sign_primeKey hscheme
    obtain ⟨k, hkey, hlength, -⟩ := (hshape _).rsa scheme hscheme _ _ _ hsign
    obtain rfl := PublicKey.rsa.inj hkey
    exact ⟨signature, hsign, hlength.trans (by decide +kernel)⟩
  · obtain ⟨signature, hsign⟩ := exists_sign_scalarOne
    obtain ⟨hle, hge, -⟩ := (hshape _).ecdsaP256 _ _ _ hsign
    exact ⟨signature, hsign, hle, hge⟩
  · have hcopy := (hroom (.ed25519 (drawOfMask 1).seed)).copyOut_eq (drawOfMask 1) [] _
      (List.replicate 64 0) rfl List.length_replicate.ge
    rw [hcopy, Ed25519.length_sign]
    exact congrArg Except.ok (Prod.ext (List.append_nil _) rfl)

end Key

end Keyring
