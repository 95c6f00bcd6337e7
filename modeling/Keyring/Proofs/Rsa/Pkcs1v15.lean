import Keyring.Proofs.Der.Element
import Keyring.Proofs.Hash.Sha2
import Keyring.Proofs.Rsa.Size
import Keyring.Rsa.Pkcs1v15
/-!
# Signatures with the fixed padding

The padded digest takes 62 bytes at least, and it begins with a zero, so it is below the modulus.
What signing returns passes the test of verifying, because signing has checked it. Where the public
operation undoes the private one, signing fails for shorter moduli alone, and no other byte string
passes the test: the public operation is injective.
-/

namespace Keyring.Rsa.Pkcs1v15

open Bytes Der

/-! ### The padded digest -/

/-- The digest with its identifier takes 51 bytes. -/
theorem length_digestInfo (message : Bytes) : (digestInfo message).length = 51 := by
  let identifier := Element.sequence
    [⟨.objectIdentifier, [0x60, 0x86, 0x48, 0x01, 0x65, 0x03, 0x04, 0x02, 0x01]⟩, ⟨.null, []⟩]
  let digest := Element.octets (Hash.sha256 message)
  have hidentifier : identifier.encode.length = 15 := by decide
  -- the digest is the only part that is not fixed, and its length is.
  have hdigest : digest.encode.length = 34 := by
    have hbody : digest.body.length = 32 := Hash.length_sha256 message
    rw [Element.length_encode_of_lt (by omega), hbody]
  have hbody : (Element.sequence [identifier, digest]).body.length = 49 := by
    show (Element.encodeAll [identifier, digest]).length = 49
    simp only [Element.encodeAll_cons, Element.encodeAll_nil, List.length_append, hidentifier,
      hdigest, List.length_nil]
  show (Element.sequence [identifier, digest]).encode.length = 51
  rw [Element.length_encode_of_lt (by omega), hbody]

/-- The padding fails for fewer than 62 bytes. -/
theorem pad?_eq_none_iff {k : ℕ} {message : Bytes} : pad? k message = none ↔ k < 62 := by
  simp [pad?, length_digestInfo]

/-- The padded digest has the length that is asked for, and its first byte is zero. -/
theorem pad?_spec {k : ℕ} {message padded : Bytes} (h : pad? k message = some padded) :
    padded.length = k ∧ toNat padded < 256 ^ (k - 1) := by
  have hk : ¬ k < 62 := fun hlt => by rw [pad?_eq_none_iff.2 hlt] at h; cases h
  have hinfo := length_digestInfo message
  unfold pad? at h
  rw [if_neg (by omega), hinfo] at h
  obtain rfl := Option.some.inj h
  -- behind the leading zero there is one byte less than asked for.
  have hrest : (1 :: List.replicate (k - 51 - 3) (0xff : UInt8) ++ 0 :: digestInfo message).length
      = k - 1 := by
    simp only [List.length_append, List.length_cons, List.length_replicate, hinfo]
    omega
  constructor
  · rw [List.cons_append, List.length_cons, hrest]
    omega
  · rw [List.cons_append, toNat_zero_cons, ← hrest]
    exact toNat_lt _

/-! ### Signing and verifying -/

/-- A signature is a power of the padded digest that gives it back. -/
theorem sign?_eq_some_iff {key : PrivateKey} {mask : ℕ} {message signature : Bytes} :
    sign? key mask message = some signature ↔ ∃ padded, pad? key.size message = some padded ∧
      key.apply (key.powerMasked mask (toNat padded)) = toNat padded ∧
      ofNat key.size (key.powerMasked mask (toNat padded)) = signature := by
  simp only [sign?, Option.bind_eq_bind, Option.bind_eq_some_iff,
    PrivateKey.checked?_eq_some_iff, Option.some_inj]
  constructor
  · rintro ⟨padded, hpad, _, ⟨⟨-, happly⟩, rfl⟩, hsignature⟩
    exact ⟨padded, hpad, happly, hsignature⟩
  · rintro ⟨padded, hpad, happly, hsignature⟩
    exact ⟨padded, hpad, _, ⟨⟨key.lt_n_of_lt_pow (pad?_spec hpad).2, happly⟩, rfl⟩, hsignature⟩

/-- A valid signature is a number below the modulus whose power is the padded digest. -/
theorem verify_eq_true_iff {key : PublicKey} {message signature : Bytes} :
    verify key message signature = true ↔ signature.length = key.size ∧ toNat signature < key.n ∧
      ∃ padded, pad? key.size message = some padded ∧
        key.apply (toNat signature) = toNat padded := by
  simp only [verify, Bool.and_eq_true, decide_eq_true_eq, and_assoc]
  refine and_congr_right fun _ => and_congr_right fun _ => ?_
  have happly := key.toNat_ofNat_size (key.apply_lt (toNat signature))
  constructor
  · intro hpad
    exact ⟨_, hpad, happly.symm⟩
  · rintro ⟨padded, hpad, hroot⟩
    rw [hpad, hroot, key.ofNat_size_toNat (pad?_spec hpad).1]

/-- What is signed is valid. The factors need not be prime, since the result was checked. -/
theorem verify_of_sign? {key : PrivateKey} {mask : ℕ} {message signature : Bytes}
    (h : sign? key mask message = some signature) :
    verify key.toPublicKey message signature = true := by
  obtain ⟨padded, hpad, happly, rfl⟩ := sign?_eq_some_iff.1 h
  have hlt := key.powerMasked_lt mask (toNat padded)
  have hread := key.toNat_ofNat_size hlt
  refine verify_eq_true_iff.2 ⟨length_ofNat _ _, ?_, padded, hpad, ?_⟩
  · rwa [hread]
  · rwa [hread]

/-! ### The size of the modulus -/

theorem sign?_eq_none_of_lt {key : PrivateKey} (h : key.size < 62) (mask : ℕ) (message : Bytes) :
    sign? key mask message = none := by
  simp [sign?, pad?_eq_none_iff.2 h]

theorem verify_eq_false_of_lt {key : PublicKey} (h : key.size < 62) (message signature : Bytes) :
    verify key message signature = false := by
  simp [verify, pad?_eq_none_iff.2 h]

variable {key : PrivateKey}

/-- A key whose private operation is undone by the public one signs if its modulus is long
enough. -/
theorem isSome_sign?_iff (hkey : key.IsUndone) {mask : ℕ} {message : Bytes} :
    (sign? key mask message).isSome ↔ 62 ≤ key.size := by
  constructor
  · intro h
    by_contra hlt
    rw [sign?_eq_none_of_lt (Nat.lt_of_not_le hlt)] at h
    cases h
  · intro hsize
    obtain ⟨padded, hpad⟩ : ∃ padded, pad? key.size message = some padded := by
      rw [← Option.ne_none_iff_exists', ne_eq, pad?_eq_none_iff]
      omega
    -- the leading zero keeps the padded message below the modulus.
    have hlt := key.lt_n_of_lt_pow (pad?_spec hpad).2
    refine Option.isSome_iff_exists.2 ⟨_, sign?_eq_some_iff.2 ⟨padded, hpad, ?_, rfl⟩⟩
    rw [hkey.powerMasked_eq mask hlt, hkey _ hlt]

/-- It has one signature for each message. -/
theorem verify_eq_true_iff_eq (hkey : key.IsUndone) {mask : ℕ} {message signature : Bytes}
    (h : sign? key mask message = some signature) {b : Bytes} :
    verify key.toPublicKey message b = true ↔ b = signature := by
  constructor
  · intro hb
    obtain ⟨hlength, hlt, padded, hpad, hroot⟩ := verify_eq_true_iff.1 hb
    obtain ⟨padded', hpad', hroot', rfl⟩ := sign?_eq_some_iff.1 h
    obtain rfl : padded = padded' := Option.some.inj (hpad.symm.trans hpad')
    -- both numbers are roots of the padded digest, and it has one below the modulus.
    have hnumber : toNat b = key.powerMasked mask (toNat padded) :=
      hkey.apply_injOn hlt (key.powerMasked_lt mask _) (hroot.trans hroot'.symm)
    rw [← hnumber, key.ofNat_size_toNat hlength]
  · rintro rfl
    exact verify_of_sign? h

end Keyring.Rsa.Pkcs1v15
