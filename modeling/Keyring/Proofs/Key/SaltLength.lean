import Keyring.Proofs.Key.RsaSignature
/-!
# The lengths of a salt

A signature may have been made with a salt as long as the digest or with the longest salt that the
modulus has room for. The second length is tried only if it is greater than the first, so under a
modulus that has no room for a digest as the salt nothing is valid, the longest salt included. An
encoded message has one salt, so with a salt of any third length nothing is valid either.
-/

namespace Keyring.Key

open Bytes

variable {key : Key} {k : Rsa.PublicKey} {message salt encoded signature : Bytes}

/-- The verdict on a signature that was made with a salt of one of the two lengths depends on the
modulus alone. -/
theorem verify_rsaPssSha256_of_encode? (hkey : key.publicKey = .rsa k)
    (hsalt : salt.length = 32 ∨ salt.length = (k.bits - 1 + 7) / 8 - 34)
    (hencode : Rsa.Pss.encode? (k.bits - 1) message salt = some encoded)
    (hsize : signature.length = k.size) (happly : k.apply (toNat signature) = toNat encoded) :
    key.verify .rsaPssSha256 message signature
      = .ok (if 66 ≤ (k.bits - 1 + 7) / 8 then .valid else .invalid) := by
  -- the longest salt as the decoder computes it.
  have hlength : salt.length = Rsa.Pss.saltLength ∨ salt.length = Rsa.Pss.maxSaltLength k := by
    refine hsalt.imp_right fun h => h.trans ?_
    show _ = (k.bits - 1 + 7) / 8 - 32 - 2
    omega
  rw [verify_rsaPssSha256 hkey, Rsa.Pss.verify_of_encode? hlength hencode hsize happly]
  simp only [Verdict.ofBool, decide_eq_true_eq]
  rfl

/-- What a key with the given public half accepts under the scheme with a salt. -/
structure AcceptsTwoSaltLengths (key : Key) (k : Rsa.PublicKey) : Prop where
  /-- A valid signature is as long as the modulus, and the low-order bytes of its public power are
  the encoding of the message with a salt as long as the digest or with the longest salt. -/
  valid_iff : ∀ message signature, key.verify .rsaPssSha256 message signature = .ok .valid ↔
    signature.length = k.size ∧ 66 ≤ (k.bits - 1 + 7) / 8 ∧
      ∃ salt : Bytes, (salt.length = 32 ∨ salt.length + 34 = (k.bits - 1 + 7) / 8) ∧
        Rsa.Pss.encode? (k.bits - 1) message salt = some
          (ofNat ((k.bits - 1 + 7) / 8) (toNat signature ^ k.e % k.n))
  /-- A signature that is properly encoded with a salt of any other length is invalid. -/
  invalid_of_encode? : ∀ message signature (salt : Bytes),
    Rsa.Pss.encode? (k.bits - 1) message salt = some
      (ofNat ((k.bits - 1 + 7) / 8) (toNat signature ^ k.e % k.n)) →
    salt.length ≠ 32 → salt.length + 34 ≠ (k.bits - 1 + 7) / 8 →
      key.verify .rsaPssSha256 message signature = .ok .invalid

/-- Every RSA key accepts the two lengths of a salt and no others. -/
theorem acceptsTwoSaltLengths_of_publicKey (hkey : key.publicKey = .rsa k) :
    AcceptsTwoSaltLengths key k where
  valid_iff message signature := by
    rw [verify_rsaPssSha256 hkey, ofBool_eq_valid_iff, Rsa.Pss.verify_eq_true_iff_room, k.apply_eq]
    rfl
  invalid_of_encode? message signature salt hencode hdigest hlongest := by
    rw [← k.apply_eq] at hencode
    rw [verify_rsaPssSha256 hkey, Rsa.Pss.verify_eq_false_of_encode? hdigest hlongest hencode]
    rfl

/-- Where the public operation undoes the private one, a message has signatures with every salt that
fits, whether they are valid or not. -/
theorem exists_signature_of_isUndone {k : Rsa.PrivateKey} (hk : k.IsUndone) (message : Bytes)
    (hfits : 34 + salt.length ≤ (k.bits - 1 + 7) / 8) :
    ∃ signature : Bytes, signature.length = k.size ∧ Rsa.Pss.encode? (k.bits - 1) message salt =
      some (ofNat ((k.bits - 1 + 7) / 8) (toNat signature ^ k.e % k.n)) := by
  obtain ⟨encoded, hencode⟩ := (Rsa.Pss.exists_encode?_iff message).2 hfits
  have hlength : encoded.length = (k.bits - 1 + 7) / 8 := Rsa.Pss.length_of_encode? hencode
  refine ⟨ofNat k.size (k.power (toNat encoded)), length_ofNat _ _, ?_⟩
  rw [← k.apply_eq, k.toNat_ofNat_size (k.power_lt _),
    hk _ (Rsa.Pss.toNat_lt_n_of_encode? hencode), ← hlength, ofNat_toNat]
  exact hencode

/-- The key with a modulus of 522 bits has signatures with salts of 32 bytes, its longest, and with
salts of 31 bytes. The first are valid and the others are not. -/
theorem acceptsTwoSaltLengths_primeKey :
    (∃ signature, (ofPrivate (.rsa primeKey)).verify .rsaPssSha256 [] signature = .ok .valid) ∧
    ∃ signature, Rsa.Pss.encode? (primeKey.bits - 1) [] (List.replicate 31 0x5a) = some
        (ofNat ((primeKey.bits - 1 + 7) / 8) (toNat signature ^ primeKey.e % primeKey.n)) ∧
      (ofPrivate (.rsa primeKey)).verify .rsaPssSha256 [] signature = .ok .invalid := by
  have hkey : (ofPrivate (.rsa primeKey)).publicKey = .rsa primeKey.toPublicKey := rfl
  have hlaw := acceptsTwoSaltLengths_of_publicKey hkey
  -- with 66 bytes the two salt lengths are one.
  have hroom : (primeKey.bits - 1 + 7) / 8 = 66 := by decide +kernel
  constructor
  · obtain ⟨signature, hsize, hencode⟩ := exists_signature_of_isUndone isUndone_primeKey []
      (show 34 + (List.replicate 32 (0x5a : UInt8)).length ≤ (primeKey.bits - 1 + 7) / 8 from
        hroom.ge)
    exact ⟨signature, (hlaw.valid_iff [] signature).2
      ⟨hsize, hroom.ge, _, .inl List.length_replicate, hencode⟩⟩
  · obtain ⟨signature, -, hencode⟩ := exists_signature_of_isUndone isUndone_primeKey []
      (show 34 + (List.replicate 31 (0x5a : UInt8)).length ≤ (primeKey.bits - 1 + 7) / 8 by
        rw [hroom]
        decide)
    refine ⟨signature, hencode, hlaw.invalid_of_encode? [] signature _ hencode (by decide) ?_⟩
    rw [hroom]
    decide

/-! ### A modulus of 512 bits -/

/-- A key whose modulus is the product of two primes of 256 bits. The longest salt has 30 bytes. -/
def narrowKey : Rsa.PublicKey where
  n := 0xb970ddc94497c83e0eaa47f0a7b08dd57ce3d89d2850d2c88d83020aae2bdaf35b119cea1b4340831c754b1b801a741066725a98b9969d4ef353ec430db1f4a7
  e := 65537
  n_odd := by decide +kernel
  e_odd := by decide
  three_le_e := by decide
  e_le := by decide
  e_lt_n := by decide +kernel

/-- A signature of the text `abc` under that key, made with a salt of the greatest length. -/
def narrowSignature : Bytes :=
  ofNat 64 0x3b4a641a24041ec53730954102185ca7d985bd5e7a221672419f9b89095aaf00aa601e9a9e332b61315021a8c43740a521838c9c63a7801e5857565c72cfd914

theorem bits_narrowKey : narrowKey.bits = 512 := by decide +kernel

theorem obtainable_narrowKey : Obtainable (ofPublic (.rsa narrowKey)) :=
  obtainable_ofPublic_rsa (by rw [bits_narrowKey]; decide)

/-- The public power of the signature is the encoding of the text with a salt of 30 bytes. -/
theorem exists_encode?_narrowKey : ∃ encoded,
    Rsa.Pss.encode? (narrowKey.bits - 1) [0x61, 0x62, 0x63] (List.replicate 30 0x5a) = some encoded ∧
      narrowKey.apply (toNat narrowSignature) = toNat encoded := by
  have hpower : (Rsa.Pss.encode? (narrowKey.bits - 1) [0x61, 0x62, 0x63]
      (List.replicate 30 0x5a)).map toNat = some (narrowKey.apply (toNat narrowSignature)) := by
    decide +kernel
  obtain ⟨encoded, hencode, happly⟩ := Option.map_eq_some_iff.1 hpower
  exact ⟨encoded, hencode, happly.symm⟩

/-- The longest salt under the key with 522 bits is as long as the digest and is accepted; the one
under the key with 512 bits is not. -/
theorem verify_primeKey_narrowKey :
    (∃ signature, (ofPrivate (.rsa primeKey)).verify .rsaPssSha256 [] signature = .ok .valid) ∧
      (ofPublic (.rsa narrowKey)).verify .rsaPssSha256 [0x61, 0x62, 0x63] narrowSignature
        = .ok .invalid := by
  constructor
  · let salt := (drawOfMask 1).salt
    -- the modulus is just large enough to sign with a salt of 32 bytes.
    have hsome : (Rsa.Pss.sign? primeKey [] salt.val).isSome :=
      (Rsa.Pss.isSome_sign?_iff isUndone_primeKey salt.2).2 (by decide +kernel)
    obtain ⟨signature, hsign⟩ := Option.isSome_iff_exists.1 hsome
    obtain ⟨encoded, hencode, happly, rfl⟩ := Rsa.Pss.sign?_eq_some_iff.1 hsign
    have hread := primeKey.toNat_ofNat_size (primeKey.power_lt (toNat encoded))
    have hkey : (ofPrivate (.rsa primeKey)).publicKey = .rsa primeKey.toPublicKey := rfl
    refine ⟨_, (verify_rsaPssSha256_of_encode? hkey (.inl salt.2) hencode (length_ofNat _ _)
      (hread.symm ▸ happly)).trans ?_⟩
    rw [if_pos (by decide +kernel)]
  · obtain ⟨encoded, hencode, happly⟩ := exists_encode?_narrowKey
    have hkey : (ofPublic (.rsa narrowKey)).publicKey = .rsa narrowKey := rfl
    have hsalt : (List.replicate 30 (0x5a : UInt8)).length = (narrowKey.bits - 1 + 7) / 8 - 34 := by
      rw [bits_narrowKey]
      rfl
    have hsize : narrowSignature.length = narrowKey.size := by decide +kernel
    rw [verify_rsaPssSha256_of_encode? hkey (.inr hsalt) hencode hsize happly, bits_narrowKey]
    rfl

/-- A signature that was made with the longest salt for the modulus is not valid. -/
theorem narrowKey_refuses_longest_salt :
    Obtainable (ofPublic (.rsa narrowKey)) ∧ 34 ≤ (narrowKey.bits - 1 + 7) / 8 ∧
      (∃ salt encoded : Bytes, salt.length = (narrowKey.bits - 1 + 7) / 8 - 34 ∧
        Rsa.Pss.encode? (narrowKey.bits - 1) [0x61, 0x62, 0x63] salt = some encoded ∧
        narrowSignature.length = narrowKey.size ∧
        narrowKey.apply (toNat narrowSignature) = toNat encoded) ∧
      (ofPublic (.rsa narrowKey)).verify .rsaPssSha256 [0x61, 0x62, 0x63] narrowSignature
        ≠ .ok .valid := by
  obtain ⟨encoded, hencode, happly⟩ := exists_encode?_narrowKey
  refine ⟨obtainable_narrowKey, ?_, ⟨_, encoded, ?_, hencode, by decide +kernel, happly⟩, ?_⟩
  · rw [bits_narrowKey]
    decide
  · rw [bits_narrowKey]
    rfl
  -- below 66 bytes neither salt length is accepted.
  · have hsmall : Rsa.Pss.encodedLength (Rsa.Pss.encodedBits narrowKey) < 66 := by decide +kernel
    rw [verify_rsaPssSha256 rfl, Rsa.Pss.verify_eq_false_of_lt hsmall]
    decide

end Keyring.Key
