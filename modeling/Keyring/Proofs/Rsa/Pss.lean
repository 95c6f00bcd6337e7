import Keyring.Proofs.Rsa.Pss.Encoding
import Keyring.Proofs.Rsa.Size
/-!
# Signatures with a salt

An encoded message has one bit fewer than the modulus, and so it is below the modulus. As with the
fixed padding, what signing returns passes the test of verifying because signing has checked it.
-/

namespace Keyring.Rsa.Pss

open Bytes

variable {bits : ℕ} {message salt encoded : Bytes}

/-! ### Signing and verifying -/

theorem toNat_lt_n_of_encode? {key : PublicKey}
    (h : encode? (encodedBits key) message salt = some encoded) : toNat encoded < key.n :=
  lt_of_lt_of_le (toNat_lt_of_encode? h) key.pow_le_n

theorem sign?_eq_some_iff {key : PrivateKey} {signature : Bytes} :
    sign? key message salt = some signature ↔ ∃ encoded,
      encode? (encodedBits key.toPublicKey) message salt = some encoded ∧
      key.apply (key.power (toNat encoded)) = toNat encoded ∧
      ofNat key.size (key.power (toNat encoded)) = signature := by
  simp only [sign?, Option.bind_eq_bind, Option.bind_eq_some_iff,
    PrivateKey.checked?_eq_some_iff, Option.some_inj]
  constructor
  · rintro ⟨encoded, hencode, _, ⟨⟨-, happly⟩, rfl⟩, hsignature⟩
    exact ⟨encoded, hencode, happly, hsignature⟩
  · rintro ⟨encoded, hencode, happly, hsignature⟩
    exact ⟨encoded, hencode, _, ⟨⟨toNat_lt_n_of_encode? hencode, happly⟩, rfl⟩, hsignature⟩

/-- A signature is valid exactly if its public power is the encoding of the message, with a salt as
long as the digest or with one of the greatest length. -/
theorem verify_eq_true_iff {key : PublicKey} {signature : Bytes} :
    verify key message signature = true ↔ signature.length = key.size ∧
      ∃ salt : Bytes, (salt.length = saltLength ∨
          saltLength < maxSaltLength key ∧ salt.length = maxSaltLength key) ∧
        encode? (encodedBits key) message salt = some
          (ofNat (encodedLength (encodedBits key)) (key.apply (toNat signature))) := by
  have hencoded := length_ofNat (encodedLength (encodedBits key)) (key.apply (toNat signature))
  simp only [verify, Bool.and_eq_true, Bool.or_eq_true, decide_eq_true_eq,
    isEncoding_eq_true_iff hencoded]
  refine and_congr_right fun _ => ?_
  -- the two salt lengths are two runs of the decoder, read here as one salt of either length.
  constructor
  · rintro (⟨salt, hsalt, h⟩ | ⟨hlt, salt, hsalt, h⟩)
    · exact ⟨salt, .inl hsalt, h⟩
    · exact ⟨salt, .inr ⟨hlt, hsalt⟩, h⟩
  · rintro ⟨salt, hsalt | ⟨hlt, hsalt⟩, h⟩
    · exact .inl ⟨salt, hsalt, h⟩
    · exact .inr ⟨hlt, salt, hsalt, h⟩

/-- What is signed is valid. The factors need not be prime, since the result was checked. -/
theorem verify_of_sign? {key : PrivateKey} {signature : Bytes} (hsalt : salt.length = saltLength)
    (h : sign? key message salt = some signature) :
    verify key.toPublicKey message signature = true := by
  obtain ⟨encoded, hencode, happly, rfl⟩ := sign?_eq_some_iff.1 h
  have hread := key.toNat_ofNat_size (key.power_lt (toNat encoded))
  refine verify_eq_true_iff.2 ⟨length_ofNat _ _, salt, .inl hsalt, ?_⟩
  rw [hread, happly, ← length_of_encode? hencode, ofNat_toNat]
  exact hencode

/-! ### The size of the modulus -/

/-- A message has an encoding with every salt that there is room for. -/
theorem exists_encode?_iff (message : Bytes) :
    (∃ encoded, encode? bits message salt = some encoded) ↔
      34 + salt.length ≤ encodedLength bits := by
  constructor
  · rintro ⟨encoded, h⟩
    exact (encode?_eq_some_iff.1 h).1
  · intro hlength
    exact ⟨_, encode?_eq_some_iff.2 ⟨hlength, rfl⟩⟩

theorem encode?_eq_none_iff :
    encode? bits message salt = none ↔ encodedLength bits < 34 + salt.length := by
  rw [← not_le, ← exists_encode?_iff message, ← Option.ne_none_iff_exists', not_not]

theorem sign?_eq_none_of_lt {key : PrivateKey}
    (h : encodedLength (encodedBits key.toPublicKey) < 66) (message : Bytes)
    (hsalt : salt.length = saltLength) : sign? key message salt = none := by
  have hnone : encode? (encodedBits key.toPublicKey) message salt = none :=
    encode?_eq_none_iff.2 (by rw [hsalt]; exact h)
  simp [sign?, hnone]

/-- The greatest length counts only where a digest would fit as the salt. So a valid signature has
such a modulus, and the salt of its encoding is as long as the digest or leaves no zeros. -/
theorem verify_eq_true_iff_room {key : PublicKey} {signature : Bytes} :
    verify key message signature = true ↔ signature.length = key.size ∧
      66 ≤ encodedLength (encodedBits key) ∧
      ∃ salt : Bytes, (salt.length = 32 ∨ salt.length + 34 = encodedLength (encodedBits key)) ∧
        encode? (encodedBits key) message salt = some
          (ofNat (encodedLength (encodedBits key)) (key.apply (toNat signature))) := by
  have hdigest : saltLength = 32 := rfl
  -- a salt like the digest takes 66 bytes, and the longest one is tried only if it is longer.
  have hlongest : maxSaltLength key = encodedLength (encodedBits key) - 34 := Nat.sub_sub _ _ _
  rw [verify_eq_true_iff]
  refine and_congr_right fun _ => ?_
  constructor
  · rintro ⟨salt, hsalt, hencode⟩
    have hfits := (encode?_eq_some_iff.1 hencode).1
    exact ⟨by omega, salt, by omega, hencode⟩
  · rintro ⟨hroom, salt, hsalt, hencode⟩
    exact ⟨salt, by omega, hencode⟩

theorem verify_eq_false_of_lt {key : PublicKey} (h : encodedLength (encodedBits key) < 66)
    (message signature : Bytes) : verify key message signature = false := by
  rw [Bool.eq_false_iff]
  intro hverify
  exact absurd (verify_eq_true_iff_room.1 hverify).2.1 (Nat.not_le.2 h)

/-- A signature whose public power is the encoding with a salt of one of the two lengths is valid if
and only if the modulus has room for a salt as long as the digest. -/
theorem verify_of_encode? {key : PublicKey} {signature : Bytes}
    (hsalt : salt.length = saltLength ∨ salt.length = maxSaltLength key)
    (hencode : encode? (encodedBits key) message salt = some encoded)
    (hsize : signature.length = key.size) (happly : key.apply (toNat signature) = toNat encoded) :
    verify key message signature = decide (66 ≤ encodedLength (encodedBits key)) := by
  have hlongest : maxSaltLength key = encodedLength (encodedBits key) - 34 := Nat.sub_sub _ _ _
  have hfits := (encode?_eq_some_iff.1 hencode).1
  rw [Bool.eq_iff_iff, decide_eq_true_eq]
  constructor
  · intro hverify
    exact (verify_eq_true_iff_room.1 hverify).2.1
  · intro hroom
    refine verify_eq_true_iff_room.2 ⟨hsize, hroom, salt, ?_, ?_⟩
    -- with 66 bytes the longest salt is at least as long as the digest.
    · exact hsalt.imp_right fun h => by omega
    · rw [happly, ← length_of_encode? hencode, ofNat_toNat]
      exact hencode

/-- If the public power is an encoding with a salt of any other length, the signature is not
valid: the encoding has no other salt. -/
theorem verify_eq_false_of_encode? {key : PublicKey} {signature : Bytes}
    (hdigest : salt.length ≠ 32) (hlongest : salt.length + 34 ≠ encodedLength (encodedBits key))
    (hencode : encode? (encodedBits key) message salt = some
      (ofNat (encodedLength (encodedBits key)) (key.apply (toNat signature)))) :
    verify key message signature = false := by
  rw [Bool.eq_false_iff]
  intro hverify
  obtain ⟨-, -, salt', hsalt', hencode'⟩ := verify_eq_true_iff_room.1 hverify
  obtain rfl := salt_eq_of_encode? hencode hencode'
  rcases hsalt' with h | h
  · exact hdigest h
  · exact hlongest h

/-- A key whose private operation is undone by the public one signs if its modulus is long
enough. -/
theorem isSome_sign?_iff {key : PrivateKey} (hkey : key.IsUndone)
    (hsalt : salt.length = saltLength) :
    (sign? key message salt).isSome ↔ 66 ≤ encodedLength (encodedBits key.toPublicKey) := by
  constructor
  · intro h
    by_contra hlt
    rw [sign?_eq_none_of_lt (Nat.lt_of_not_le hlt) message hsalt] at h
    cases h
  · intro hsize
    -- the salt has the length of the digest, so what has to fit is 32 + 34.
    have hfits : 34 + salt.length ≤ encodedLength (encodedBits key.toPublicKey) := by
      rw [hsalt]
      exact hsize
    obtain ⟨encoded, hencode⟩ := (exists_encode?_iff message).2 hfits
    refine Option.isSome_iff_exists.2 ⟨_, sign?_eq_some_iff.2 ⟨encoded, hencode, ?_, rfl⟩⟩
    exact hkey _ (toNat_lt_n_of_encode? hencode)

end Keyring.Rsa.Pss
