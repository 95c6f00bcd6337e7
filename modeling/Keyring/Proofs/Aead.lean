import Keyring.Fixed
import Keyring.Proofs.Bytes
/-!
# Encryption and decryption undo each other

The text is masked with a string that depends on the key, the nonce and the length of the text
alone, so masking undoes itself; the tag is computed from the masked text on both sides. Whatever
enters through one of the entry points, the result is the same pair of inverse functions, stated
once as `ExactInverse`.
-/

namespace Keyring

open Bytes Cipher

/-! ### The mode -/

namespace Cipher.Gcm

variable {cipher : Block → Block} {nonce text body seen : Bytes}

/-- The mask comes in whole blocks. -/
@[simp] theorem length_mask (cipher : Block → Block) (nonce : Bytes) (n : Nat) :
    (mask cipher nonce n).length = (n + 15) / 16 * 16 := by
  simp [mask, List.length_flatMap, Block.length_toBytes, blockLength]

/-- The mask covers the text that it is made for. -/
theorem le_length_mask (cipher : Block → Block) (nonce : Bytes) (n : Nat) :
    n ≤ (mask cipher nonce n).length := by
  rw [length_mask]
  omega

/-- The cipher in counter mode keeps the length. -/
@[simp] theorem length_crypt (cipher : Block → Block) (nonce text : Bytes) :
    (crypt cipher nonce text).length = text.length := by
  rw [crypt, length_xor, Nat.min_eq_left (le_length_mask cipher nonce text.length)]

/-- The mask depends on the length of the text alone, which masking keeps. -/
@[simp] theorem crypt_crypt (cipher : Block → Block) (nonce text : Bytes) :
    crypt cipher nonce (crypt cipher nonce text) = text := by
  have hlen := length_crypt cipher nonce text
  rw [crypt, hlen, crypt, xor_xor_cancel (le_length_mask cipher nonce text.length)]

@[simp] theorem length_tag (cipher : Block → Block) (nonce body : Bytes) :
    (tag cipher nonce body).length = tagLength :=
  Block.length_toBytes _

/-- A tag is accepted if and only if it is the one that is computed, and the text that comes out is
the one that goes in for the same masked text and tag. -/
theorem decrypt?_eq_some_iff :
    decrypt? cipher nonce body seen = some text ↔
      encrypt cipher nonce text = body ++ seen ∧ seen.length = tagLength := by
  simp only [decrypt?, Option.ite_none_right_eq_some, Option.some.injEq, encrypt]
  constructor
  · rintro ⟨rfl, rfl⟩
    rw [crypt_crypt]
    exact ⟨rfl, length_tag ..⟩
  · rintro ⟨h, hlen⟩
    -- the tags are of one length, so the masked texts and the tags are equal each for itself.
    obtain ⟨rfl, rfl⟩ := List.append_inj' h (by rw [length_tag, hlen])
    exact ⟨rfl, crypt_crypt ..⟩

/-- A ciphertext is longer than its text by the tag. -/
theorem length_encrypt (cipher : Block → Block) (nonce text : Bytes) :
    (encrypt cipher nonce text).length = text.length + tagLength := by
  rw [encrypt, List.length_append, length_crypt, length_tag]

end Cipher.Gcm

namespace Aead

/-- The number of bytes of the longest text under one nonce: the counter has 32 bits, and two of its
values do not mask text. -/
def maxTextLength : Nat := 2 ^ 36 - 32

/-- The library allows no text that the mode of operation does not. -/
theorem maxTextLength_le : maxTextLength ≤ Gcm.maxLength := by
  norm_num [maxTextLength, Gcm.maxLength, Nat.shiftLeft_eq]

/-- Two functions are exact inverses within the limits of the mode: each takes back what the other
gives, a ciphertext is longer than its text by the tag, and to each masked text belongs one tag,
while any other is a failure to verify. -/
structure ExactInverse (encrypt decrypt : Bytes → Except Error Bytes) : Prop where
  decrypt_iff : ∀ text ciphertext : Bytes, text.length ≤ maxTextLength →
    ciphertext.length ≤ maxTextLength + Gcm.tagLength →
    (decrypt ciphertext = .ok text ↔ encrypt text = .ok ciphertext)
  length_ciphertext : ∀ text ciphertext : Bytes, text.length ≤ maxTextLength →
    encrypt text = .ok ciphertext → ciphertext.length = text.length + Gcm.tagLength
  unique_tag : ∀ body : Bytes, body.length ≤ maxTextLength →
    ∃ tag : Bytes, tag.length = Gcm.tagLength ∧ (∃ text, decrypt (body ++ tag) = .ok text) ∧
      ∀ other : Bytes, other.length = Gcm.tagLength → other ≠ tag →
        decrypt (body ++ other) = .error .verifyFailure

variable {v : CipherVariant} {key nonce text body tag ciphertext : Bytes}

/-! ### The checks that come first -/

/-- A check of a length passes if and only if the length is the expected one. -/
theorem checkLength_eq_ok_iff {param : Parameter} {expected actual : Nat} {u : Unit} :
    checkLength param expected actual = .ok u ↔ actual = expected := by
  simp [checkLength, eq_comm]

theorem checkLength_of_eq {param : Parameter} {expected actual : Nat} (h : actual = expected) :
    checkLength param expected actual = .ok () :=
  if_pos h.symm

/-- A wrong length is reported together with the expected one. -/
theorem checkLength_of_ne {param : Parameter} {expected actual : Nat} (h : actual ≠ expected) :
    checkLength param expected actual = .error (.invalidArgument param expected actual) :=
  if_neg h.symm

/-- A result that is given only for a key and a nonce of the right lengths. -/
def checked (v : CipherVariant) (key nonce : Bytes) (result : Except Error Bytes) :
    Except Error Bytes := do
  checkLength .key v.keyLength key.length
  checkLength .nonce Gcm.nonceLength nonce.length
  result

section Checked

variable {result : Except Error Bytes} (result)

/-- With a key and a nonce of the right lengths the checks do not show. -/
theorem checked_of_eq (hkey : key.length = v.keyLength) (hnonce : nonce.length = Gcm.nonceLength) :
    checked v key nonce result = result := by
  rw [checked, checkLength_of_eq hkey, checkLength_of_eq hnonce]
  rfl

/-- The key is checked before all else. -/
theorem checked_of_key_ne (hkey : key.length ≠ v.keyLength) :
    checked v key nonce result = .error (.invalidArgument .key v.keyLength key.length) := by
  rw [checked, checkLength_of_ne hkey]
  rfl

/-- The nonce is checked after the key and before all else. -/
theorem checked_of_nonce_ne (hkey : key.length = v.keyLength)
    (hnonce : nonce.length ≠ Gcm.nonceLength) :
    checked v key nonce result
      = .error (.invalidArgument .nonce Gcm.nonceLength nonce.length) := by
  rw [checked, checkLength_of_eq hkey, checkLength_of_ne hnonce]
  rfl

/-- What is checked succeeds if and only if both lengths are right and the rest succeeds. -/
theorem checked_eq_ok_iff : checked v key nonce result = .ok text ↔
    key.length = v.keyLength ∧ nonce.length = Gcm.nonceLength ∧ result = .ok text := by
  simp only [checked, bind_eq_ok_iff, checkLength_eq_ok_iff, exists_const]

end Checked

/-! ### One variant -/

/-- Behind the checks the cipher takes the key. -/
theorem encryptWith_eq_checked : encryptWith v key nonce text = checked v key nonce
    (if Gcm.maxLength < text.length then .error .cryptoFailure
      else .ok (Gcm.encrypt (aes key) nonce text)) := by
  by_cases hkey : key.length = v.keyLength
  · simp only [encryptWith, checked, blockCipher, if_pos hkey]
    rfl
  · rw [checked_of_key_ne _ hkey, encryptWith, checkLength_of_ne hkey]
    rfl

/-- What decryption answers to a ciphertext that is not too short. The cases are a ciphertext that
is too long for the mode, a tag that fits, and one that does not. -/
def opened (key nonce ciphertext : Bytes) : Except Error Bytes :=
  let bodyLength := ciphertext.length - Gcm.tagLength
  if Gcm.maxLength + Gcm.tagLength < bodyLength then .error .verifyFailure
  else match Gcm.decrypt? (aes key) nonce (ciphertext.take bodyLength)
      (ciphertext.drop bodyLength) with
    | some text => .ok text
    | none => .error .verifyFailure

/-- Opening fails in one way. -/
theorem opened_eq_ok_or (key nonce ciphertext : Bytes) :
    (∃ text, opened key nonce ciphertext = .ok text) ∨
      opened key nonce ciphertext = .error .verifyFailure := by
  unfold opened
  dsimp only
  split
  · exact .inr rfl
  · split
    · exact .inl ⟨_, rfl⟩
    · exact .inr rfl

/-- What is opened is taken apart into a body and a tag. -/
theorem opened_append (hbody : body.length ≤ maxTextLength) (htag : tag.length = Gcm.tagLength) :
    opened key nonce (body ++ tag) =
      match Gcm.decrypt? (aes key) nonce body tag with
      | some text => .ok text
      | none => .error .verifyFailure := by
  have hmax : ¬ Gcm.maxLength + Gcm.tagLength < body.length :=
    Nat.not_lt.2 ((hbody.trans maxTextLength_le).trans (Nat.le_add_right _ _))
  rw [opened, List.length_append, htag, Nat.add_sub_cancel, if_neg hmax, List.take_left' rfl,
    List.drop_left' rfl]

/-- A text is shorter by the tag than what it was opened from. -/
theorem length_of_opened (h : opened key nonce ciphertext = .ok text) :
    ciphertext.length = text.length + Gcm.tagLength := by
  unfold opened at h
  dsimp only at h
  split at h
  · cases h
  · split at h
    · next hdecrypt =>
      obtain rfl := Except.ok.inj h
      -- the two parts that were told apart are the whole ciphertext.
      have hwhole := (Gcm.decrypt?_eq_some_iff.1 hdecrypt).1
      rw [List.take_append_drop] at hwhole
      rw [← hwhole, Gcm.length_encrypt]
    · cases h

/-- Decrypting checks the key, the nonce and the ciphertext, in this order, and then opens it. -/
theorem decryptWith_eq_checked : decryptWith v key nonce ciphertext = checked v key nonce
    (if ciphertext.length < Gcm.tagLength then
      .error (.invalidArgument .ciphertext Gcm.tagLength ciphertext.length)
    else opened key nonce ciphertext) := by
  by_cases hkey : key.length = v.keyLength
  · simp only [decryptWith, checked, blockCipher, if_pos hkey]
    rfl
  · rw [checked_of_key_ne _ hkey, decryptWith, checkLength_of_ne hkey]
    rfl

/-- With arguments of the right lengths, encrypting is the mode of operation itself. -/
theorem encryptWith_eq (hkey : key.length = v.keyLength) (hnonce : nonce.length = Gcm.nonceLength)
    (htext : text.length ≤ maxTextLength) :
    encryptWith v key nonce text = .ok (Gcm.encrypt (aes key) nonce text) := by
  have hmax : ¬ Gcm.maxLength < text.length :=
    Nat.not_lt.2 (htext.trans maxTextLength_le)
  rw [encryptWith_eq_checked, checked_of_eq _ hkey hnonce, if_neg hmax]

/-- With arguments of the right lengths, decrypting is the mode of operation itself. -/
theorem decryptWith_append (hkey : key.length = v.keyLength)
    (hnonce : nonce.length = Gcm.nonceLength) (hbody : body.length ≤ maxTextLength)
    (htag : tag.length = Gcm.tagLength) :
    decryptWith v key nonce (body ++ tag) =
      match Gcm.decrypt? (aes key) nonce body tag with
      | some text => .ok text
      | none => .error .verifyFailure := by
  have hlong : Gcm.tagLength ≤ (body ++ tag).length := by
    rw [List.length_append, htag]
    exact Nat.le_add_left _ _
  rw [decryptWith_eq_checked, checked_of_eq _ hkey hnonce, if_neg (Nat.not_lt.2 hlong),
    opened_append hbody htag]

/-- A ciphertext without room for a tag is an invalid argument. -/
theorem decryptWith_of_lt (hkey : key.length = v.keyLength)
    (hnonce : nonce.length = Gcm.nonceLength) (h : ciphertext.length < Gcm.tagLength) :
    decryptWith v key nonce ciphertext =
      .error (.invalidArgument .ciphertext Gcm.tagLength ciphertext.length) := by
  rw [decryptWith_eq_checked, checked_of_eq _ hkey hnonce, if_pos h]

/-- A body and a tag are decrypted to the text that is encrypted to them. -/
theorem decryptWith_append_eq_ok_iff (hkey : key.length = v.keyLength)
    (hnonce : nonce.length = Gcm.nonceLength) (hbody : body.length ≤ maxTextLength)
    (htag : tag.length = Gcm.tagLength) :
    decryptWith v key nonce (body ++ tag) = .ok text ↔
      Gcm.encrypt (aes key) nonce text = body ++ tag := by
  rw [decryptWith_append hkey hnonce hbody htag]
  have h : Gcm.decrypt? (aes key) nonce body tag = some text ↔
      Gcm.encrypt (aes key) nonce text = body ++ tag := by
    rw [Gcm.decrypt?_eq_some_iff, and_iff_left htag]
  rw [← h]
  split <;> simp_all

/-- A ciphertext splits into a masked text and a tag. -/
theorem exists_body_tag (h : Gcm.tagLength ≤ ciphertext.length) :
    ∃ body tag, ciphertext = body ++ tag ∧ tag.length = Gcm.tagLength :=
  ⟨ciphertext.take (ciphertext.length - Gcm.tagLength),
    ciphertext.drop (ciphertext.length - Gcm.tagLength), (List.take_append_drop ..).symm,
    by rw [List.length_drop]; omega⟩

/-- Encrypting and decrypting under a fixed variant undo each other. -/
theorem exactInverse_encryptWith (hkey : key.length = v.keyLength)
    (hnonce : nonce.length = Gcm.nonceLength) :
    ExactInverse (encryptWith v key nonce) (decryptWith v key nonce) where
  decrypt_iff text ciphertext htext hciphertext := by
    rw [encryptWith_eq hkey hnonce htext, Except.ok.injEq]
    by_cases hshort : ciphertext.length < Gcm.tagLength
    · -- too short for a tag: nothing is read, and nothing is written that is so short.
      rw [decryptWith_of_lt hkey hnonce hshort]
      refine iff_of_false (by simp) ?_
      rintro rfl
      rw [Gcm.length_encrypt] at hshort
      omega
    · obtain ⟨body, tag, rfl, htag⟩ := exists_body_tag (Nat.le_of_not_lt hshort)
      rw [List.length_append, htag] at hciphertext
      exact decryptWith_append_eq_ok_iff hkey hnonce (Nat.le_of_add_le_add_right hciphertext) htag
  length_ciphertext text ciphertext htext h := by
    rw [encryptWith_eq hkey hnonce htext, Except.ok.injEq] at h
    rw [← h, Gcm.length_encrypt]
  unique_tag body hbody := by
    have htag := Gcm.length_tag (aes key) nonce body
    refine ⟨Gcm.tag (aes key) nonce body, htag, ⟨Gcm.crypt (aes key) nonce body, ?_⟩, ?_⟩
    · rw [decryptWith_append_eq_ok_iff hkey hnonce hbody htag, Gcm.encrypt, Gcm.crypt_crypt]
    · intro other hother hne
      rw [decryptWith_append hkey hnonce hbody hother, Gcm.decrypt?, if_neg hne]

/-- What went into a successful encryption, and how long its result is. -/
theorem lengths_of_encryptWith (h : encryptWith v key nonce text = .ok ciphertext) :
    key.length = v.keyLength ∧ ciphertext.length = text.length + Gcm.tagLength := by
  rw [encryptWith_eq_checked, checked_eq_ok_iff] at h
  obtain ⟨hkey, -, h⟩ := h
  split at h
  · cases h
  · obtain rfl := Except.ok.inj h
    exact ⟨hkey, Gcm.length_encrypt ..⟩

/-- What went into a successful decryption, and how long its result is. -/
theorem lengths_of_decryptWith (h : decryptWith v key nonce ciphertext = .ok text) :
    key.length = v.keyLength ∧ ciphertext.length = text.length + Gcm.tagLength := by
  rw [decryptWith_eq_checked, checked_eq_ok_iff] at h
  obtain ⟨hkey, -, h⟩ := h
  split at h
  · cases h
  · exact ⟨hkey, length_of_opened h⟩

/-! ### The variant that the key selects -/

/-- The variant is found by the length of the key. -/
theorem variantOf_eq (hkey : key.length = v.keyLength) : variantOf key = .ok v := by
  rw [variantOf, CipherVariant.ofKeyLength?_eq_some_iff.2 hkey]

/-- To find the variant is to be given it. -/
theorem encrypt_eq_encryptWith (hkey : key.length = v.keyLength) :
    encrypt key nonce = encryptWith v key nonce := by
  funext text
  rw [encrypt, variantOf_eq hkey]
  rfl

/-- To find the variant is to be given it. -/
theorem decrypt_eq_decryptWith (hkey : key.length = v.keyLength) :
    decrypt key nonce = decryptWith v key nonce := by
  funext ciphertext
  rw [decrypt, variantOf_eq hkey]
  rfl

/-- Encrypting and decrypting undo each other when the variant is found by the key. -/
theorem exactInverse_encrypt (hkey : key.length = v.keyLength)
    (hnonce : nonce.length = Gcm.nonceLength) :
    ExactInverse (encrypt key nonce) (decrypt key nonce) := by
  rw [encrypt_eq_encryptWith hkey, decrypt_eq_decryptWith hkey]
  exact exactInverse_encryptWith hkey hnonce

/-- Under every key and nonce of the right lengths, encryption and decryption are exact inverses,
through whichever entry point. -/
theorem encrypt_decrypt_exactInverse (key nonce : Bytes) (hnonce : nonce.length = 12) :
    (key.length = 16 ∨ key.length = 32 →
      ExactInverse (encrypt key nonce) (decrypt key nonce)) ∧
    (∀ v : CipherVariant, key.length = v.keyLength →
      ExactInverse (encryptWith v key nonce) (decryptWith v key nonce)) ∧
    (key.length = 16 →
      ExactInverse (Fixed.aes128GcmEncrypt key nonce) (Fixed.aes128GcmDecrypt key nonce)) ∧
    (key.length = 32 →
      ExactInverse (Fixed.aes256GcmEncrypt key nonce) (Fixed.aes256GcmDecrypt key nonce)) := by
  refine ⟨?_, fun v hkey => exactInverse_encryptWith hkey hnonce, fun hkey => ?_, fun hkey => ?_⟩
  -- without a variant the length of the key says which one it is.
  · rintro (hkey | hkey)
    · exact exactInverse_encrypt (v := .aes128) hkey hnonce
    · exact exactInverse_encrypt (v := .aes256) hkey hnonce
  · exact exactInverse_encryptWith (v := .aes128) hkey hnonce
  · exact exactInverse_encryptWith (v := .aes256) hkey hnonce

/-- The entry points under a key of 16 bytes, with an empty text among the texts. -/
theorem encrypt_decrypt_exactInverse_aes128 :
    (∃ tag : Bytes, tag.length = 16 ∧
      encrypt (List.replicate 16 0x42) (List.replicate 12 0x24) [] = .ok tag ∧
      decrypt (List.replicate 16 0x42) (List.replicate 12 0x24) tag = .ok []) ∧
    ExactInverse (Fixed.aes128GcmEncrypt (List.replicate 16 0x42) (List.replicate 12 0x24))
      (Fixed.aes128GcmDecrypt (List.replicate 16 0x42) (List.replicate 12 0x24)) := by
  obtain ⟨hauto, -, haes128, -⟩ := encrypt_decrypt_exactInverse (List.replicate 16 0x42)
    (List.replicate 12 0x24) (by decide)
  have inverse := hauto (.inl (by decide))
  have hencrypt : encrypt (List.replicate 16 0x42) (List.replicate 12 0x24) [] =
      .ok (Gcm.encrypt (aes (List.replicate 16 0x42)) (List.replicate 12 0x24) []) := by
    rw [encrypt_eq_encryptWith (v := .aes128) (by decide)]
    exact encryptWith_eq (by decide) (by decide) (Nat.zero_le _)
  have hlen := inverse.length_ciphertext [] _ (Nat.zero_le _) hencrypt
  have hdecrypt := (inverse.decrypt_iff [] _ (Nat.zero_le _)
    (hlen.trans_le (Nat.add_le_add_right (Nat.zero_le _) _))).2 hencrypt
  exact ⟨⟨_, hlen, hencrypt, hdecrypt⟩, haes128 (by decide)⟩

end Aead

end Keyring
