import Keyring.Proofs.Aead
/-!
# The arguments of encryption and decryption

The lengths of the arguments are checked in a fixed order, and the first wrong one is reported, with
nothing but lengths in the report. Behind the checks a key is one that the cipher takes, so that
nothing is left to refuse but a tag that does not fit.
-/

namespace Keyring.Aead

open Cipher

variable {v : CipherVariant} {key nonce text ciphertext : Bytes} {param : Parameter}
  {least expected actual : ℕ}

/-! ### The first wrong length -/

/-- Of the lengths of a key, a nonce and a ciphertext the given one is the first that is wrong, and
is reported with the given numbers. A ciphertext is wrong if it is shorter than `least`. -/
def IsFirstWrong (v : CipherVariant) (least key nonce data : ℕ) :
    Parameter → ℕ → ℕ → Prop
  | .key, expected, actual => key ≠ v.keyLength ∧ expected = v.keyLength ∧ actual = key
  | .nonce, expected, actual =>
    key = v.keyLength ∧ nonce ≠ Gcm.nonceLength ∧ expected = Gcm.nonceLength ∧ actual = nonce
  | .ciphertext, expected, actual =>
    key = v.keyLength ∧ nonce = Gcm.nonceLength ∧ data < least ∧ expected = least ∧ actual = data

section IsFirstWrong

variable {k n d : ℕ}

/-- The key is checked first. -/
theorem isFirstWrong_key : IsFirstWrong v least k n d .key v.keyLength k ↔ k ≠ v.keyLength := by
  simp [IsFirstWrong]

/-- The nonce is checked next. -/
theorem isFirstWrong_nonce (hkey : k = v.keyLength) :
    IsFirstWrong v least k n d .nonce Gcm.nonceLength n ↔ n ≠ Gcm.nonceLength := by
  simp [IsFirstWrong, hkey]

/-- The ciphertext is checked last. -/
theorem isFirstWrong_ciphertext (hkey : k = v.keyLength) (hnonce : n = Gcm.nonceLength) :
    IsFirstWrong v least k n d .ciphertext least d ↔ d < least := by
  simp [IsFirstWrong, hkey, hnonce]

end IsFirstWrong

/-- If the result behind the checks reports nothing but short ciphertexts, then the checks and the
result report the first wrong length. -/
theorem checked_eq_invalidArgument_iff {result : Except Error Bytes} {n : ℕ}
    (hresult : ∀ param expected actual, result = .error (.invalidArgument param expected actual) ↔
      param = .ciphertext ∧ n < least ∧ expected = least ∧ actual = n) :
    checked v key nonce result = .error (.invalidArgument param expected actual) ↔
      IsFirstWrong v least key.length nonce.length n param expected actual := by
  by_cases hkey : key.length = v.keyLength
  · by_cases hnonce : nonce.length = Gcm.nonceLength
    · rw [checked_of_eq _ hkey hnonce, hresult]
      cases param <;> simp [IsFirstWrong, hkey, hnonce]
    · rw [checked_of_nonce_ne _ hkey hnonce, Except.error.injEq, Error.invalidArgument.injEq]
      cases param <;> simp [IsFirstWrong, hkey, hnonce, eq_comm]
  · rw [checked_of_key_ne _ hkey, Except.error.injEq, Error.invalidArgument.injEq]
    cases param <;> simp [IsFirstWrong, hkey, eq_comm]

/-- No text is too short to be encrypted. -/
theorem encryptWith_eq_invalidArgument_iff :
    encryptWith v key nonce text = .error (.invalidArgument param expected actual) ↔
      IsFirstWrong v 0 key.length nonce.length text.length param expected actual := by
  rw [encryptWith_eq_checked]
  refine checked_eq_invalidArgument_iff fun param expected actual => ?_
  split <;> simp

/-- Decryption names the first argument of a wrong length, and both lengths. -/
theorem decryptWith_eq_invalidArgument_iff :
    decryptWith v key nonce ciphertext = .error (.invalidArgument param expected actual) ↔
      IsFirstWrong v Gcm.tagLength key.length nonce.length ciphertext.length param expected
        actual := by
  rw [decryptWith_eq_checked]
  refine checked_eq_invalidArgument_iff fun param expected actual => ?_
  by_cases hshort : ciphertext.length < Gcm.tagLength
  · rw [if_pos hshort, Except.error.injEq, Error.invalidArgument.injEq]
    simp [hshort, eq_comm]
  · rw [if_neg hshort]
    refine iff_of_false ?_ fun h => hshort h.2.1
    obtain ⟨text, h⟩ | h := opened_eq_ok_or key nonce ciphertext <;> rw [h] <;> nofun

/-! ### What is left behind the checks -/

/-- The checks themselves are no failure of the cipher. -/
theorem checked_ne_cryptoFailure {result : Except Error Bytes}
    (h : result ≠ .error .cryptoFailure) : checked v key nonce result ≠ .error .cryptoFailure := by
  by_cases hkey : key.length = v.keyLength
  · by_cases hnonce : nonce.length = Gcm.nonceLength
    · rwa [checked_of_eq _ hkey hnonce]
    · rw [checked_of_nonce_ne _ hkey hnonce]
      nofun
  · rw [checked_of_key_ne _ hkey]
    nofun

/-- Encryption fails in the cipher only for a text that is too long. -/
theorem encryptWith_ne_cryptoFailure (h : text.length ≤ maxTextLength) :
    encryptWith v key nonce text ≠ .error .cryptoFailure := by
  rw [encryptWith_eq_checked, if_neg (Nat.not_lt.2 (h.trans maxTextLength_le))]
  exact checked_ne_cryptoFailure nofun

/-- Decryption has no limit of its own: a ciphertext that is too long does not verify. -/
theorem decryptWith_ne_cryptoFailure :
    decryptWith v key nonce ciphertext ≠ .error .cryptoFailure := by
  rw [decryptWith_eq_checked]
  refine checked_ne_cryptoFailure ?_
  split
  · nofun
  · obtain ⟨text, h⟩ | h := opened_eq_ok_or key nonce ciphertext <;> rw [h] <;> nofun

/-- With the right lengths only the tag decides. -/
theorem decryptWith_eq_ok_or (hkey : key.length = v.keyLength)
    (hnonce : nonce.length = Gcm.nonceLength) (h : Gcm.tagLength ≤ ciphertext.length) :
    (∃ text, decryptWith v key nonce ciphertext = .ok text) ∨
      decryptWith v key nonce ciphertext = .error .verifyFailure := by
  rw [decryptWith_eq_checked, checked_of_eq _ hkey hnonce, if_neg (Nat.not_lt.2 h)]
  exact opened_eq_ok_or key nonce ciphertext

/-! ### Operations that check their arguments -/

/-- An operation on a key, a nonce and a text or a ciphertext. -/
abbrev Operation := Bytes → Bytes → Bytes → Except Error Bytes

/-- Which argument is reported as invalid depends on the three lengths alone. -/
def Operation.IsContentBlind (operation : Operation) : Prop :=
  ∀ key nonce data key' nonce' data' : Bytes, key.length = key'.length →
    nonce.length = nonce'.length → data.length = data'.length → ∀ param expected actual,
      operation key nonce data = .error (.invalidArgument param expected actual) →
        operation key' nonce' data' = .error (.invalidArgument param expected actual)

/-- Key and nonce are checked in this order before anything else. -/
structure Operation.ChecksKeyAndNonce (operation : Operation) (v : CipherVariant) : Prop where
  key_iff : ∀ key nonce data,
    operation key nonce data = .error (.invalidArgument .key v.keyLength key.length) ↔
      key.length ≠ v.keyLength
  nonce_iff : ∀ key nonce data, key.length = v.keyLength →
    (operation key nonce data = .error (.invalidArgument .nonce 12 nonce.length) ↔
      nonce.length ≠ 12)
  isContentBlind : operation.IsContentBlind

/-- To report the first wrong length is to check in order. -/
theorem Operation.checksKeyAndNonce_of_iff {operation : Operation}
    (h : ∀ key nonce data param expected actual,
      operation key nonce data = .error (.invalidArgument param expected actual) ↔
        IsFirstWrong v least key.length nonce.length data.length param expected actual) :
    operation.ChecksKeyAndNonce v where
  key_iff _ _ _ := (h ..).trans isFirstWrong_key
  nonce_iff _ _ _ hkey := (h ..).trans (isFirstWrong_nonce hkey)
  isContentBlind _ _ _ _ _ _ hkey hnonce hdata _ _ _ hwrong := by
    rw [h, hkey, hnonce, hdata] at hwrong
    rw [h]
    exact hwrong

/-- What becomes of all arguments under a variant. -/
structure ChecksArguments (v : CipherVariant) : Prop where
  encrypt_checks : Operation.ChecksKeyAndNonce (encryptWith v) v
  encrypt_ok : ∀ key nonce text, key.length = v.keyLength → nonce.length = 12 →
    text.length ≤ maxTextLength → ∃ ciphertext, encryptWith v key nonce text = .ok ciphertext
  encrypt_ne_cryptoFailure : ∀ key nonce text, text.length ≤ maxTextLength →
    encryptWith v key nonce text ≠ .error .cryptoFailure
  decrypt_checks : Operation.ChecksKeyAndNonce (decryptWith v) v
  decrypt_ciphertext_iff : ∀ key nonce ciphertext, key.length = v.keyLength →
    nonce.length = 12 → (decryptWith v key nonce ciphertext
      = .error (.invalidArgument .ciphertext 16 ciphertext.length) ↔ ciphertext.length < 16)
  decrypt_ok_or : ∀ key nonce ciphertext, key.length = v.keyLength → nonce.length = 12 →
    16 ≤ ciphertext.length → (∃ text, decryptWith v key nonce ciphertext = .ok text) ∨
      decryptWith v key nonce ciphertext = .error .verifyFailure
  decrypt_ne_cryptoFailure : ∀ key nonce ciphertext,
    decryptWith v key nonce ciphertext ≠ .error .cryptoFailure

/-- Both operations of a variant check their arguments. -/
theorem checksArguments (v : CipherVariant) : ChecksArguments v where
  encrypt_checks := Operation.checksKeyAndNonce_of_iff fun _ _ _ _ _ _ =>
    encryptWith_eq_invalidArgument_iff
  encrypt_ok _ _ _ hkey hnonce htext := ⟨_, encryptWith_eq hkey hnonce htext⟩
  encrypt_ne_cryptoFailure _ _ _ := encryptWith_ne_cryptoFailure
  decrypt_checks := Operation.checksKeyAndNonce_of_iff fun _ _ _ _ _ _ =>
    decryptWith_eq_invalidArgument_iff
  decrypt_ciphertext_iff _ _ _ hkey hnonce :=
    decryptWith_eq_invalidArgument_iff.trans (isFirstWrong_ciphertext hkey hnonce)
  decrypt_ok_or _ _ _ := decryptWith_eq_ok_or
  decrypt_ne_cryptoFailure _ _ _ := decryptWith_ne_cryptoFailure

/-! ### The variant that the key selects -/

theorem variantOf_of_ne (h₁ : key.length ≠ 16) (h₂ : key.length ≠ 32) :
    variantOf key = .error (.invalidArgument .key 32 key.length) := by
  simp [variantOf, CipherVariant.ofKeyLength?, CipherVariant.keyLength, h₁, h₂]

/-- A key of the length of some variant selects it, and any other is reported as if the longer one
had been wanted. -/
structure Operation.SelectsVariant (operation : Operation)
    (withVariant : CipherVariant → Operation) : Prop where
  key_of_ne : ∀ key nonce data, key.length ≠ 16 → key.length ≠ 32 →
    operation key nonce data = .error (.invalidArgument .key 32 key.length)
  eq_withVariant : ∀ v key nonce data, key.length = v.keyLength →
    operation key nonce data = withVariant v key nonce data
  isContentBlind : operation.IsContentBlind

/-- An operation that takes the variant from the key checks as this variant does. -/
theorem Operation.selectsVariant_of_eq {operation : Operation}
    {withVariant : CipherVariant → Operation} (hchecks : ∀ v, (withVariant v).ChecksKeyAndNonce v)
    (h : ∀ key nonce data,
      operation key nonce data = variantOf key >>= fun v => withVariant v key nonce data) :
    operation.SelectsVariant withVariant := by
  have key_of_ne : ∀ key nonce data, key.length ≠ 16 → key.length ≠ 32 →
      operation key nonce data = .error (.invalidArgument .key 32 key.length) := by
    intro key nonce data h₁ h₂
    rw [h, variantOf_of_ne h₁ h₂]
    rfl
  have eq_withVariant : ∀ v key nonce data, key.length = v.keyLength →
      operation key nonce data = withVariant v key nonce data := by
    intro v key nonce data hkey
    rw [h, variantOf_eq hkey]
    rfl
  refine ⟨key_of_ne, eq_withVariant, ?_⟩
  intro key nonce data key' nonce' data' hkey hnonce hdata param expected actual
  -- keys of one length select the same variant, or none and with the same report.
  by_cases hsome : ∃ v : CipherVariant, key.length = v.keyLength
  · obtain ⟨v, hv⟩ := hsome
    rw [eq_withVariant v _ _ _ hv, eq_withVariant v _ _ _ (hkey ▸ hv)]
    exact (hchecks v).isContentBlind _ _ _ _ _ _ hkey hnonce hdata param expected actual
  · have h₁ : key.length ≠ 16 := fun h => hsome ⟨.aes128, h⟩
    have h₂ : key.length ≠ 32 := fun h => hsome ⟨.aes256, h⟩
    rw [key_of_ne _ _ _ h₁ h₂, key_of_ne _ _ _ (hkey ▸ h₁) (hkey ▸ h₂), hkey]
    exact id

/-- The lengths of the arguments are all that is checked, in one order, through whichever entry
point. -/
theorem arguments_checked_in_order :
    (∀ v, ChecksArguments v) ∧
    Operation.SelectsVariant encrypt encryptWith ∧ Operation.SelectsVariant decrypt decryptWith ∧
    Fixed.aes128GcmEncrypt = encryptWith .aes128 ∧ Fixed.aes256GcmEncrypt = encryptWith .aes256 ∧
    Fixed.aes128GcmDecrypt = decryptWith .aes128 ∧ Fixed.aes256GcmDecrypt = decryptWith .aes256 :=
  ⟨checksArguments,
    Operation.selectsVariant_of_eq (fun v => (checksArguments v).encrypt_checks) fun _ _ _ => rfl,
    Operation.selectsVariant_of_eq (fun v => (checksArguments v).decrypt_checks) fun _ _ _ => rfl,
    rfl, rfl, rfl, rfl⟩

/-- With three wrong lengths the key is reported, then the nonce, then the ciphertext, and an empty
text is encrypted. -/
theorem arguments_checked_in_order_of_three_wrong :
    decryptWith .aes256 (List.replicate 16 0x42) [0] [1, 2] = .error (.invalidArgument .key 32 16) ∧
    decryptWith .aes256 (List.replicate 32 0x42) [0] [1, 2]
      = .error (.invalidArgument .nonce 12 1) ∧
    decryptWith .aes256 (List.replicate 32 0x42) (List.replicate 12 0x24) [1, 2]
      = .error (.invalidArgument .ciphertext 16 2) ∧
    decrypt (List.replicate 16 0x42) [0] [1, 2] = .error (.invalidArgument .nonce 12 1) ∧
    decrypt [0x42] [0] [1, 2] = .error (.invalidArgument .key 32 1) ∧
    ∃ ciphertext, Fixed.aes128GcmEncrypt (List.replicate 16 0x42) (List.replicate 12 0x24) []
      = .ok ciphertext := by
  obtain ⟨hchecks, -, hdecrypt, hfixed, -⟩ := arguments_checked_in_order
  refine ⟨?_, ?_, ?_, ?_, hdecrypt.key_of_ne _ _ _ (by decide) (by decide), ?_⟩
  · exact ((hchecks .aes256).decrypt_checks.key_iff _ _ _).2 (by decide)
  · exact ((hchecks .aes256).decrypt_checks.nonce_iff _ _ _ (by decide)).2 (by decide)
  · exact ((hchecks .aes256).decrypt_ciphertext_iff _ _ _ (by decide) (by decide)).2 (by decide)
  · rw [hdecrypt.eq_withVariant .aes128 _ _ _ (by decide)]
    exact ((hchecks .aes128).decrypt_checks.nonce_iff _ _ _ (by decide)).2 (by decide)
  · rw [hfixed]
    exact (hchecks .aes128).encrypt_ok _ _ _ (by decide) (by decide) (Nat.zero_le _)

end Keyring.Aead
