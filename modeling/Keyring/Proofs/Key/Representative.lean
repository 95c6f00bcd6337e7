import Keyring.Proofs.Key.RsaSignature
/-!
# The numbers of RSA signatures

A signature as long as the modulus may stand for a number that is not below it, and the public
operation looks at the remainder alone. With the fixed padding the number is compared with the
modulus, so that no two valid signatures have one remainder. With a salt nothing compares it: beside
a valid signature every number that fits the length and has the same remainder is valid.
-/

namespace Keyring

open Bytes

/-- PSS does not tell representatives of one residue apart. -/
theorem Rsa.Pss.verify_eq_of_modEq {k : Rsa.PublicKey} {a b : Bytes} (hlength : a.length = b.length)
    (h : toNat a ≡ toNat b [MOD k.n]) (message : Bytes) :
    Rsa.Pss.verify k message a = Rsa.Pss.verify k message b := by
  simp only [Rsa.Pss.verify, hlength, k.apply_congr h]

/-- Below the modulus, a remainder and the length of the modulus determine a byte string. -/
theorem Rsa.PublicKey.eq_of_modEq (k : Rsa.PublicKey) {a b : Bytes} (ha : a.length = k.size)
    (hb : b.length = k.size) (halt : toNat a < k.n) (hblt : toNat b < k.n)
    (h : toNat a ≡ toNat b [MOD k.n]) : a = b := by
  rw [← k.ofNat_size_toNat ha, h.eq_of_lt_of_lt halt hblt, k.ofNat_size_toNat hb]

namespace Key

variable {key : Key} {k : Rsa.PublicKey} {message signature : Bytes}

section Numbers

variable (hkey : key.publicKey = .rsa k)

include hkey

/-- With the fixed padding, the number of a valid signature was compared with the modulus. -/
theorem lt_of_verify_rsaPkcs1Sha256
    (hvalid : key.verify .rsaPkcs1Sha256 message signature = .ok .valid) :
    signature.length = k.size ∧ toNat signature < k.n := by
  rw [verify_rsaPkcs1Sha256 hkey, ofBool_eq_valid_iff] at hvalid
  obtain ⟨hlength, hlt, -⟩ := Rsa.Pkcs1v15.verify_eq_true_iff.1 hvalid
  exact ⟨hlength, hlt⟩

theorem length_of_verify_rsaPssSha256
    (hvalid : key.verify .rsaPssSha256 message signature = .ok .valid) :
    signature.length = k.size := by
  rw [verify_rsaPssSha256 hkey, ofBool_eq_valid_iff] at hvalid
  exact (Rsa.Pss.verify_eq_true_iff.1 hvalid).1

/-- Nor does a key, if the lengths are right. -/
theorem verify_rsaPssSha256_eq_of_modEq {a b : Bytes} (ha : a.length = k.size)
    (hb : b.length = k.size) (h : toNat a ≡ toNat b [MOD k.n]) :
    key.verify .rsaPssSha256 message a = key.verify .rsaPssSha256 message b := by
  rw [verify_rsaPssSha256 hkey, verify_rsaPssSha256 hkey,
    Rsa.Pss.verify_eq_of_modEq (ha.trans hb.symm) h]

/-- Every number that fits and has the remainder of a valid signature makes a valid signature. -/
theorem verify_rsaPssSha256_ofNat
    (hvalid : key.verify .rsaPssSha256 message signature = .ok .valid) {y : ℕ}
    (hy : y < 256 ^ k.size) (h : y ≡ toNat signature [MOD k.n]) :
    key.verify .rsaPssSha256 message (ofNat k.size y) = .ok .valid := by
  rw [← hvalid]
  refine verify_rsaPssSha256_eq_of_modEq hkey (length_ofNat _ _)
    (length_of_verify_rsaPssSha256 hkey hvalid) ?_
  rwa [toNat_ofNat_of_lt hy]

/-- Where the modulus fits beside the remainder of a valid signature, both the remainder and the sum
are the numbers of valid signatures. -/
theorem verify_remainder_and_next
    (hvalid : key.verify .rsaPssSha256 message signature = .ok .valid)
    (hroom : toNat signature % k.n + k.n < 256 ^ k.size) :
    key.verify .rsaPssSha256 message (ofNat k.size (toNat signature % k.n)) = .ok .valid ∧
      key.verify .rsaPssSha256 message (ofNat k.size (toNat signature % k.n + k.n))
        = .ok .valid := by
  have hmod : toNat signature % k.n ≡ toNat signature [MOD k.n] := Nat.mod_modEq _ _
  constructor
  · exact verify_rsaPssSha256_ofNat hkey hvalid (by omega) hmod
  · exact verify_rsaPssSha256_ofNat hkey hvalid hroom (Nat.add_modulus_modEq_iff.2 hmod)

end Numbers

/-! ### Room for another number -/

/-- No number but the remainder itself fits the length of the modulus, for the remainder of any
valid signature of the message under the scheme with a salt. -/
def LeavesNoRoom (key : Key) (k : Rsa.PublicKey) (message : Bytes) : Prop :=
  ∀ signature, key.verify .rsaPssSha256 message signature = .ok .valid →
    256 ^ k.size ≤ toNat signature % k.n + k.n

/-- With no room for another representative a valid signature is below the modulus. -/
theorem lt_of_leavesNoRoom (hkey : key.publicKey = .rsa k) (hroom : LeavesNoRoom key k message)
    (hvalid : key.verify .rsaPssSha256 message signature = .ok .valid) :
    toNat signature < k.n := by
  by_contra hlt
  -- a number that is not below the modulus has its remainder and the modulus in it.
  have hnumber : toNat signature % k.n + k.n ≤ toNat signature := by
    have hle := Nat.le_of_not_lt hlt
    have hrest := Nat.mod_le (toNat signature - k.n) k.n
    rw [Nat.mod_eq_sub_mod hle]
    omega
  have hfits := toNat_lt signature
  rw [length_of_verify_rsaPssSha256 hkey hvalid] at hfits
  exact absurd (hroom signature hvalid) (Nat.not_le.2 (hnumber.trans_lt hfits))

/-- What the numbers of valid signatures are, for a key with the given public half. -/
structure RepresentativeLaw (key : Key) (k : Rsa.PublicKey) : Prop where
  /-- With the fixed padding the number is below the modulus. -/
  rsaPkcs1_lt : ∀ message signature,
    key.verify .rsaPkcs1Sha256 message signature = .ok .valid → toNat signature < k.n
  /-- So no two byte strings that are valid, be it for different messages, have one remainder. -/
  rsaPkcs1_unique : ∀ message message' a b,
    key.verify .rsaPkcs1Sha256 message a = .ok .valid →
    key.verify .rsaPkcs1Sha256 message' b = .ok .valid → toNat a ≡ toNat b [MOD k.n] → a = b
  /-- With a salt, byte strings as long as the modulus have one verdict for each remainder. -/
  rsaPss_eq : ∀ message (a b : Bytes), a.length = k.size → b.length = k.size →
    toNat a ≡ toNat b [MOD k.n] →
      key.verify .rsaPssSha256 message a = key.verify .rsaPssSha256 message b
  /-- So the numbers of valid signatures are below the modulus exactly where their remainders leave
  no room for other numbers. -/
  rsaPss_lt_iff : ∀ message,
    (∀ signature, key.verify .rsaPssSha256 message signature = .ok .valid → toNat signature < k.n) ↔
      LeavesNoRoom key k message
  /-- Only there have no two valid signatures one remainder. -/
  rsaPss_unique_iff : ∀ message,
    (∀ a b, key.verify .rsaPssSha256 message a = .ok .valid →
      key.verify .rsaPssSha256 message b = .ok .valid → toNat a ≡ toNat b [MOD k.n] → a = b) ↔
      LeavesNoRoom key k message

/-- Every RSA key compares the number of a signature with its modulus under the one scheme and not
under the other. -/
theorem representativeLaw_of_publicKey (hkey : key.publicKey = .rsa k) :
    RepresentativeLaw key k where
  rsaPkcs1_lt message signature hvalid := (lt_of_verify_rsaPkcs1Sha256 hkey hvalid).2
  rsaPkcs1_unique message message' a b ha hb := by
    obtain ⟨halength, halt⟩ := lt_of_verify_rsaPkcs1Sha256 hkey ha
    obtain ⟨hblength, hblt⟩ := lt_of_verify_rsaPkcs1Sha256 hkey hb
    exact k.eq_of_modEq halength hblength halt hblt
  rsaPss_eq message a b := verify_rsaPssSha256_eq_of_modEq hkey
  rsaPss_lt_iff message := by
    refine ⟨fun hlt signature hvalid => ?_, fun hroom _ => lt_of_leavesNoRoom hkey hroom⟩
    -- if the next representative still fits, it is valid too and not below the modulus.
    by_contra hroom
    have hfits := Nat.lt_of_not_le hroom
    have hnext := hlt _ (verify_remainder_and_next hkey hvalid hfits).2
    rw [toNat_ofNat_of_lt hfits] at hnext
    omega
  rsaPss_unique_iff message := by
    constructor
    · intro hunique signature hvalid
      by_contra hroom
      have hfits := Nat.lt_of_not_le hroom
      obtain ⟨hremainder, hnext⟩ := verify_remainder_and_next hkey hvalid hfits
      have hnumber : toNat (ofNat k.size (toNat signature % k.n)) = toNat signature % k.n :=
        toNat_ofNat_of_lt (by omega)
      have hnumber' := toNat_ofNat_of_lt hfits
      -- the remainder and the next representative are two valid ones of one residue.
      have hmod : toNat (ofNat k.size (toNat signature % k.n + k.n))
          ≡ toNat (ofNat k.size (toNat signature % k.n)) [MOD k.n] := by
        rw [hnumber, hnumber', Nat.add_modulus_modEq_iff]
      have hsame := congrArg toNat (hunique _ _ hnext hremainder hmod)
      have hpos := k.n_pos
      rw [hnumber, hnumber'] at hsame
      omega
    · intro hroom a b ha hb
      exact k.eq_of_modEq (length_of_verify_rsaPssSha256 hkey ha)
        (length_of_verify_rsaPssSha256 hkey hb) (lt_of_leavesNoRoom hkey hroom ha)
        (lt_of_leavesNoRoom hkey hroom hb)

/-! ### A modulus that leaves room -/

/-- A signature of the text `abc` under the key with prime factors. -/
def reducedSignature : Bytes :=
  ofNat 66 0x230d1e7f777f8cf383300a1153f945604406d75925757b100be87dc4ceb36a769338ea56b1b03a19403be89e8e2817b6540cc265333a4a03134fbfb4cbd154c15ec

/-- The byte string of the same length whose number is greater by the modulus. -/
def unreducedSignature : Bytes :=
  ofNat 66 0x4ecc9bff777f8cf383300a1153f945604406d75925757b100be87dc4ceb36a76968e8a56b1b03a19403be89e8e2817b6540cc265333a4a03134fbfb4cbd154c15ed

/-- The signature above the modulus is valid. -/
theorem verify_unreducedSignature :
    (ofPublic (.rsa primeKey.toPublicKey)).verify .rsaPssSha256 [0x61, 0x62, 0x63]
      unreducedSignature = .ok .valid := by
  have hvalid : Rsa.Pss.verify primeKey.toPublicKey [0x61, 0x62, 0x63] unreducedSignature
      = true := by decide +kernel
  rw [verify_rsaPssSha256 rfl, hvalid]
  rfl

theorem reducedSignature_modEq :
    toNat reducedSignature ≡ toNat unreducedSignature [MOD primeKey.n] := by
  unfold Nat.ModEq
  decide +kernel

/-- The key with prime factors has a valid signature with the fixed padding, and its number is below
the modulus. It has a valid signature with a salt whose remainder leaves room. -/
theorem representativeLaw_primeKey :
    (∃ signature, (ofPublic (.rsa primeKey.toPublicKey)).verify .rsaPkcs1Sha256 [] signature
        = .ok .valid ∧ toNat signature < primeKey.n) ∧
      (ofPublic (.rsa primeKey.toPublicKey)).verify .rsaPssSha256 [0x61, 0x62, 0x63]
        unreducedSignature = .ok .valid ∧
      ¬ ∀ signature, (ofPublic (.rsa primeKey.toPublicKey)).verify .rsaPssSha256
        [0x61, 0x62, 0x63] signature = .ok .valid → toNat signature < primeKey.n := by
  have hkey : (ofPublic (.rsa primeKey.toPublicKey)).publicKey = .rsa primeKey.toPublicKey := rfl
  have hlaw := representativeLaw_of_publicKey hkey
  refine ⟨?_, verify_unreducedSignature, ?_⟩
  · obtain ⟨signature, hsign⟩ := exists_sign_primeKey
      (show Scheme.rsaPkcs1Sha256.algorithm = .rsa from rfl)
    have hvalid := verify_of_sign_rsa (.inl rfl) hsign hkey
    exact ⟨signature, hvalid, hlaw.rsaPkcs1_lt [] signature hvalid⟩
  -- a valid signature with room for another representative refutes the bound.
  · rw [hlaw.rsaPss_lt_iff]
    intro hroom
    exact absurd (hroom _ verify_unreducedSignature) (by decide +kernel)

/-- The number of a valid signature with a salt is not below the modulus, and another valid
signature has the same remainder. -/
theorem primeKey_accepts_unreduced :
    Obtainable (ofPublic (.rsa primeKey.toPublicKey)) ∧
      (ofPublic (.rsa primeKey.toPublicKey)).verify .rsaPssSha256 [0x61, 0x62, 0x63]
        unreducedSignature = .ok .valid ∧
      ¬ toNat unreducedSignature < primeKey.n ∧
      (ofPublic (.rsa primeKey.toPublicKey)).verify .rsaPssSha256 [0x61, 0x62, 0x63]
        reducedSignature = .ok .valid ∧
      toNat reducedSignature ≡ toNat unreducedSignature [MOD primeKey.n] ∧
      reducedSignature ≠ unreducedSignature := by
  have hkey : (ofPublic (.rsa primeKey.toPublicKey)).publicKey = .rsa primeKey.toPublicKey := rfl
  refine ⟨obtainable_ofPublic_rsa (by decide +kernel), verify_unreducedSignature,
    by decide +kernel, ?_, reducedSignature_modEq, by decide +kernel⟩
  rw [← verify_unreducedSignature]
  exact verify_rsaPssSha256_eq_of_modEq hkey (by decide +kernel) (by decide +kernel)
    reducedSignature_modEq

end Key

end Keyring
