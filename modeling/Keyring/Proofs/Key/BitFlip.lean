import Keyring.Proofs.Ecdsa.Twin
import Keyring.Proofs.Key.EcdsaSignature
import Keyring.Proofs.Key.ErrorLaw
import Keyring.Proofs.Rsa.BitFlip
/-!
# Signatures with one bit changed

A valid signature with one bit changed is valid again exactly where it solves the equation of its
scheme a second time, and that happens. The scalar of an Ed25519 signature has no second value, an
RSA key with distinct primes has no second root of a padded digest, and an encoded pair of numbers
keeps its first bytes. For the rest there are keys and messages with two solutions that are one bit
apart: under each scheme an example is given.
-/

namespace Keyring.Key

open Bytes Curve

variable {key : Key} {scheme : Scheme} {message signature : Bytes} {i j : ℕ}

/-! ### A second solution -/

/-- The signature with one bit changed solves the equation of the scheme, given that the signature
itself does. -/
inductive SolvesAgain (key : Key) (message signature : Bytes) (i j : ℕ) : Scheme → Prop
  /-- A bit of the first half was changed, and the point that it encodes has moved by the difference
  of the two multiples of the key. -/
  | ed25519 {k : Ed25519.PublicKey} {Q R : Ed25519.Group} (hkey : key.publicKey = .ed25519 k)
      (hQ : Edwards25519.decode? k.val = some (ofGroup Q)) (hi : i < 32)
      (hR : Edwards25519.encode (ofGroup R) = signature.take 32)
      (hflip : Edwards25519.encode (ofGroup
        (R + Ed25519.challenge (signature.take 32) k.val message • Q
          - Ed25519.challenge ((flipBit signature i j).take 32) k.val message • Q))
            = (flipBit signature i j).take 32) :
      SolvesAgain key message signature i j .ed25519
  /-- The two numbers have one power. -/
  | rsaPkcs1Sha256 {k : Rsa.PublicKey} (hkey : key.publicKey = .rsa k)
      (hlt : toNat (flipBit signature i j) < k.n)
      (happly : k.apply (toNat (flipBit signature i j)) = k.apply (toNat signature)) :
      SolvesAgain key message signature i j .rsaPkcs1Sha256
  /-- The power is an encoding of the message, with a salt of one of the two lengths. -/
  | rsaPssSha256 {k : Rsa.PublicKey} {salt : Bytes} (hkey : key.publicKey = .rsa k)
      (hsalt : salt.length = 32 ∨
        32 < Rsa.Pss.maxSaltLength k ∧ salt.length = Rsa.Pss.maxSaltLength k)
      (hencode : Rsa.Pss.encode? (Rsa.Pss.encodedBits k) message salt
        = some (Rsa.Pss.encodedOf k (flipBit signature i j))) :
      SolvesAgain key message signature i j .rsaPssSha256
  /-- Two numbers are read, they are in range, and they sign the message. -/
  | ecdsaP256Sha256 {Q : Ecdsa.Group} {sig : EcdsaSignature}
      (hkey : key.publicKey = .ecdsaP256 (ofGroup Q))
      (hparse : EcdsaSignature.parse (flipBit signature i j) = .ok sig)
      (hrange : ¬ IsOutOfRange (toNat sig.r) (toNat sig.s))
      (hsig : Ecdsa.IsSignature Q message (toNat sig.r) (toNat sig.s)) :
      SolvesAgain key message signature i j .ecdsaP256Sha256

/-- What becomes of a valid signature when one of its bits is changed. -/
structure FlipLaw (key : Key) (scheme : Scheme) (message signature : Bytes) (i j : ℕ) : Prop where
  valid_iff : key.verify scheme message (flipBit signature i j) = .ok .valid ↔
    SolvesAgain key message signature i j scheme
  /-- Where it is not valid, it is invalid or, if signatures are documents, not read. -/
  outcome : ¬ SolvesAgain key message signature i j scheme →
    key.verify scheme message (flipBit signature i j) = .ok .invalid ∨
      scheme = .ecdsaP256Sha256 ∧
        key.verify scheme message (flipBit signature i j) = .error .parseFailure
  /-- With the fixed padding it is never valid under a key with distinct primes. -/
  rsaPkcs1_invalid : ∀ k : Rsa.PrivateKey, scheme = .rsaPkcs1Sha256 →
    key.publicKey = .rsa k.toPublicKey → k.p.Prime → k.q.Prime → k.p ≠ k.q →
      key.verify scheme message (flipBit signature i j) = .ok .invalid
  /-- Under such a key the second solution for a padding with a salt has another salt. -/
  rsaPss_salt_ne : ∀ (k : Rsa.PrivateKey) (salt salt' : Bytes), scheme = .rsaPssSha256 →
    key.publicKey = .rsa k.toPublicKey → k.p.Prime → k.q.Prime → k.p ≠ k.q → k.bits % 8 ≠ 1 →
      Rsa.Pss.encode? (Rsa.Pss.encodedBits k.toPublicKey) message salt
        = some (Rsa.Pss.encodedOf k.toPublicKey signature) →
      Rsa.Pss.encode? (Rsa.Pss.encodedBits k.toPublicKey) message salt'
        = some (Rsa.Pss.encodedOf k.toPublicKey (flipBit signature i j)) → salt ≠ salt'
  /-- The tag, the length and the tag behind it have to stay. -/
  ecdsa_parseFailure : scheme = .ecdsaP256Sha256 → i < 3 →
    key.verify scheme message (flipBit signature i j) = .error .parseFailure
  /-- With the first number unchanged, the last bit takes the second one to its negative, or the
  first number stands for two coordinates. -/
  ecdsa_twin : ∀ Q (r s t : Bytes), scheme = .ecdsaP256Sha256 →
    key.publicKey = .ecdsaP256 (ofGroup Q) → EcdsaSignature.parse signature = .ok ⟨r, s⟩ →
      EcdsaSignature.parse (flipBit signature i j) = .ok ⟨r, t⟩ →
      key.verify scheme message (flipBit signature i j) = .ok .valid →
        (i + 1 = signature.length ∧ j = 0 ∧ toNat s + toNat t = P256.order ∧
          (toNat t = toNat s + 1 ∨ toNat s = toNat t + 1)) ∨
        Ecdsa.HaveTwoCoordinates Q message (toNat r) (toNat s) (toNat t)

/-! ### One scheme after the other -/

/-- The flipped Ed25519 signature stays valid exactly if it solves the equation of the signature
again. -/
theorem verify_flipBit_ed25519_eq_valid_iff
    (hvalid : key.verify .ed25519 message signature = .ok .valid) (hi : i < signature.length)
    (hj : j < 8) :
    key.verify .ed25519 message (flipBit signature i j) = .ok .valid ↔
      SolvesAgain key message signature i j .ed25519 := by
  obtain ⟨k, hkey⟩ := exists_publicKey_eq_ed25519 (algorithm_of_verify hvalid).symm
  rw [verify_ed25519 hkey, ofBool_eq_valid_iff] at hvalid ⊢
  -- a key that accepts a signature encodes a point, and that is the one in the equation.
  obtain ⟨Q, hQ⟩ := Ed25519.exists_ofGroup_of_verify hvalid
  rw [Ed25519.verify_flipBit_eq_true_iff hQ hvalid hi hj]
  constructor
  · rintro ⟨hfirst, R, hR, hflip⟩
    exact .ed25519 hkey hQ hfirst hR hflip
  · rintro ⟨hkey', hQ', hfirst, hR, hflip⟩
    obtain rfl := PublicKey.ed25519.inj (hkey.symm.trans hkey')
    obtain rfl := ofGroup_injective (Option.some.inj (hQ.symm.trans hQ'))
    exact ⟨hfirst, _, hR, hflip⟩

/-- The flipped PKCS#1 v1.5 signature stays valid exactly if its power is the same padded digest. -/
theorem verify_flipBit_rsaPkcs1Sha256_eq_valid_iff
    (hvalid : key.verify .rsaPkcs1Sha256 message signature = .ok .valid) :
    key.verify .rsaPkcs1Sha256 message (flipBit signature i j) = .ok .valid ↔
      SolvesAgain key message signature i j .rsaPkcs1Sha256 := by
  obtain ⟨k, hkey⟩ := exists_publicKey_eq_rsa (algorithm_of_verify hvalid).symm
  rw [verify_rsaPkcs1Sha256 hkey, ofBool_eq_valid_iff] at hvalid ⊢
  -- the padding depends on the message alone, so both signatures have to give the same power.
  rw [Rsa.Pkcs1v15.verify_eq_true_iff_apply_eq hvalid (length_flipBit signature i j)]
  constructor
  · rintro ⟨hlt, happly⟩
    exact .rsaPkcs1Sha256 hkey hlt happly
  · rintro ⟨⟩
    next hkey' hlt happly =>
      obtain rfl := PublicKey.rsa.inj (hkey.symm.trans hkey')
      exact ⟨hlt, happly⟩

/-- The flipped PSS signature stays valid exactly if its power encodes the message again. -/
theorem verify_flipBit_rsaPssSha256_eq_valid_iff
    (hvalid : key.verify .rsaPssSha256 message signature = .ok .valid) :
    key.verify .rsaPssSha256 message (flipBit signature i j) = .ok .valid ↔
      SolvesAgain key message signature i j .rsaPssSha256 := by
  obtain ⟨k, hkey⟩ := exists_publicKey_eq_rsa (algorithm_of_verify hvalid).symm
  rw [verify_rsaPssSha256 hkey, ofBool_eq_valid_iff] at hvalid ⊢
  -- the length is kept, so what remains is whether the power encodes the message under some salt.
  have hsize := (Rsa.Pss.verify_eq_true_iff.1 hvalid).1
  rw [Rsa.Pss.verify_eq_true_iff, length_flipBit, and_iff_right hsize]
  constructor
  · rintro ⟨salt, hsalt, hencode⟩
    exact .rsaPssSha256 hkey hsalt hencode
  · rintro ⟨⟩
    next hkey' hsalt hencode =>
      obtain rfl := PublicKey.rsa.inj (hkey.symm.trans hkey')
      exact ⟨_, hsalt, hencode⟩

/-- A signature is valid if two numbers are read, they are in range, and they sign the message. -/
theorem verify_ecdsaP256Sha256_eq_valid_iff {Q : Ecdsa.Group}
    (hkey : key.publicKey = .ecdsaP256 (ofGroup Q)) :
    key.verify .ecdsaP256Sha256 message signature = .ok .valid ↔
      ∃ sig, EcdsaSignature.parse signature = .ok sig ∧
        ¬ IsOutOfRange (toNat sig.r) (toNat sig.s) ∧
        Ecdsa.IsSignature Q message (toNat sig.r) (toNat sig.s) := by
  rcases EcdsaSignature.parse_eq_ok_or_parseFailure signature with ⟨sig, h⟩ | h
  · rw [verify_ecdsaP256Sha256_of_parse hkey h, ofBool_eq_valid_iff,
      Ecdsa.verifyNumbers_eq_true_iff, h]
    simp only [Except.ok.injEq, exists_eq_left', not_isOutOfRange_iff, and_assoc]
  · rw [verify_ecdsaP256Sha256_of_parse_eq_error hkey h, h]
    exact iff_of_false nofun nofun

/-- The flipped ECDSA signature stays valid exactly if it parses to numbers that solve the
equation. -/
theorem verify_flipBit_ecdsaP256Sha256_eq_valid_iff (hkey : Obtainable key)
    (halgorithm : key.algorithm = .ecdsaP256) :
    key.verify .ecdsaP256Sha256 message (flipBit signature i j) = .ok .valid ↔
      SolvesAgain key message signature i j .ecdsaP256Sha256 := by
  -- the point of an obtainable key is an element of the group, where the equation is stated.
  obtain ⟨Q, hQ⟩ := hkey.exists_ofGroup halgorithm
  rw [verify_ecdsaP256Sha256_eq_valid_iff hQ]
  constructor
  · rintro ⟨sig, hparse, hrange, hsig⟩
    exact .ecdsaP256Sha256 hQ hparse hrange hsig
  · rintro ⟨⟩
    next hQ' hparse hrange hsig =>
      obtain rfl := ofGroup_injective (PublicKey.ecdsaP256.inj (hQ.symm.trans hQ'))
      exact ⟨_, hparse, hrange, hsig⟩

/-- Two numbers below the order, written as a signature, are judged by the equation. -/
theorem verify_toDer_ofNatMin_eq_valid_iff {Q : Ecdsa.Group}
    (hkey : key.publicKey = .ecdsaP256 (ofGroup Q)) {r s : ℕ} (hr : r < P256.order)
    (hs : s < P256.order) :
    key.verify .ecdsaP256Sha256 message (EcdsaSignature.toDer ⟨ofNatMin r, ofNatMin s⟩)
      = .ok .valid ↔ 0 < r ∧ 0 < s ∧ Ecdsa.IsSignature Q message r s := by
  have hparse := EcdsaSignature.parse_toDer_ofNatMin (Ecdsa.width_le_of_lt_order hr)
    (Ecdsa.width_le_of_lt_order hs)
  rw [verify_ecdsaP256Sha256_of_parse hkey hparse, ofBool_eq_valid_iff, toNat_ofNatMin,
    toNat_ofNatMin, Ecdsa.verifyNumbers_eq_true_iff, and_iff_right hr, and_iff_right hs]

/-- With a signature the one with the negative of the second number is valid. -/
theorem verify_toDer_of_add_eq_order {Q : Ecdsa.Group}
    (hkey : key.publicKey = .ecdsaP256 (ofGroup Q)) {r s t : ℕ} (hr : r < P256.order)
    (ht : 0 < t) (hsum : s + t = P256.order)
    (h : key.verify .ecdsaP256Sha256 message (EcdsaSignature.toDer ⟨ofNatMin r, ofNatMin s⟩)
      = .ok .valid) :
    key.verify .ecdsaP256Sha256 message (EcdsaSignature.toDer ⟨ofNatMin r, ofNatMin t⟩)
      = .ok .valid := by
  obtain ⟨hpos, hs, hsig⟩ := (verify_toDer_ofNatMin_eq_valid_iff hkey hr (by omega)).1 h
  have htlt : t < P256.order := by omega
  exact (verify_toDer_ofNatMin_eq_valid_iff hkey hr htlt).2 ⟨hpos, ht, hsig.twin hs ht hsum⟩

/-- An encoded signature that is valid has at most 72 bytes. -/
theorem length_le_of_verify_ecdsaP256Sha256 {sig : EcdsaSignature}
    (hparse : EcdsaSignature.parse signature = .ok sig)
    (hrange : ¬ IsOutOfRange (toNat sig.r) (toNat sig.s)) : signature.length ≤ 72 := by
  obtain ⟨-, hrlt, -, hslt⟩ := not_isOutOfRange_iff.1 hrange
  obtain ⟨hd, -, hminr, hmins⟩ := EcdsaSignature.ofDer?_eq_some_iff.1
    (EcdsaSignature.parse_eq_ok_iff.1 hparse)
  have hlength := EcdsaSignature.length_encode_ofNatMin_le (Ecdsa.width_le_of_lt_order hrlt)
    (Ecdsa.width_le_of_lt_order hslt)
  rw [ofNatMin_toNat hminr, ofNatMin_toNat hmins, ← hd] at hlength
  exact hlength

/-- A change in the first three bytes of a valid signature leaves nothing that can be read. -/
theorem verify_flipBit_ecdsaP256Sha256_of_lt (hkey : Obtainable key)
    (hvalid : key.verify .ecdsaP256Sha256 message signature = .ok .valid)
    (hi : i < signature.length) (hj : j < 8) (hfirst : i < 3) :
    key.verify .ecdsaP256Sha256 message (flipBit signature i j) = .error .parseFailure := by
  obtain ⟨Q, hQ⟩ := hkey.exists_ofGroup (algorithm_of_verify hvalid).symm
  obtain ⟨sig, hparse, hrange, -⟩ := (verify_ecdsaP256Sha256_eq_valid_iff hQ).1 hvalid
  have hlength := length_le_of_verify_ecdsaP256Sha256 hparse hrange
  -- a document of this length is read with these three bytes only.
  rcases EcdsaSignature.parse_eq_ok_or_parseFailure (flipBit signature i j) with ⟨sig', h⟩ | h
  · have hlast := EcdsaSignature.three_le_of_parse_flipBit hparse h (by omega) hi hj
    omega
  · exact verify_ecdsaP256Sha256_of_parse_eq_error hQ h

/-- With the first number unchanged, the second one goes to its negative with the last bit, or there
are two coordinates. -/
theorem twin_of_verify_flipBit {Q : Ecdsa.Group} {r s t : Bytes}
    (hkey : key.publicKey = .ecdsaP256 (ofGroup Q))
    (hvalid : key.verify .ecdsaP256Sha256 message signature = .ok .valid)
    (hi : i < signature.length) (hj : j < 8)
    (hparse : EcdsaSignature.parse signature = .ok ⟨r, s⟩)
    (hparse' : EcdsaSignature.parse (flipBit signature i j) = .ok ⟨r, t⟩)
    (hvalid' : key.verify .ecdsaP256Sha256 message (flipBit signature i j) = .ok .valid) :
    (i + 1 = signature.length ∧ j = 0 ∧ toNat s + toNat t = P256.order ∧
      (toNat t = toNat s + 1 ∨ toNat s = toNat t + 1)) ∨
    Ecdsa.HaveTwoCoordinates Q message (toNat r) (toNat s) (toNat t) := by
  obtain ⟨sig, hsig, hrange, h⟩ := (verify_ecdsaP256Sha256_eq_valid_iff hkey).1 hvalid
  obtain ⟨sig', hsig', hrange', h'⟩ := (verify_ecdsaP256Sha256_eq_valid_iff hkey).1 hvalid'
  obtain rfl := Except.ok.inj (hparse.symm.trans hsig)
  obtain rfl := Except.ok.inj (hparse'.symm.trans hsig')
  obtain ⟨-, hrlt, hs, hslt⟩ := not_isOutOfRange_iff.1 hrange
  obtain ⟨-, -, ht, htlt⟩ := not_isOutOfRange_iff.1 hrange'
  rcases h.eq_or_add_eq_order_or h' hrlt hs hslt ht htlt with heq | hsum | htwo
  · -- one second number is no change at all.
    have hbit := EcdsaSignature.toNat_of_parse_flipBit hparse hparse' hi hj
    have hpos : 0 < 2 ^ bitPlace signature i j := Nat.two_pow_pos _
    dsimp only at heq
    omega
  · obtain ⟨hlast, hlow, hnext⟩ := Ecdsa.last_bit_of_add_eq_order hparse hparse' hi hj hsum
    exact .inl ⟨hlast, hlow, hsum, hnext⟩
  · exact .inr htwo

/-! ### All schemes -/

/-- Flipping a bit of a valid signature leaves it valid exactly if the result solves the scheme's
equation again. -/
theorem verify_flipBit_eq_valid_iff (hkey : Obtainable key)
    (hvalid : key.verify scheme message signature = .ok .valid) (hi : i < signature.length)
    (hj : j < 8) :
    key.verify scheme message (flipBit signature i j) = .ok .valid ↔
      SolvesAgain key message signature i j scheme := by
  cases scheme with
  | ed25519 => exact verify_flipBit_ed25519_eq_valid_iff hvalid hi hj
  | rsaPkcs1Sha256 => exact verify_flipBit_rsaPkcs1Sha256_eq_valid_iff hvalid
  | rsaPssSha256 => exact verify_flipBit_rsaPssSha256_eq_valid_iff hvalid
  | ecdsaP256Sha256 =>
    exact verify_flipBit_ecdsaP256Sha256_eq_valid_iff hkey (algorithm_of_verify hvalid).symm

/-- A valid signature with one bit changed is valid again exactly where it solves the equation of
its scheme a second time. -/
theorem verify_flipBit (hkey : Obtainable key)
    (hvalid : key.verify scheme message signature = .ok .valid) (hi : i < signature.length)
    (hj : j < 8) : FlipLaw key scheme message signature i j where
  valid_iff := verify_flipBit_eq_valid_iff hkey hvalid hi hj
  outcome hnot := by
    rw [← verify_flipBit_eq_valid_iff hkey hvalid hi hj] at hnot
    cases hverdict : key.verify scheme message (flipBit signature i j) with
    | ok verdict =>
      cases verdict with
      | valid => exact absurd hverdict hnot
      | invalid => exact .inl rfl
    | error e =>
      -- the key is of the algorithm of the scheme, so all that can be wrong is the document.
      obtain ⟨rfl, hscheme, -⟩ := (verify_eq_error_iff (algorithm_of_verify hvalid)).1 hverdict
      exact .inr ⟨hscheme, rfl⟩
  rsaPkcs1_invalid k hscheme hk hp hq hne := by
    subst hscheme
    rw [verify_rsaPkcs1Sha256 hk, ofBool_eq_valid_iff] at hvalid
    rw [verify_rsaPkcs1Sha256 hk, Rsa.Pkcs1v15.verify_flipBit_eq_false
      (Rsa.PrivateKey.isUndone_of_prime hp hq hne) hvalid hi hj]
    rfl
  rsaPss_salt_ne k salt salt' _ _ hp hq hne hbits h h' :=
    Rsa.Pss.salt_ne_of_encode?_flipBit (Rsa.PrivateKey.isUndone_of_prime hp hq hne) hbits hi hj h h'
  ecdsa_parseFailure hscheme hfirst := by
    subst hscheme
    exact verify_flipBit_ecdsaP256Sha256_of_lt hkey hvalid hi hj hfirst
  ecdsa_twin Q r s t hscheme hQ hparse hparse' hvalid' := by
    subst hscheme
    exact twin_of_verify_flipBit hQ hvalid hi hj hparse hparse' hvalid'

/-! ### Two signatures one bit apart -/

/-- A key that can come about accepts a signature and accepts it with one of its bits changed. -/
structure StaysValid (key : Key) (scheme : Scheme) (message signature : Bytes) (i j : ℕ) :
    Prop where
  obtainable : Obtainable key
  valid : key.verify scheme message signature = .ok .valid
  lt_length : i < signature.length
  lt_eight : j < 8
  valid_flipBit : key.verify scheme message (flipBit signature i j) = .ok .valid

/-- The Ed25519 key of all zeros. -/
def lowOrderKey : Ed25519.PublicKey := ⟨ofNat 32 0, length_ofNat 32 0⟩

/-- The point that it encodes, whose multiple by four is zero. -/
def lowOrderPoint : Edwards25519.Point :=
  .affine 1 9094040566125962849133224048217411091405536248825867518642941381412595940312

/-- The key decodes to a point of order four. -/
theorem decode?_lowOrderKey : Edwards25519.decode? lowOrderKey.val = some lowOrderPoint := by
  decide +kernel

/-- Multiples of that point depend on the factor modulo four. -/
theorem smul_lowOrderPoint (n : ℕ) :
    Edwards25519.curve.smul n lowOrderPoint = Edwards25519.curve.smul (n % 4) lowOrderPoint := by
  obtain ⟨Q, hQ⟩ :=
    Edwards25519.exists_ofGroup (Edwards25519.contains_of_decode? decode?_lowOrderKey)
  have hfour : 4 • Q = 0 := by
    rw [← ofGroup_eq_infinity_iff, ← smul_ofGroup, hQ]
    decide +kernel
  rw [← hQ, smul_ofGroup, smul_ofGroup, nsmul_eq_mod_nsmul n hfour]

/-- With a zero for the scalar, the remainder of the hash by four decides. -/
theorem verify_lowOrderKey_iff {first : Bytes} (hfirst : first.length = 32) (message : Bytes) :
    Ed25519.verify lowOrderKey message (first ++ List.replicate 32 0) = true ↔
      Edwards25519.encode (Edwards25519.curve.smul
        (Ed25519.challenge first lowOrderKey.val message % 4) lowOrderPoint).neg = first := by
  have hzero : List.replicate 32 0 = ofNatLE Edwards25519.byteLength 0 := by decide
  rw [hzero, Ed25519.verify_append_eq_true_iff decode?_lowOrderKey hfirst (by decide),
    smul_lowOrderPoint]
  rfl

theorem obtainable_lowOrderKey : Obtainable (ofPublic (.ed25519 lowOrderKey)) :=
  obtainable_ofPublic (Option.isSome_iff_exists.2 ⟨_, decode?_lowOrderKey⟩) nofun

/-- Under this key the signature of zeros is valid. -/
theorem verify_lowOrderKey :
    (ofPublic (.ed25519 lowOrderKey)).verify .ed25519 [0x11] (List.replicate 64 0) = .ok .valid := by
  have hkey : (ofPublic (.ed25519 lowOrderKey)).publicKey = .ed25519 lowOrderKey := rfl
  have hparts : List.replicate 64 (0 : UInt8) = List.replicate 32 0 ++ List.replicate 32 0 := rfl
  rw [verify_ed25519 hkey, ofBool_eq_valid_iff, hparts, verify_lowOrderKey_iff rfl]
  decide +kernel

/-- Flipping the sign bit of its first half leaves the signature of zeros valid. -/
theorem staysValid_lowOrderKey :
    StaysValid (ofPublic (.ed25519 lowOrderKey)) .ed25519 [0x11] (List.replicate 64 0) 31 7 where
  obtainable := obtainable_lowOrderKey
  valid := verify_lowOrderKey
  lt_length := by decide
  lt_eight := by decide
  valid_flipBit := by
    have hkey : (ofPublic (.ed25519 lowOrderKey)).publicKey = .ed25519 lowOrderKey := rfl
    have hflip : flipBit (List.replicate 64 0) 31 7
        = flipBit (List.replicate 32 0) 31 7 ++ List.replicate 32 0 := by decide
    rw [verify_ed25519 hkey, ofBool_eq_valid_iff, hflip,
      verify_lowOrderKey_iff (length_flipBit _ _ _)]
    decide +kernel

/-- An RSA key under which two consecutive numbers have one power. -/
def consecutiveKey : Rsa.PublicKey where
  n := 0x2ebad3c466a79303d71745a86aea9165c41fc1e7611010bf5924cb148848f5022704ab34d7b5dae70551ef10945c0e8e86d2239ebbfff4ba1dc61fac29d9
  e := 3234846615
  n_odd := by decide +kernel
  e_odd := by decide
  three_le_e := by decide
  e_le := by decide
  e_lt_n := by decide +kernel

/-- The lower of them, which signs the text `abc` with the fixed padding. -/
def consecutiveSignature : Bytes :=
  ofNat 62 0xebf8e38274fe2ff8ebb48a3f9902f3c942c154aae83f12e6946ac86699a9275f157e876a008123ab72d2c0e75afa1af90540bb39caf4b286aac8ddc08de

/-- Under this key the next number signs the same text. -/
theorem staysValid_consecutiveKey :
    StaysValid (ofPublic (.rsa consecutiveKey)) .rsaPkcs1Sha256 [0x61, 0x62, 0x63]
      consecutiveSignature 61 0 where
  obtainable := obtainable_ofPublic_rsa (by decide +kernel)
  valid := by
    have hvalid : Rsa.Pkcs1v15.verify consecutiveKey [0x61, 0x62, 0x63] consecutiveSignature
        = true := by decide +kernel
    rw [verify_rsaPkcs1Sha256 rfl, hvalid]
    rfl
  lt_length := by decide
  lt_eight := by decide
  valid_flipBit := by
    have hvalid : Rsa.Pkcs1v15.verify consecutiveKey [0x61, 0x62, 0x63]
        (flipBit consecutiveSignature 61 0) = true := by decide +kernel
    rw [verify_rsaPkcs1Sha256 rfl, hvalid]
    rfl

/-- An RSA key under which the powers of two consecutive numbers are encodings of one message. -/
def resaltedKey : Rsa.PublicKey where
  n := 0x9fbca999f6a60f7e2bdc5a8bee85c9aa88319c340c84cd275d1a3700f772c07246cecdc60bc2cfed6a1de71c6edf98dad14e13ed052bd43e330d49fe218cd9a1b9db
  e := 3234846615
  n_odd := by decide +kernel
  e_odd := by decide
  three_le_e := by decide
  e_le := by decide
  e_lt_n := by decide +kernel

/-- The lower of them, which signs the text `abc`. -/
def resaltedSignature : Bytes :=
  ofNat 66 0x2c3349bad4fc5142bc6535be05a04ff25e2da6f2a286746079b7fa2191a182a8b4a30ea1f6d3cd35e45089f0b2ffce4d039497404e5675df07a0edefa075acdcd218

/-- Flipping a bit leaves a PSS signature valid whose power then encodes another salt. -/
theorem staysValid_resaltedKey :
    StaysValid (ofPublic (.rsa resaltedKey)) .rsaPssSha256 [0x61, 0x62, 0x63]
      resaltedSignature 65 0 where
  obtainable := obtainable_ofPublic_rsa (by decide +kernel)
  valid := by
    have hvalid : Rsa.Pss.verify resaltedKey [0x61, 0x62, 0x63] resaltedSignature = true := by
      decide +kernel
    rw [verify_rsaPssSha256 rfl, hvalid]
    rfl
  lt_length := by decide
  lt_eight := by decide
  valid_flipBit := by
    have hvalid : Rsa.Pss.verify resaltedKey [0x61, 0x62, 0x63] (flipBit resaltedSignature 65 0)
        = true := by decide +kernel
    rw [verify_rsaPssSha256 rfl, hvalid]
    rfl

/-- A private key on P-256 for which the nonce one makes a signature of the text `abc` with half the
order of the group, rounded down, for its second number. -/
def halfKey : Ecdsa.SecretKey where
  scalar := 0xac78296a2446f298936079b14d79c9ed4a813303ca640ba7fc7c368001623538
  scalar_pos := by decide
  scalar_lt := by decide

/-- The first number of that signature: the first coordinate of the generator. -/
def halfFirst : ℕ :=
  0x6b17d1f2e12c4247f8bce6e563a440f277037d812deb33a0f4a13945d898c296

/-- That signature. -/
def halfSignature : Bytes :=
  EcdsaSignature.toDer ⟨ofNatMin halfFirst, ofNatMin (P256.order / 2)⟩

theorem publicKey_halfKey : (ofPublic (.ecdsaP256 halfKey.publicKey)).publicKey
    = .ecdsaP256 (ofGroup (halfKey.scalar • Ecdsa.generatorPoint)) := by
  rw [Ecdsa.ofGroup_publicKey]
  rfl

/-- The signature with half the order as its second number is valid. -/
theorem verify_halfKey : (ofPublic (.ecdsaP256 halfKey.publicKey)).verify .ecdsaP256Sha256
    [0x61, 0x62, 0x63] halfSignature = .ok .valid := by
  have hsign : Ecdsa.signNumbers? halfKey (Ecdsa.digestScalar [0x61, 0x62, 0x63]) 1
      = some (halfFirst, P256.order / 2) := by decide +kernel
  obtain ⟨hr, hrlt, hs, hslt⟩ := Ecdsa.range_of_signNumbers? hsign
  exact (verify_toDer_ofNatMin_eq_valid_iff publicKey_halfKey hrlt hslt).2
    ⟨hr, hs, Ecdsa.isSignature_of_signNumbers? hsign⟩

/-- The last bit of the signature is the difference between the half and what is missing to the
order. -/
theorem staysValid_halfKey :
    StaysValid (ofPublic (.ecdsaP256 halfKey.publicKey)) .ecdsaP256Sha256 [0x61, 0x62, 0x63]
      halfSignature 69 0 where
  obtainable := obtainable_ofPublic (PrivateKey.isSound_publicKey (.ecdsaP256 halfKey)) nofun
  valid := verify_halfKey
  lt_length := by decide +kernel
  lt_eight := by decide
  valid_flipBit := by
    -- the two halves of the order differ in their last bit only, and they add up to the order.
    have hflip : flipBit halfSignature 69 0
        = EcdsaSignature.toDer ⟨ofNatMin halfFirst, ofNatMin (P256.order / 2 + 1)⟩ := by
      decide +kernel
    rw [hflip]
    exact verify_toDer_of_add_eq_order publicKey_halfKey (by decide) (by decide) (by decide)
      verify_halfKey

/-- Under each scheme there is a valid signature that stays valid with one of its bits changed. -/
theorem staysValid_under_each_scheme :
    StaysValid (ofPublic (.ed25519 lowOrderKey)) .ed25519 [0x11] (List.replicate 64 0) 31 7 ∧
    StaysValid (ofPublic (.rsa consecutiveKey)) .rsaPkcs1Sha256 [0x61, 0x62, 0x63]
      consecutiveSignature 61 0 ∧
    StaysValid (ofPublic (.rsa resaltedKey)) .rsaPssSha256 [0x61, 0x62, 0x63]
      resaltedSignature 65 0 ∧
    StaysValid (ofPublic (.ecdsaP256 halfKey.publicKey)) .ecdsaP256Sha256 [0x61, 0x62, 0x63]
      halfSignature 69 0 :=
  ⟨staysValid_lowOrderKey, staysValid_consecutiveKey, staysValid_resaltedKey, staysValid_halfKey⟩

/-- A bit of the scalar makes the signature of zeros invalid. -/
theorem verify_lowOrderKey_flipBit_scalar :
    Obtainable (ofPublic (.ed25519 lowOrderKey)) ∧
      (ofPublic (.ed25519 lowOrderKey)).verify .ed25519 [0x11] (List.replicate 64 0)
        = .ok .valid ∧
      32 < (List.replicate 64 (0 : UInt8)).length ∧
      (ofPublic (.ed25519 lowOrderKey)).verify .ed25519 [0x11]
        (flipBit (List.replicate 64 0) 32 0) = .ok .invalid := by
  have hi : 32 < (List.replicate 64 (0 : UInt8)).length := by decide
  have hlaw := verify_flipBit obtainable_lowOrderKey verify_lowOrderKey hi (show 0 < 8 by decide)
  -- the bit is in the scalar, and only the point can change.
  have hnot : ¬ SolvesAgain (ofPublic (.ed25519 lowOrderKey)) [0x11] (List.replicate 64 0) 32 0
      .ed25519 := by
    rintro ⟨-, -, hfirst, -, -⟩
    exact absurd hfirst (by decide)
  refine ⟨obtainable_lowOrderKey, verify_lowOrderKey, hi, ?_⟩
  rcases hlaw.outcome hnot with h | ⟨h, -⟩
  · exact h
  · cases h

end Keyring.Key
