import Keyring.Ecdsa
import Keyring.Proofs.Curve.P256
import Keyring.Proofs.Curve.PrimeOrder
import Keyring.Proofs.EcdsaSignature
/-!
# The equation of an ECDSA signature

Verifying decides an equation in the group of the curve, with quotients in the field of scalars for
its factors. The equation is about two numbers. That they come as byte strings of any length, of
which only those as long as a scalar or shorter are ever looked at, leaves no trace in the answer:
an integer without leading zeros that is longer than a scalar is also greater than the order.
-/

namespace Keyring.Ecdsa

open Arith Bytes Curve P256

instance : Fact order.Prime := ⟨prime_order⟩

/-- The group of the curve. -/
abbrev Group := P256.curve.toWeierstrass.toAffine.Point

/-- The generator as an element of the group. -/
def generatorPoint : Group :=
  .some _ _ (nonsingular_of_contains contains_generator (by decide))

/-- The numbers `r` and `s` sign a message under the public key `Q`: the multiple of the generator
by `z / s`, where `z` is the digest of the message, and the multiple of the key by `r / s` add up
to a finite point, and its first coordinate is `r` modulo the order. -/
def IsSignature (Q : Group) (message : Bytes) (r s : ℕ) : Prop :=
  let z : ZMod order := toNat (Hash.sha256 message)
  ∃ x y h, (z / s).val • generatorPoint + ((r : ZMod order) / s).val • Q = .some x y h ∧
    (x.val : ZMod order) = r

/-! ### Points of the group -/

theorem ofGroup_generatorPoint : ofGroup generatorPoint = generator :=
  ofGroup_some _

/-- Every finite point of the curve is an element of the group. -/
theorem exists_ofGroup {P : Point} (hfinite : P ≠ .infinity) (hP : P256.curve.Contains P) :
    ∃ Q : Group, ofGroup Q = P := by
  cases P with
  | infinity => exact absurd rfl hfinite
  | affine x y =>
    have hy : y ≠ -y := ne_neg_self odd_p (val_ne_zero_of_contains hP)
    exact ⟨_, ofGroup_some (nonsingular_of_contains hP hy)⟩

/-- The base point has the order of the group. -/
theorem order_smul_generatorPoint : order • generatorPoint = 0 := by
  rw [← ofGroup_eq_infinity_iff, ← smul_ofGroup, ofGroup_generatorPoint, smul_order_generator]

/-- The generator generates: the group has the order of the generator. -/
theorem card_group : Nat.card Group = order :=
  Curve.card_group odd_p P256.cubic_ne_zero
    (addOrderOf_eq_prime order_smul_generatorPoint
      (WeierstrassCurve.Affine.Point.some_ne_zero _)) (by decide)

/-- Multiples of a point agree exactly if their factors do, modulo the order. -/
theorem smul_eq_smul_iff {P : Group} (hP : P ≠ 0) {m n : ℕ} :
    m • P = n • P ↔ (m : ZMod order) = n := by
  rw [nsmul_eq_nsmul_iff_modEq, addOrderOf_eq_of_card prime_order card_group hP,
    ZMod.natCast_eq_natCast_iff]

/-- Multiples of a point depend on the scalars that their factors stand for. -/
theorem smul_congr {m n : ℕ} (h : (m : ZMod order) = n) (P : Group) : m • P = n • P := by
  by_cases hP : P = 0
  · rw [hP, nsmul_zero, nsmul_zero]
  · exact (smul_eq_smul_iff hP).2 h

/-- The number of a point is its abscissa modulo the order. -/
theorem pointScalar_ofGroup_eq_iff {R : Group} {r : ℕ} (hpos : 0 < r) (hlt : r < order) :
    pointScalar (ofGroup R) = r ↔ ∃ x y h, R = .some x y h ∧ (x.val : ZMod order) = r := by
  -- the point at infinity counts as zero, which no number in range is.
  cases R with
  | zero =>
    refine iff_of_false ?_ ?_
    · exact hpos.ne
    · rintro ⟨x, y, h, ⟨⟩, -⟩
  | some x y h =>
    have hx : pointScalar (ofGroup (.some x y h)) = x.val % order := rfl
    have hr : (x.val : ZMod order) = r ↔ x.val % order = r := by
      rw [ZMod.natCast_eq_natCast_iff', Nat.mod_eq_of_lt hlt]
    rw [hx, ← hr]
    constructor
    · intro heq
      exact ⟨x, y, h, rfl, heq⟩
    · rintro ⟨_, _, _, ⟨⟩, heq⟩
      exact heq

/-! ### Numbers -/

/-- A positive number below the order is no zero modulo it. -/
theorem cast_ne_zero_of_lt {s : ℕ} (hpos : 0 < s) (hlt : s < order) : (s : ZMod order) ≠ 0 := by
  rw [ne_eq, ZMod.natCast_eq_zero_iff]
  exact fun hdvd => hpos.ne' (Nat.eq_zero_of_dvd_of_lt hdvd hlt)

/-- A positive number below the order has an inverse. -/
theorem exists_inverse? {s : ℕ} (hpos : 0 < s) (hlt : s < order) :
    ∃ w, inverse? s order = some w ∧ (w : ZMod order) = (s : ZMod order)⁻¹ := by
  have hcoprime : Nat.Coprime s order :=
    (Nat.coprime_of_lt_prime hpos.ne' hlt prime_order).symm
  cases hw : inverse? s order with
  | none => exact absurd hcoprime ((inverse?_eq_none_iff prime_order.pos).1 hw)
  | some w => exact ⟨w, rfl, eq_inv_of_mul_eq_one_left (cast_of_inverse? prime_order.pos hw)⟩

/-- A product of two numbers, reduced, is the least number that stands for the product of what they
stand for. -/
theorem mul_mod_eq_val {m w : ℕ} {a b : ZMod order} (hm : (m : ZMod order) = a)
    (hw : (w : ZMod order) = b) : m * w % order = (a * b).val := by
  rw [← ZMod.val_natCast, Nat.cast_mul, hm, hw]

/-- Verifying two numbers is the test of their range and of the equation. -/
theorem verifyNumbers_eq_true_iff {Q : Group} {message : Bytes} {r s : ℕ} :
    verifyNumbers (ofGroup Q) message r s = true ↔
      0 < r ∧ r < order ∧ 0 < s ∧ s < order ∧ IsSignature Q message r s := by
  simp only [verifyNumbers, Bool.and_eq_true, decide_eq_true_iff, and_assoc]
  refine and_congr_right fun hr => and_congr_right fun hrlt => and_congr_right fun hs =>
    and_congr_right fun hslt => ?_
  -- in range the second number has an inverse, and the multiples are taken modulo the order.
  obtain ⟨w, hw, hinverse⟩ := exists_inverse? hs hslt
  have hdigest : ((digestScalar message : ℕ) : ZMod order) = toNat (Hash.sha256 message) :=
    ZMod.natCast_mod _ _
  simp only [hw, decide_eq_true_iff, mul_mod_eq_val hdigest hinverse,
    mul_mod_eq_val (rfl : ((r : ℕ) : ZMod order) = r) hinverse]
  rw [← ofGroup_generatorPoint, smul_ofGroup, smul_ofGroup, add_ofGroup,
    pointScalar_ofGroup_eq_iff hr hrlt]
  simp only [IsSignature, div_eq_mul_inv]

/-- Numbers from the order on do not verify. -/
theorem verifyNumbers_of_order_le {P : Point} {message : Bytes} {r s : ℕ}
    (h : order ≤ r ∨ order ≤ s) : verifyNumbers P message r s = false := by
  rw [Bool.eq_false_iff]
  intro htrue
  simp only [verifyNumbers, Bool.and_eq_true, decide_eq_true_iff] at htrue
  omega

/-! ### Signing -/

theorem pointScalar_lt (P : Point) : pointScalar P < order := by
  cases P with
  | infinity => exact prime_order.pos
  | affine x y => exact Nat.mod_lt _ prime_order.pos

/-- The numbers that are computed from a nonce are scalars other than zero. -/
theorem range_of_signNumbers? {key : SecretKey} {z k r s : ℕ}
    (h : signNumbers? key z k = some (r, s)) : 0 < r ∧ r < order ∧ 0 < s ∧ s < order := by
  simp only [signNumbers?, Option.bind_eq_bind, Option.bind_eq_some_iff] at h
  obtain ⟨w, -, h⟩ := h
  rw [Option.ite_none_left_eq_some, Option.some_inj, Prod.mk.injEq, not_or] at h
  obtain ⟨⟨hr, hs⟩, rfl, rfl⟩ := h
  exact ⟨Nat.pos_of_ne_zero hr, pointScalar_lt _, Nat.pos_of_ne_zero hs,
    Nat.mod_lt _ prime_order.pos⟩

/-- What a private key computes from a nonce satisfies the equation for its public key. -/
theorem isSignature_of_signNumbers? {key : SecretKey} {message : Bytes} {k r s : ℕ}
    (h : signNumbers? key (digestScalar message) k = some (r, s)) :
    IsSignature (key.scalar • generatorPoint) message r s := by
  obtain ⟨hpos, hlt, hspos, hslt⟩ := range_of_signNumbers? h
  simp only [signNumbers?, Option.bind_eq_bind, Option.bind_eq_some_iff] at h
  obtain ⟨w, hw, h⟩ := h
  rw [Option.ite_none_left_eq_some, Option.some_inj, Prod.mk.injEq] at h
  obtain ⟨-, hreq, hseq⟩ := h
  rw [hreq] at hseq
  have hinverse : (w : ZMod order) * k = 1 := cast_of_inverse? prime_order.pos hw
  have hs' : (s : ZMod order) = w * (toNat (Hash.sha256 message) + r * key.scalar) := by
    rw [← hseq, ZMod.natCast_mod]
    simp only [digestScalar, Nat.cast_mul, Nat.cast_add, ZMod.natCast_mod]
  have hne := cast_ne_zero_of_lt hspos hslt
  -- divided by `s` the digest and the private key make up the nonce again.
  have hnonce : ((toNat (Hash.sha256 message) : ZMod order) / s).val • generatorPoint
      + ((r : ZMod order) / s).val • key.scalar • generatorPoint = k • generatorPoint := by
    rw [← mul_nsmul', ← add_nsmul]
    refine smul_congr ?_ generatorPoint
    rw [Nat.cast_add, Nat.cast_mul, ZMod.natCast_zmod_val, ZMod.natCast_zmod_val,
      div_mul_eq_mul_div, ← add_div, div_eq_iff hne, hs']
    linear_combination
      -((toNat (Hash.sha256 message) : ZMod order) + r * key.scalar) * hinverse
  rw [← ofGroup_generatorPoint, smul_ofGroup, pointScalar_ofGroup_eq_iff hpos hlt] at hreq
  obtain ⟨x, y, hxy, hpoint, hx⟩ := hreq
  exact ⟨x, y, hxy, hnonce.trans hpoint, hx⟩

/-- The public key of a scalar is this multiple of the base point. -/
theorem ofGroup_publicKey (key : SecretKey) :
    ofGroup (key.scalar • generatorPoint) = key.publicKey := by
  rw [← smul_ofGroup, ofGroup_generatorPoint, SecretKey.publicKey]

/-- The numbers that are computed from a nonce are verified under the public key. -/
theorem verifyNumbers_of_signNumbers? {key : SecretKey} {message : Bytes} {k r s : ℕ}
    (h : signNumbers? key (digestScalar message) k = some (r, s)) :
    verifyNumbers key.publicKey message r s = true := by
  obtain ⟨hr, hrlt, hs, hslt⟩ := range_of_signNumbers? h
  rw [← ofGroup_publicKey]
  exact verifyNumbers_eq_true_iff.2 ⟨hr, hrlt, hs, hslt, isSignature_of_signNumbers? h⟩

/-! ### Encoded signatures -/

/-- Verifying an encoded signature is verifying the numbers that it holds. Neither their leading
zeros nor their lengths matter. -/
theorem verify_of_parse {signature : Bytes} {sig : EcdsaSignature}
    (h : EcdsaSignature.parse signature = .ok sig) (P : Point) (message : Bytes) :
    verify P message signature = .ok (verifyNumbers P message (toNat sig.r) (toNat sig.s)) := by
  obtain ⟨-, hr, hs, -⟩ := EcdsaSignature.parse_eq_ok_iff_toDer.1 h
  -- a number that does not fit into 32 bytes is not below the order either.
  have hlarge : ∀ {b : Bytes}, IsMinimal b → padLeft? byteLength b = none → order ≤ toNat b := by
    intro b hb hnone
    have hpow : 256 ^ byteLength ≤ toNat b :=
      (lt_length_iff_of_isMinimal hb).1 (padLeft?_eq_none_iff.1 hnone)
    exact le_trans (by decide) hpow
  simp only [verify, h, bind, Except.bind]
  cases hpadR : padLeft? byteLength sig.r with
  | none => rw [verifyNumbers_of_order_le (.inl (hlarge hr hpadR))]; rfl
  | some r =>
    cases hpadS : padLeft? byteLength sig.s with
    | none => rw [verifyNumbers_of_order_le (.inr (hlarge hs hpadS))]; rfl
    | some s => rw [← toNat_of_padLeft? hpadR, ← toNat_of_padLeft? hpadS]; rfl

/-- A signature that does not parse is an error. -/
theorem verify_of_parse_eq_error {signature : Bytes} {e : Error}
    (h : EcdsaSignature.parse signature = .error e) (P : Point) (message : Bytes) :
    verify P message signature = .error e := by
  simp only [verify, h, bind, Except.bind]

/-- Verifying fails exactly where the signature is not read. -/
theorem verify_eq_error_iff {P : Point} {message signature : Bytes} {e : Error} :
    verify P message signature = .error e ↔
      e = .parseFailure ∧ ¬ EcdsaSignature.IsCanonical signature := by
  rw [← EcdsaSignature.parse_eq_error_iff]
  cases h : EcdsaSignature.parse signature with
  | error e' => rw [verify_of_parse_eq_error h, Except.error.injEq, Except.error.injEq]
  | ok sig => exact iff_of_false (by rw [verify_of_parse h]; nofun) nofun

/-! ### Signatures that are made and verified -/

theorem order_lt : order < 2 ^ 256 := by
  norm_num [order]

/-- A number below the order takes at most 32 bytes. -/
theorem width_le_of_lt_order {n : ℕ} (h : n < order) : width n ≤ 32 :=
  width_le_iff.2 (h.trans order_lt)

/-- A signature is read as two numbers that some nonce leads to, and written again as it was. -/
theorem exists_parse_of_sign? {key : SecretKey} {message signature : Bytes}
    (h : sign? key message = some signature) : ∃ k r s,
      signNumbers? key (digestScalar message) k = some (r, s) ∧
        EcdsaSignature.parse signature = .ok ⟨ofNatMin r, ofNatMin s⟩ ∧
        EcdsaSignature.toDer ⟨ofNatMin r, ofNatMin s⟩ = signature := by
  obtain ⟨k, -, h⟩ := Option.bind_eq_some_iff.1 h
  obtain ⟨⟨r, s⟩, hnumbers, h⟩ := Option.bind_eq_some_iff.1 h
  obtain rfl := Option.some.inj h
  obtain ⟨-, hrlt, -, hslt⟩ := range_of_signNumbers? hnumbers
  exact ⟨k, r, s, hnumbers, EcdsaSignature.parse_toDer_ofNatMin (width_le_of_lt_order hrlt)
    (width_le_of_lt_order hslt), rfl⟩

/-- A signature is the encoding of two scalars other than zero, and is read as the two. -/
theorem exists_scalars_of_sign? {key : SecretKey} {message signature : Bytes}
    (h : sign? key message = some signature) : ∃ r s : Bytes,
      EcdsaSignature.parse signature = .ok ⟨r, s⟩ ∧ (0 < toNat r ∧ toNat r < order) ∧
        (0 < toNat s ∧ toNat s < order) ∧ EcdsaSignature.toDer ⟨r, s⟩ = signature := by
  obtain ⟨k, r, s, hnumbers, hparse, hwrite⟩ := exists_parse_of_sign? h
  obtain ⟨hr, hrlt, hs, hslt⟩ := range_of_signNumbers? hnumbers
  refine ⟨ofNatMin r, ofNatMin s, hparse, ?_, ?_, hwrite⟩
  · rw [toNat_ofNatMin]
    exact ⟨hr, hrlt⟩
  · rw [toNat_ofNatMin]
    exact ⟨hs, hslt⟩

/-- What a private key signs is verified under its public key. -/
theorem verify_of_sign? {key : SecretKey} {message signature : Bytes}
    (h : sign? key message = some signature) :
    verify key.publicKey message signature = .ok true := by
  obtain ⟨k, r, s, hnumbers, hparse, -⟩ := exists_parse_of_sign? h
  rw [verify_of_parse hparse, toNat_ofNatMin, toNat_ofNatMin,
    verifyNumbers_of_signNumbers? hnumbers]

end Keyring.Ecdsa
