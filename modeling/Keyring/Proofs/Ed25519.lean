import Keyring.Ed25519
import Keyring.Proofs.BitFlip
import Keyring.Proofs.Curve.Edwards25519
/-!
# What an Ed25519 key signs is valid

A signature holds a multiple `r` of the generator and the scalar `r + k * a`, where `a` is the
scalar of the key and `k` ties the two together. Verifying takes `k` times the public key off again,
and in the group of the curve that leaves the multiple by `r`. The scalar is reduced modulo the
order of the generator and `a` is not, which makes no difference to a multiple of the generator.

That order is prime, so different scalars below it lead to different points, and verifying leaves
one scalar at most behind a first half.
-/

namespace Keyring.Ed25519

open Arith Bytes Curve Edwards25519

/-- The group of the curve. -/
abbrev Group := Edwards25519.curve.toWeierstrass.toAffine.Point

/-- The generator as an element of the group. -/
def generatorPoint : Group :=
  .some _ _ (nonsingular_of_contains contains_generator (by decide))

theorem ofGroup_generatorPoint : ofGroup generatorPoint = generator :=
  ofGroup_some _

theorem order_smul_generatorPoint : order • generatorPoint = 0 := by
  rw [← ofGroup_eq_infinity_iff, ← smul_ofGroup, ofGroup_generatorPoint, smul_order_generator]

/-- The order of the generator is the prime of the signatures. -/
theorem addOrderOf_generatorPoint : addOrderOf generatorPoint = order :=
  have : Fact order.Prime := ⟨prime_order⟩
  addOrderOf_eq_prime order_smul_generatorPoint (WeierstrassCurve.Affine.Point.some_ne_zero _)

/-- Factors below the order are told by their multiples of the generator. -/
theorem eq_of_smul_generatorPoint_eq {m n : ℕ} (hm : m < order) (hn : n < order)
    (h : m • generatorPoint = n • generatorPoint) : m = n := by
  rw [nsmul_eq_nsmul_iff_modEq, addOrderOf_generatorPoint] at h
  exact h.eq_of_lt_of_lt hm hn

/-- A factor of the generator may be reduced. -/
theorem mod_order_smul_generatorPoint (n : ℕ) :
    (n % order) • generatorPoint = n • generatorPoint :=
  (nsmul_eq_mod_nsmul n order_smul_generatorPoint).symm

/-- What verifying computes from the scalar of a signature is the point that the signature was made
from. -/
theorem add_smul_neg_smul (a r k : ℕ) :
    curve.add (curve.smul ((r + k * a) % order) generator)
        (curve.smul k (curve.smul a generator)).neg
      = curve.smul r generator := by
  have hgroup : (r + k * a) • generatorPoint + -(k • a • generatorPoint) = r • generatorPoint := by
    rw [add_nsmul, mul_nsmul', add_neg_cancel_right]
  rw [← ofGroup_generatorPoint, smul_ofGroup, smul_ofGroup, smul_ofGroup, smul_ofGroup, neg_ofGroup,
    add_ofGroup, mod_order_smul_generatorPoint, hgroup]

/-! ### Signatures -/

@[simp] theorem length_sign (seed : Seed) (message : Bytes) :
    (sign seed message).length = signatureLength := by
  simp only [sign, List.length_append, length_encode, length_ofNatLE]
  rfl

/-- The public key of a seed is read as the point that it was made from. -/
theorem decode?_publicKey (seed : Seed) :
    decode? (publicKey seed).val = some (curve.smul (scalar seed) generator) :=
  decode?_encode (contains_smul_generator _)

/-- A reduced scalar has a place in the bytes of a scalar. -/
theorem toNatLE_ofNatLE_of_lt {s : ℕ} (hs : s < order) : toNatLE (ofNatLE byteLength s) = s := by
  have hplace : order < 256 ^ byteLength := by norm_num [order, byteLength]
  rw [toNatLE_ofNatLE, Nat.mod_eq_of_lt (hs.trans hplace)]

/-- A signature with a reduced scalar is valid if its first half is what the scalar leads to. -/
theorem verify_append_eq_true_iff {key : PublicKey} {A : Edwards25519.Point}
    (hkey : decode? key.val = some A) {message first : Bytes} (hfirst : first.length = byteLength)
    {s : ℕ} (hs : s < order) :
    verify key message (first ++ ofNatLE byteLength s) = true ↔
      encode (curve.add (curve.smul s generator)
        (curve.smul (challenge first key.val message) A).neg) = first := by
  have hscalar := toNatLE_ofNatLE_of_lt hs
  have hlength : (first ++ ofNatLE byteLength s).length = signatureLength := by
    rw [List.length_append, hfirst, length_ofNatLE]
    rfl
  unfold verify
  simp only [hkey, List.take_left' hfirst, List.drop_left' hfirst, hscalar, hlength, hs,
    Bool.and_eq_true, decide_eq_true_eq, true_and]

/-- No other length verifies. -/
theorem verify_eq_false_of_length_ne {signature : Bytes} (h : signature.length ≠ signatureLength)
    (key : PublicKey) (message : Bytes) : verify key message signature = false := by
  unfold verify
  cases decode? key.val with
  | none => rfl
  | some A => simp only [h, decide_false, Bool.false_and]

/-- Every message that a seed signs is verified under the public key of the seed. -/
theorem verify_sign (seed : Seed) (message : Bytes) :
    verify (publicKey seed) message (sign seed message) = true := by
  have hreduced : ∀ n, n % order < order := fun n => Nat.mod_lt n (by norm_num [order])
  refine (verify_append_eq_true_iff (decode?_publicKey seed) (length_encode _) (hreduced _)).2 ?_
  rw [add_smul_neg_smul]

/-! ### One scalar for each first half

The first half of a valid signature, the key and the message leave one multiple of the generator,
and so one scalar below the order, whatever the public key is.
-/

section Valid

variable {key : PublicKey} {Q : Group} {message signature signature' : Bytes} {i j : ℕ}

/-- Under a key that accepts something, verifying is about a point of the group. -/
theorem exists_ofGroup_of_verify (h : verify key message signature = true) :
    ∃ Q : Group, decode? key.val = some (ofGroup Q) := by
  unfold verify at h
  cases hdecode : decode? key.val with
  | none => simp only [hdecode, Bool.false_eq_true] at h
  | some A =>
    obtain ⟨Q, rfl⟩ := exists_ofGroup (contains_of_decode? hdecode)
    exact ⟨Q, rfl⟩

/-- Verification as an equation of the group. -/
theorem verify_eq_true_iff (hkey : decode? key.val = some (ofGroup Q)) :
    verify key message signature = true ↔ signature.length = signatureLength ∧
      toNatLE (signature.drop byteLength) < order ∧
      encode (ofGroup (toNatLE (signature.drop byteLength) • generatorPoint
        - challenge (signature.take byteLength) key.val message • Q))
          = signature.take byteLength := by
  unfold verify
  simp only [hkey, Bool.and_eq_true, decide_eq_true_eq, and_assoc]
  rw [← ofGroup_generatorPoint, smul_ofGroup, smul_ofGroup, neg_ofGroup, add_ofGroup,
    sub_eq_add_neg]

/-- A valid signature has 64 bytes, and a scalar below the order. -/
theorem length_of_verify (h : verify key message signature = true) :
    signature.length = signatureLength ∧ toNatLE (signature.drop byteLength) < order := by
  obtain ⟨Q, hQ⟩ := exists_ofGroup_of_verify h
  obtain ⟨hlength, hlt, -⟩ := (verify_eq_true_iff hQ).1 h
  exact ⟨hlength, hlt⟩

/-- With the same point the scalar of a valid signature is determined. -/
theorem eq_of_verify (hfirst : signature.take byteLength = signature'.take byteLength)
    (h : verify key message signature = true) (h' : verify key message signature' = true) :
    signature = signature' := by
  obtain ⟨Q, hQ⟩ := exists_ofGroup_of_verify h
  obtain ⟨hlength, hlt, hpoint⟩ := (verify_eq_true_iff hQ).1 h
  obtain ⟨hlength', hlt', hpoint'⟩ := (verify_eq_true_iff hQ).1 h'
  -- with the same first half both scalars lead to one point.
  have hscalar : toNatLE (signature.drop byteLength) = toNatLE (signature'.drop byteLength) := by
    rw [← hfirst] at hpoint'
    exact eq_of_smul_generatorPoint_eq hlt hlt'
      (sub_left_inj.1 (encode_ofGroup_inj.1 (hpoint.trans hpoint'.symm)))
  have hsecond : signature.drop byteLength = signature'.drop byteLength := by
    rw [← ofNatLE_toNatLE (signature.drop byteLength),
      ← ofNatLE_toNatLE (signature'.drop byteLength), hscalar, List.length_drop, List.length_drop,
      hlength, hlength']
  rw [← List.take_append_drop byteLength signature, hfirst, hsecond, List.take_append_drop]

/-! ### Changed signatures

So no bit of the scalar may be changed. The first half enters the hash, and another one is valid
where it happens to be what the scalar leads to with the hash that belongs to it.
-/

/-- A valid signature with one bit changed is valid if and only if the bit is one of the first half
and the point that the first half encodes has moved by the difference of the two hashes. -/
theorem verify_flipBit_eq_true_iff (hkey : decode? key.val = some (ofGroup Q))
    (hvalid : verify key message signature = true) (hi : i < signature.length) (hj : j < 8) :
    verify key message (flipBit signature i j) = true ↔ i < byteLength ∧
      ∃ R : Group, encode (ofGroup R) = signature.take byteLength ∧
        encode (ofGroup (R + challenge (signature.take byteLength) key.val message • Q
          - challenge ((flipBit signature i j).take byteLength) key.val message • Q))
            = (flipBit signature i j).take byteLength := by
  -- in the first half the challenge changes too, and in the second half the scalar is determined.
  rcases Nat.lt_or_ge i byteLength with hfirst | hsecond
  · obtain ⟨hlength, hlt, hpoint⟩ := (verify_eq_true_iff hkey).1 hvalid
    rw [verify_eq_true_iff hkey, length_flipBit, drop_flipBit_of_lt hfirst]
    constructor
    · rintro ⟨-, -, h⟩
      exact ⟨hfirst, _, hpoint, by rwa [sub_add_cancel]⟩
    · rintro ⟨-, R, hR, h⟩
      obtain rfl := encode_ofGroup_inj.1 (hR.trans hpoint.symm)
      rw [sub_add_cancel] at h
      exact ⟨hlength, hlt, h⟩
  · refine iff_of_false (fun h => ?_) fun h => absurd h.1 (Nat.not_lt.2 hsecond)
    exact flipBit_ne hi hj (eq_of_verify (take_flipBit_of_le hsecond signature j) h hvalid)

end Valid

end Keyring.Ed25519
