import Keyring.Proofs.Curve.Group
/-!
# Groups of prime order

A finite point of a curve is told by its first coordinate and one bit, so a group has at most
`2 p + 1` elements. If the order of some element is above a third of that, the order of the group is
this order or twice it, and twice it only with an element of order two: a point that is its own
reflection. Where the cubic has no root there is none, and where the order is prime every element
but zero has it.
-/

namespace Keyring.Curve

open Arith WeierstrassCurve

variable {p : ℕ}

/-- The first coordinate of a point and the parity of the second. -/
def Point.compress : Point p → Option (Fin p × Fin 2)
  | .infinity => none
  | .affine x y => some (x, Fin.ofNat 2 y.val)

variable [NeZero p] [Fact p.Prime] {c : Curve p}

theorem compress_ofGroup_injective (hodd : p % 2 = 1) :
    Function.Injective fun P : c.toWeierstrass.toAffine.Point => (ofGroup P).compress := by
  intro P Q h
  have hP := contains_ofGroup P
  have hQ := contains_ofGroup Q
  refine ofGroup_injective ?_
  cases hpointP : ofGroup P with
  | infinity =>
    cases hpointQ : ofGroup Q with
    | infinity => rfl
    | affine x' y' => simp [hpointP, hpointQ, Point.compress] at h
  | affine x y =>
    cases hpointQ : ofGroup Q with
    | infinity => simp [hpointP, hpointQ, Point.compress] at h
    | affine x' y' =>
      rw [hpointP] at hP
      rw [hpointQ] at hQ
      simp only [hpointP, hpointQ, Point.compress, Option.some.injEq, Prod.mk.injEq] at h
      obtain ⟨rfl, hparity⟩ := h
      have hparity' : y.val % 2 = y'.val % 2 := congrArg Fin.val hparity
      -- two points with one first coordinate are reflections, which differ in parity.
      by_cases hy : y = y'
      · rw [hy]
      · rw [eq_of_parity_eq hodd (.inr (eq_neg_of_contains hP hQ hy)) hparity']

theorem finite_group (hodd : p % 2 = 1) : Finite c.toWeierstrass.toAffine.Point :=
  Finite.of_injective _ (compress_ofGroup_injective hodd)

theorem card_group_le (hodd : p % 2 = 1) :
    Nat.card c.toWeierstrass.toAffine.Point ≤ 2 * p + 1 := by
  calc Nat.card c.toWeierstrass.toAffine.Point ≤ Nat.card (Option (Fin p × Fin 2)) :=
        Nat.card_le_card_of_injective _ (compress_ofGroup_injective hodd)
    _ = 2 * p + 1 := by simp [Nat.mul_comm]

/-- Without a root of the cubic no element of the group is its own negative. -/
theorem eq_zero_of_add_self (hodd : p % 2 = 1) (hroot : ∀ x, c.cubic x ≠ 0)
    {P : c.toWeierstrass.toAffine.Point} (h : P + P = 0) : P = 0 := by
  have hneg : (ofGroup P).neg = ofGroup P := by
    rw [neg_ofGroup, ← eq_neg_of_add_eq_zero_left h]
  have hP := contains_ofGroup P
  cases hpoint : ofGroup P with
  | infinity => exact ofGroup_eq_infinity_iff.1 hpoint
  | affine x y =>
    rw [hpoint] at hneg hP
    exact absurd (Point.affine.inj hneg).2.symm
      (ne_neg_self hodd (val_ne_zero_of_contains hroot hP))

/-- With no root of the cubic, an element of large order has the order of the group. -/
theorem card_group (hodd : p % 2 = 1) (hroot : ∀ x, c.cubic x ≠ 0)
    {P : c.toWeierstrass.toAffine.Point} {order : ℕ} (hP : addOrderOf P = order)
    (hlarge : 2 * p + 1 < 3 * order) : Nat.card c.toWeierstrass.toAffine.Point = order := by
  have : Finite c.toWeierstrass.toAffine.Point := finite_group hodd
  have hle := card_group_le (c := c) hodd
  have hpos : 0 < Nat.card c.toWeierstrass.toAffine.Point := Nat.card_pos
  obtain ⟨k, hk⟩ : order ∣ Nat.card c.toWeierstrass.toAffine.Point := hP ▸ addOrderOf_dvd_natCard P
  have hk3 : k < 3 := by
    by_contra h
    have hmul : order * 3 ≤ order * k := Nat.mul_le_mul_left _ (Nat.le_of_not_lt h)
    omega
  interval_cases k
  · omega
  · omega
  · -- a group of even order has an element of order two.
    have hdvd : 2 ∣ Nat.card c.toWeierstrass.toAffine.Point := ⟨order, by omega⟩
    obtain ⟨T, hT⟩ := exists_prime_addOrderOf_dvd_card' 2 hdvd
    have hdouble : T + T = 0 := by rw [← two_nsmul, ← hT, addOrderOf_nsmul_eq_zero]
    rw [eq_zero_of_add_self hodd hroot hdouble, addOrderOf_zero] at hT
    omega

omit [NeZero p] in
/-- In a group of prime order every element but zero has that order. -/
theorem addOrderOf_eq_of_card {order : ℕ} (horder : order.Prime)
    (hcard : Nat.card c.toWeierstrass.toAffine.Point = order)
    {P : c.toWeierstrass.toAffine.Point} (hP : P ≠ 0) : addOrderOf P = order := by
  have : Fact order.Prime := ⟨horder⟩
  refine addOrderOf_eq_prime ?_ hP
  rw [← hcard]
  exact card_nsmul_eq_zero'

end Keyring.Curve
