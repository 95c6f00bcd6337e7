import Keyring.Curve.Weierstrass
import Keyring.Proofs.Arith.Residue
/-!
# The group of a curve

Over a prime field the sum by chord and tangent is the addition of the group of a Weierstrass curve.
The points of that group are taken to pairs of residues, and every multiple of a point is the image
of the multiple in the group. So multiples of a point on a curve are on it, and the order of a
generator is found by computing one of them.

Whether the cubic of a curve has a root is decided in the ring of remainders by it: a root is its
own `p`-th power, so there is none if the difference of that power and the indeterminate is a unit.
-/

namespace Keyring.Curve

open Arith WeierstrassCurve

variable {p : ℕ}

/-- The curve over the field with `p` elements. -/
def toWeierstrass (c : Curve p) : WeierstrassCurve (ZMod p) :=
  ⟨0, residue c.a₂, 0, residue c.a₄, residue c.a₆⟩

/-- A point of the group as a pair of residues. -/
def ofGroup [NeZero p] {c : Curve p} : c.toWeierstrass.toAffine.Point → Point p
  | .zero => .infinity
  | .some x y _ => .affine (ofResidue x) (ofResidue y)

variable {c : Curve p}

theorem residue_cubic (x : Fin p) :
    residue (c.cubic x)
      = residue x ^ 3 + residue c.a₂ * residue x ^ 2 + residue c.a₄ * residue x + residue c.a₆ := by
  simp only [cubic, residue_add, residue_mul]
  ring

/-- A point of the curve is a solution of the Weierstrass equation. -/
theorem contains_affine_iff {x y : Fin p} :
    c.Contains (.affine x y) ↔ c.toWeierstrass.toAffine.Equation (residue x) (residue y) := by
  rw [Contains, ← residue_inj, residue_cubic, residue_mul, Affine.equation_iff]
  simp [toWeierstrass, sq]

/-- A point on the curve that is not its own reflection is a point of the group. -/
theorem nonsingular_of_contains {x y : Fin p} (h : c.Contains (.affine x y)) (hy : y ≠ -y) :
    c.toWeierstrass.toAffine.Nonsingular (residue x) (residue y) := by
  refine (Affine.nonsingular_iff _ _).2 ⟨contains_affine_iff.1 h, Or.inr ?_⟩
  have hne := residue_injective.ne hy
  simpa [toWeierstrass] using hne

/-- Two points of the curve with one first coordinate are each other's reflections. -/
theorem eq_neg_of_contains [Fact p.Prime] {x y y' : Fin p} (h : c.Contains (.affine x y))
    (h' : c.Contains (.affine x y')) (hne : y ≠ y') : y = -y' := by
  have hsquare : y * y = y' * y' := by
    rw [show y * y = c.cubic x from h, show y' * y' = c.cubic x from h']
  exact (eq_or_eq_neg_of_mul_self_eq hsquare).resolve_left hne

section Group

variable [NeZero p]

theorem ofGroup_some {x y : Fin p}
    (h : c.toWeierstrass.toAffine.Nonsingular (residue x) (residue y)) :
    ofGroup (.some _ _ h) = .affine x y := by
  simp only [ofGroup, ofResidue_residue]

/-- The points of the group are on the curve. -/
theorem contains_ofGroup (P : c.toWeierstrass.toAffine.Point) : c.Contains (ofGroup P) := by
  cases P with
  | zero => trivial
  | some x y h =>
    rw [ofGroup, contains_affine_iff, residue_ofResidue, residue_ofResidue]
    exact h.1

/-- Elements of the group are known from their coordinates. -/
theorem ofGroup_injective : Function.Injective (ofGroup (c := c)) := by
  rintro (_ | ⟨x, y, h⟩) (_ | ⟨x', y', h'⟩) heq
  · rfl
  · cases heq
  · cases heq
  · obtain ⟨hx, hy⟩ := Point.affine.inj heq
    have hx' : x = x' := by rw [← residue_ofResidue x, hx, residue_ofResidue]
    have hy' : y = y' := by rw [← residue_ofResidue y, hy, residue_ofResidue]
    subst hx' hy'
    rfl

theorem ofGroup_eq_infinity_iff {P : c.toWeierstrass.toAffine.Point} :
    ofGroup P = .infinity ↔ P = 0 := by
  cases P with
  | zero => exact iff_of_true rfl rfl
  | some x y h => exact iff_of_false nofun (Affine.Point.some_ne_zero h)

variable [Fact p.Prime]

/-- The slope is the one of the group law. -/
theorem residue_slope {x₁ y₁ x₂ y₂ : Fin p}
    (h₁ : c.toWeierstrass.toAffine.Equation (residue x₁) (residue y₁))
    (h₂ : c.toWeierstrass.toAffine.Equation (residue x₂) (residue y₂))
    (hne : ¬ (x₁ = x₂ ∧ y₁ = -y₂)) :
    residue (c.slope x₁ y₁ x₂ y₂)
      = c.toWeierstrass.toAffine.slope (residue x₁) (residue x₂) (residue y₁) (residue y₂) := by
  -- the tangent over one abscissa, and the chord over two.
  unfold slope
  split
  · next hx =>
    subst hx
    have hneg : residue y₁ ≠ c.toWeierstrass.toAffine.negY (residue x₁) (residue y₂) := by
      intro h
      refine hne ⟨rfl, residue_injective ?_⟩
      simpa [Affine.negY, toWeierstrass] using h
    have hy : residue y₁ = residue y₂ := Affine.Y_eq_of_Y_ne h₁ h₂ rfl hneg
    rw [Affine.slope_of_Y_ne rfl hneg]
    simp only [residue_mul, residue_add, residue_inv, hy, Affine.negY, toWeierstrass]
    ring
  · next hx =>
    rw [Affine.slope_of_X_ne (residue_injective.ne hx)]
    simp [div_eq_mul_inv]

/-- The sum of points is that of the group. -/
theorem add_ofGroup (P Q : c.toWeierstrass.toAffine.Point) :
    c.add (ofGroup P) (ofGroup Q) = ofGroup (P + Q) := by
  cases P with
  | zero => exact congrArg (ofGroup (c := c)) (zero_add Q).symm
  | some x₁ y₁ h₁ =>
    cases Q with
    | zero => exact congrArg (ofGroup (c := c)) (add_zero (Affine.Point.some x₁ y₁ h₁)).symm
    | some x₂ y₂ h₂ =>
      -- with residues for coordinates, the condition and the sum agree one entry at a time.
      -- with residues for coordinates, the condition and the sum agree one entry at a time.
      obtain ⟨u₁, rfl⟩ : ∃ u : Fin p, residue u = x₁ := ⟨_, residue_ofResidue x₁⟩
      obtain ⟨v₁, rfl⟩ : ∃ v : Fin p, residue v = y₁ := ⟨_, residue_ofResidue y₁⟩
      obtain ⟨u₂, rfl⟩ : ∃ u : Fin p, residue u = x₂ := ⟨_, residue_ofResidue x₂⟩
      obtain ⟨v₂, rfl⟩ : ∃ v : Fin p, residue v = y₂ := ⟨_, residue_ofResidue y₂⟩
      have hnegY : c.toWeierstrass.toAffine.negY (residue u₂) (residue v₂) = residue (-v₂) := by
        simp [Affine.negY, toWeierstrass]
      simp only [ofGroup, ofResidue_residue, add]
      split
      · next h =>
        rw [Affine.Point.add_of_Y_eq (by rw [h.1]) (by rw [h.2, hnegY])]
      · next h =>
        have hne : ¬ (residue u₁ = residue u₂ ∧
            residue v₁ = c.toWeierstrass.toAffine.negY (residue u₂) (residue v₂)) := by
          rwa [hnegY, residue_inj, residue_inj]
        rw [Affine.Point.add_some hne]
        simp only [← residue_slope h₁.1 h₂.1 h]
        congr 1
        · refine residue_injective ?_
          rw [residue_ofResidue]
          simp [Affine.addX, toWeierstrass, sq]
        · refine residue_injective ?_
          rw [residue_ofResidue]
          simp [Affine.addY, Affine.negAddY, Affine.negY, Affine.addX, toWeierstrass, sq]
          ring

/-- The reflection of a point is its negative in the group. -/
theorem neg_ofGroup (P : c.toWeierstrass.toAffine.Point) : (ofGroup P).neg = ofGroup (-P) := by
  cases P with
  | zero => rfl
  | some x y h =>
    rw [Affine.Point.neg_some, ofGroup, ofGroup, Point.neg]
    congr 1
    refine residue_injective ?_
    simp [Affine.negY, toWeierstrass]

/-- Multiples of a point are those of the group. -/
theorem smul_ofGroup (n : ℕ) (P : c.toWeierstrass.toAffine.Point) :
    c.smul n (ofGroup P) = ofGroup (n • P) :=
  multiple_map (f := fun P : Multiplicative c.toWeierstrass.toAffine.Point => ofGroup P.toAdd)
    (fun P Q => add_ofGroup P.toAdd Q.toAdd) rfl n (Multiplicative.ofAdd P)

/-- Multiples of a point on the curve that is not its own reflection are on the curve. -/
theorem contains_smul {x y : Fin p} (h : c.Contains (.affine x y)) (hy : y ≠ -y) (n : ℕ) :
    c.Contains (c.smul n (.affine x y)) := by
  rw [← ofGroup_some (nonsingular_of_contains h hy), smul_ofGroup]
  exact contains_ofGroup _

/-- Where a multiple by a prime is the point at infinity, that is the least one but zero. -/
theorem smul_ne_infinity {x y : Fin p} (h : c.Contains (.affine x y)) (hy : y ≠ -y) {order : ℕ}
    (horder : order.Prime) (hinfinity : c.smul order (.affine x y) = .infinity) {n : ℕ}
    (hpos : 0 < n) (hlt : n < order) : c.smul n (.affine x y) ≠ .infinity := by
  let P : c.toWeierstrass.toAffine.Point := .some _ _ (nonsingular_of_contains h hy)
  have hP : ofGroup P = .affine x y := ofGroup_some _
  rw [← hP, smul_ofGroup, ofGroup_eq_infinity_iff] at hinfinity
  rw [← hP, smul_ofGroup, ne_eq, ofGroup_eq_infinity_iff]
  have hne : P ≠ 0 := Affine.Point.some_ne_zero _
  -- the order of the point divides a prime and is not one, so it is that prime.
  -- the order of the point divides a prime and is not one, so it is that prime.
  have : Fact order.Prime := ⟨horder⟩
  have haddOrder : addOrderOf P = order := addOrderOf_eq_prime hinfinity hne
  intro hn
  have hdvd : order ∣ n := haddOrder ▸ addOrderOf_dvd_of_nsmul_eq_zero hn
  exact absurd (Nat.le_of_dvd hpos hdvd) (by omega)

end Group

/-! ### Roots of the cubic -/

/-- A remainder by the cubic: the polynomial with these coefficients, the constant one first. -/
structure Remainder (p : ℕ) where
  (c₀ c₁ c₂ : Fin p)
deriving DecidableEq

namespace Remainder

/-- The remainder of a product. Third and fourth powers of the indeterminate are replaced by what
they leave. -/
def mul (c : Curve p) (s t : Remainder p) : Remainder p :=
  let d₀ := s.c₀ * t.c₀
  let d₁ := s.c₀ * t.c₁ + s.c₁ * t.c₀
  let d₂ := s.c₀ * t.c₂ + s.c₁ * t.c₁ + s.c₂ * t.c₀
  let d₃ := s.c₁ * t.c₂ + s.c₂ * t.c₁
  let d₄ := s.c₂ * t.c₂
  let e₃ := d₃ - c.a₂ * d₄
  ⟨d₀ - c.a₆ * e₃, d₁ - c.a₄ * e₃ - c.a₆ * d₄, d₂ - c.a₂ * e₃ - c.a₄ * d₄⟩

/-- The value at a point of the field. -/
def eval (x : ZMod p) (r : Remainder p) : ZMod p :=
  residue r.c₀ + residue r.c₁ * x + residue r.c₂ * x ^ 2

theorem eval_mul {x : ZMod p}
    (hx : x ^ 3 + residue c.a₂ * x ^ 2 + residue c.a₄ * x + residue c.a₆ = 0) (s t : Remainder p) :
    eval x (mul c s t) = eval x s * eval x t := by
  simp only [eval, mul, residue_sub, residue_add, residue_mul]
  linear_combination
    (-(residue s.c₁ * residue t.c₂ + residue s.c₂ * residue t.c₁)
      - residue s.c₂ * residue t.c₂ * (x - residue c.a₂)) * hx

variable [NeZero p]

/-- The indeterminate. -/
def indeterminate : Remainder p := ⟨0, 1, 0⟩

/-- The difference of the `p`-th power of the indeterminate and itself. -/
def frobenius (c : Curve p) : Remainder p :=
  let r := multiple (mul c) ⟨1, 0, 0⟩ p Remainder.indeterminate
  ⟨r.c₀, r.c₁ - 1, r.c₂⟩

end Remainder

/-- The cubic has no root if the difference has an inverse. -/
theorem cubic_ne_zero [Fact p.Prime] {v : Remainder p}
    (h : Remainder.mul c v (Remainder.frobenius c) = ⟨1, 0, 0⟩) (x : Fin p) :
    c.cubic x ≠ 0 := by
  intro hx
  rw [← residue_inj, residue_cubic, residue_zero] at hx
  have hunit : Remainder.eval (residue x) ⟨1, 0, 0⟩ = 1 := by simp [Remainder.eval]
  have hpow := map_multiple (Remainder.eval_mul hx) hunit p Remainder.indeterminate
  have hindeterminate : Remainder.eval (residue x) Remainder.indeterminate = residue x := by
    simp [Remainder.eval, Remainder.indeterminate]
  -- by Fermat the difference vanishes at a root, where a unit cannot.
  -- by Fermat the difference vanishes at a root, where a unit cannot.
  have hroot : Remainder.eval (residue x) (Remainder.frobenius c) = 0 := by
    rw [hindeterminate, ZMod.pow_card] at hpow
    simp only [Remainder.eval, Remainder.frobenius, residue_sub, residue_one] at hpow ⊢
    linear_combination hpow
  have hone := Remainder.eval_mul hx v (Remainder.frobenius c)
  rw [h, hroot, mul_zero] at hone
  simp [Remainder.eval] at hone

/-- Without a root of the cubic no point of the curve is its own reflection. -/
theorem val_ne_zero_of_contains [Fact p.Prime] (h : ∀ x, c.cubic x ≠ 0) {x y : Fin p}
    (hP : c.Contains (.affine x y)) : y.val ≠ 0 := by
  intro hy
  obtain rfl := Fin.val_eq_zero_iff.1 hy
  refine h x (residue_inj.1 ?_)
  rw [← show 0 * 0 = c.cubic x from hP, residue_mul, residue_zero, mul_zero]

end Keyring.Curve
