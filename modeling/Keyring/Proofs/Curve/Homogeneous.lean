import Keyring.Proofs.Curve.Group
/-!
# Multiples without division

In affine coordinates every step of a multiple divides, and the Euclidean algorithm behind a
division is most of its work. With a common denominator for both coordinates nothing is divided
before the end. The multiples are the same, so the large multiples that some facts about a curve
rest on are computed in this way.
-/

namespace Keyring.Curve

open Arith WeierstrassCurve

variable {p : ℕ}

/-- The coordinates of a point with a common denominator, which is zero at infinity. -/
structure Homogeneous (p : ℕ) where
  (x y z : Fin p)

namespace Homogeneous

/-! ### Computing -/

/-- The point with the given coordinates. -/
def toPoint (t : Homogeneous p) : Point p :=
  if t.z.val = 0 then .infinity else .affine (t.x * residueInv t.z) (t.y * residueInv t.z)

/-- The sum of a point with itself. The slope of the tangent is `w / s`. -/
def double (c : Curve p) (t : Homogeneous p) : Homogeneous p :=
  let w := t.x * t.x + t.x * t.x + t.x * t.x + c.a₂ * (t.x + t.x) * t.z + c.a₄ * (t.z * t.z)
  let s := (t.y + t.y) * t.z
  let r := t.y * s
  let b := t.x * r + t.x * r
  let h := w * w - c.a₂ * (s * s) - (b + b)
  ⟨h * s, w * (b - h) - (r * r + r * r), s * (s * s)⟩

/-- The sum of a point and a different one in affine coordinates. The slope of the chord is
`u / v`. -/
def addChord (c : Curve p) (t : Homogeneous p) (x y : Fin p) : Homogeneous p :=
  let u := y * t.z - t.y
  let v := x * t.z - t.x
  let a := u * u * t.z - v * v * (c.a₂ * t.z + t.x + x * t.z)
  ⟨v * a, u * (t.x * (v * v) - a) - v * v * v * t.y, v * v * v * t.z⟩

variable [NeZero p]

/-- The sum of a point and one in affine coordinates. -/
def addAffine (c : Curve p) (t : Homogeneous p) (x y : Fin p) : Homogeneous p :=
  if t.z = 0 then ⟨x, y, 1⟩
  else if t.x = x * t.z ∧ t.y = y * t.z then t.double c
  else t.addChord c x y

/-- One digit of a factor. -/
def step (c : Curve p) (x y : Fin p) (t : Homogeneous p) (digit : Bool) : Homogeneous p :=
  if digit then (t.double c).addAffine c x y else t.double c

/-- The sum of `n` copies of a point in affine coordinates. -/
def smul (c : Curve p) (n : ℕ) (x y : Fin p) : Homogeneous p :=
  (binary n).foldl (step c x y) ⟨0, 1, 0⟩

/-! ### What is computed -/

variable {c : Curve p} {t : Homogeneous p} {x y x₁ y₁ : Fin p}

/-- The coordinates are those of a point, in the field. -/
def Represents (t : Homogeneous p) : Point p → Prop
  | .infinity => residue t.z = 0
  | .affine x y => residue t.z ≠ 0 ∧ residue t.x = residue x * residue t.z ∧
      residue t.y = residue y * residue t.z

variable [Fact p.Prime]

theorem Represents.toPoint_eq {P : Point p} (h : t.Represents P) : t.toPoint = P := by
  have hzero : residue t.z = 0 ↔ t.z.val = 0 := by
    rw [← residue_zero, residue_inj, Fin.ext_iff, Fin.val_zero]
  cases P with
  | infinity => rw [toPoint, if_pos (hzero.1 h)]
  | affine x y =>
    obtain ⟨hz, hx, hy⟩ := h
    rw [toPoint, if_neg (mt hzero.2 hz)]
    congr 1
    · rw [← residue_inj, residue_mul, residue_inv, hx, mul_inv_cancel_right₀ hz]
    · rw [← residue_inj, residue_mul, residue_inv, hy, mul_inv_cancel_right₀ hz]

/-- The slope of the tangent, with its denominator multiplied out. -/
theorem slope_mul_of_eq (hy : y ≠ -y) :
    residue (c.slope x y x y) * (residue y + residue y)
      = residue x * residue x + residue x * residue x + residue x * residue x
        + residue c.a₂ * (residue x + residue x) + residue c.a₄ := by
  have hne : residue y + residue y ≠ 0 := mt residue_add_self_eq_zero_iff.1 hy
  simp only [slope, if_pos, residue_mul, residue_inv, residue_add]
  exact inv_mul_cancel_right₀ hne _

/-- The slope of the chord, with its denominator multiplied out. -/
theorem slope_mul_of_ne (hx : x₁ ≠ x) :
    residue (c.slope x₁ y₁ x y) * (residue x₁ - residue x) = residue y₁ - residue y := by
  rw [slope, if_neg hx, residue_mul, residue_inv, residue_sub, residue_sub,
    inv_mul_cancel_right₀ (sub_ne_zero.2 (residue_injective.ne hx))]

/-- Doubling without division. -/
theorem represents_double {P : Point p} (h : t.Represents P) :
    (t.double c).Represents (c.add P P) := by
  cases P with
  | infinity =>
    have hz : residue t.z = 0 := h
    simp [add, Represents, double, hz]
  | affine x y =>
    obtain ⟨hz, hx, hy⟩ := h
    have hs : residue (t.double c).z
        = ((residue y + residue y) * (residue t.z * residue t.z)) ^ 3 := by
      simp only [double, residue_mul, residue_add, hy]
      ring
    by_cases hneg : y = -y
    · rw [add, if_pos ⟨rfl, hneg⟩, Represents, hs, residue_add_self_eq_zero_iff.2 hneg, zero_mul,
        zero_pow three_ne_zero]
    · -- with the coefficient expressed by the slope, what is left are identities of polynomials.
      have hslope := slope_mul_of_eq (c := c) (x := x) hneg
      have ha₄ : residue c.a₄ = residue (c.slope x y x y) * (residue y + residue y)
          - (residue x * residue x + residue x * residue x + residue x * residue x
            + residue c.a₂ * (residue x + residue x)) := by
        linear_combination -hslope
      rw [add, if_neg fun h => hneg h.2]
      refine ⟨?_, ?_, ?_⟩
      · rw [hs]
        exact pow_ne_zero 3 (mul_ne_zero (mt residue_add_self_eq_zero_iff.1 hneg)
          (mul_ne_zero hz hz))
      · rw [hs]
        simp only [double, residue_mul, residue_add, residue_sub, hx, hy, ha₄]
        ring
      · rw [hs]
        simp only [double, residue_mul, residue_add, residue_sub, residue_neg, hx, hy, ha₄]
        ring

/-- Adding another point without division. -/
theorem represents_addChord (h₁ : c.Contains (.affine x₁ y₁)) (h : c.Contains (.affine x y))
    (ht : t.Represents (.affine x₁ y₁)) (hne : ¬ (x₁ = x ∧ y₁ = y)) :
    (t.addChord c x y).Represents (c.add (.affine x₁ y₁) (.affine x y)) := by
  obtain ⟨hz, hx, hy⟩ := ht
  have hv : residue (t.addChord c x y).z = (residue x - residue x₁) ^ 3 * residue t.z ^ 4 := by
    simp only [addChord, residue_mul, residue_sub, hx]
    ring
  by_cases heq : x₁ = x
  · subst heq
    -- points over one abscissa that differ are opposite, and their sum is at infinity.
    have hneg : y₁ = -y := eq_neg_of_contains h₁ h fun hy => hne ⟨rfl, hy⟩
    rw [add, if_pos ⟨rfl, hneg⟩, Represents, hv, sub_self, zero_pow three_ne_zero, zero_mul]
  -- the formulas multiply out the denominator of the slope.
  · have hslope : residue (c.slope x₁ y₁ x y) * (residue x₁ - residue x)
        = residue y₁ - residue y := slope_mul_of_ne heq
    have hy₁ : residue y₁
        = residue y + residue (c.slope x₁ y₁ x y) * (residue x₁ - residue x) := by
      rw [hslope, add_sub_cancel]
    rw [add, if_neg fun h => heq h.1]
    refine ⟨?_, ?_, ?_⟩
    · rw [hv]
      have hsub : residue x - residue x₁ ≠ 0 := sub_ne_zero.2 (residue_injective.ne (Ne.symm heq))
      exact mul_ne_zero (pow_ne_zero 3 hsub) (pow_ne_zero 4 hz)
    · rw [hv]
      simp only [addChord, residue_mul, residue_sub, residue_add, hx, hy, hy₁]
      ring
    · rw [hv]
      simp only [addChord, residue_mul, residue_sub, residue_add, residue_neg, hx, hy, hy₁]
      ring

/-- Adding any point without division. -/
theorem represents_addAffine {P : Point p} (hP : c.Contains P) (h : c.Contains (.affine x y))
    (ht : t.Represents P) : (t.addAffine c x y).Represents (c.add P (.affine x y)) := by
  cases P with
  | infinity =>
    have hz : t.z = 0 := residue_inj.1 (ht.trans residue_zero.symm)
    simp [add, Represents, addAffine, hz]
  | affine x₁ y₁ =>
    obtain ⟨hz, hx, hy⟩ := id ht
    have hz' : t.z ≠ 0 := by
      intro heq
      exact hz (by rw [heq, residue_zero])
    -- equality is tested without division, by multiplying with the third coordinate.
    have hsame : t.x = x * t.z ∧ t.y = y * t.z ↔ x₁ = x ∧ y₁ = y := by
      rw [← residue_inj, ← residue_inj, residue_mul, residue_mul, hx, hy, mul_left_inj' hz,
        mul_left_inj' hz, residue_inj, residue_inj]
    rw [addAffine, if_neg hz']
    by_cases heq : x₁ = x ∧ y₁ = y
    · rw [if_pos (hsame.2 heq), ← heq.1, ← heq.2]
      exact represents_double ht
    · rw [if_neg (mt hsame.1 heq)]
      exact represents_addChord hP h ht heq

/-- A multiple is computed one digit of the factor at a time, and all that is passed on the way are
points of the group. -/
theorem represents_foldl {Q : c.toWeierstrass.toAffine.Point} (hQ : ofGroup Q = .affine x y)
    (digits : List Bool) (R : c.toWeierstrass.toAffine.Point) (h : t.Represents (ofGroup R)) :
    (digits.foldl (step c x y) t).Represents
      (digits.foldl (fun acc digit =>
        if digit then c.add (c.add acc acc) (.affine x y) else c.add acc acc) (ofGroup R)) := by
  -- the invariant of the run over the digits: the triple represents the point so far.
  induction digits generalizing t R with
  | nil => exact h
  | cons digit digits ih =>
    have hdouble : (t.double c).Represents (ofGroup (R + R)) := by
      rw [← add_ofGroup]
      exact represents_double h
    rw [List.foldl_cons, List.foldl_cons, add_ofGroup]
    cases digit with
    | false => exact ih (R + R) hdouble
    | true =>
      have hsum : ((t.double c).addAffine c x y).Represents (ofGroup (R + R + Q)) := by
        rw [← add_ofGroup, hQ]
        exact represents_addAffine (contains_ofGroup _) (hQ ▸ contains_ofGroup Q) hdouble
      rw [if_pos rfl, ← hQ, add_ofGroup, hQ]
      exact ih (R + R + Q) hsum

end Homogeneous

/-- Multiples of a point on the curve that is not its own reflection are computed with a common
denominator. -/
theorem smul_eq_toPoint [NeZero p] [Fact p.Prime] {c : Curve p} {x y : Fin p}
    (h : c.Contains (.affine x y)) (hy : y ≠ -y) (n : ℕ) :
    c.smul n (.affine x y) = (Homogeneous.smul c n x y).toPoint := by
  have hstart : (⟨0, 1, 0⟩ : Homogeneous p).Represents
      (ofGroup (0 : c.toWeierstrass.toAffine.Point)) := residue_zero
  exact (Homogeneous.represents_foldl (ofGroup_some (nonsingular_of_contains h hy)) (binary n) 0
    hstart).toPoint_eq.symm

end Keyring.Curve
