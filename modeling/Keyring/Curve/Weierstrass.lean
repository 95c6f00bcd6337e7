import Keyring.Arith.Modular
/-!
# Elliptic curves over prime fields

Curves `y² = x³ + a₂ x² + a₄ x + a₆` with the group law by chord and tangent, in affine coordinates.
The form covers short curves (`a₂ = 0`) as well as curves in Montgomery form (`a₆ = 0`), so one
addition serves every curve of the library.
-/

namespace Keyring

open Arith

/-- The coefficients of a curve over the residues modulo `p`. -/
structure Curve (p : Nat) where
  (a₂ a₄ a₆ : Fin p)

namespace Curve

/-- A point with coordinates modulo `p`, or the point at infinity. -/
inductive Point (p : Nat) where
  | infinity
  | affine (x y : Fin p)
deriving DecidableEq, Repr

variable {p : Nat}

/-- The right-hand side of the equation. -/
def cubic (c : Curve p) (x : Fin p) : Fin p :=
  x * x * x + c.a₂ * x * x + c.a₄ * x + c.a₆

/-- A point lies on the curve if it is at infinity or its coordinates satisfy the equation. -/
def Contains (c : Curve p) : Point p → Prop
  | .infinity => True
  | .affine x y => y * y = c.cubic x

instance (c : Curve p) (P : Point p) : Decidable (c.Contains P) :=
  match P with
  | .infinity => inferInstanceAs (Decidable True)
  | .affine x y => inferInstanceAs (Decidable (y * y = c.cubic x))

/-- The reflection in the horizontal axis. -/
def Point.neg : Point p → Point p
  | .infinity => .infinity
  | .affine x y => .affine x (-y)

/-- The slope of the line through two points that are not each other's reflection: a tangent if they
are equal. Its numerator is the difference of the two cubics divided by that of the coordinates. -/
def slope (c : Curve p) (x₁ y₁ x₂ y₂ : Fin p) : Fin p :=
  if x₁ = x₂ then
    (x₁ * x₁ + x₁ * x₂ + x₂ * x₂ + c.a₂ * (x₁ + x₂) + c.a₄) * residueInv (y₁ + y₂)
  else (y₁ - y₂) * residueInv (x₁ - x₂)

/-- The sum of two points: the reflection of the third point on the line through them. -/
def add (c : Curve p) : Point p → Point p → Point p
  | .infinity, Q => Q
  | P, .infinity => P
  | .affine x₁ y₁, .affine x₂ y₂ =>
    if x₁ = x₂ ∧ y₁ = -y₂ then .infinity
    else
      let s := c.slope x₁ y₁ x₂ y₂
      let x := s * s - c.a₂ - x₁ - x₂
      .affine x (-(y₁ + s * (x - x₁)))

/-- The sum of `n` copies of a point. -/
def smul (c : Curve p) (n : Nat) (P : Point p) : Point p :=
  multiple c.add .infinity n P

end Curve

end Keyring
