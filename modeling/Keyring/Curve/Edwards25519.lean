import Keyring.Bytes
import Keyring.Curve.Weierstrass
/-!
# The group of edwards25519

Points are computed with in Montgomery form, `v² = u³ + 486662 u² + u`, and encoded in Edwards form,
`-x² + y² = 1 + d x² y²`. The two forms are one group under a birational map: the Edwards point
`(0, 1)` is the point at infinity, and `(0, -1)` is the point `(0, 0)` of order two.

An encoding is the second Edwards coordinate with the parity of the first one in its highest bit.
-/

namespace Keyring.Edwards25519

open Arith

/-- The order of the field. -/
def p : Nat :=
  0x7fffffffffffffffffffffffffffffffffffffffffffffffffffffffffffffed

/-- The order of the generator. -/
def order : Nat :=
  0x1000000000000000000000000000000014def9dea2f79cd65812631a5cf5d3ed

instance : @NeZero Nat Zero.ofOfNat0 p := ⟨by decide⟩

/-- The number of bytes of an encoding, and of a scalar. -/
def byteLength : Nat := 32

/-- A point of the plane over the field. -/
abbrev Point := Curve.Point p

/-- The curve in Montgomery form. -/
def curve : Curve p where
  a₂ := 486662
  a₄ := 1
  a₆ := 0

/-- The point whose multiples are the keys. -/
def generator : Point :=
  .affine 9 14781619447589544791020593568409986887264606134616475288964881837755586237401

/-- The coefficient of the Edwards form. -/
def d : Fin p :=
  37095705934669439343138083508754565189542113879843219016388785533085940283555

/-- The ratio between the forms: a square root of `-486664`. -/
def ratio : Fin p :=
  51042569399160536130206135233146329284152202253034631822681833788666877215207

/-- A square root of `-1`. -/
def sqrtMinusOne : Fin p :=
  19681161376707505956807079304988542015446066515923890162744021073123829784752

/-- A square root. The order of the field is five modulo eight, so a power of a square is a root of
the square or of its negative. -/
def sqrt? (x : Fin p) : Option (Fin p) :=
  let r := residuePow x ((p + 3) / 8)
  [r, r * sqrtMinusOne].find? fun r => r * r = x

/-- The Edwards coordinates of a point. -/
def toEdwards : Point → Fin p × Fin p
  | .infinity => (0, 1)
  | .affine u v => (ratio * u * residueInv v, (u - 1) * residueInv (u + 1))

/-- The point with the given Edwards coordinates. -/
def ofEdwards (x y : Fin p) : Point :=
  if y = 1 then .infinity
  else
    let u := (1 + y) * residueInv (1 - y)
    .affine u (ratio * u * residueInv x)

/-- The place of the parity in the number that an encoding stands for. -/
def parityPlace : Nat := 1 <<< 255

/-- The encoding of a point. -/
def encode (P : Point) : Bytes :=
  let (x, y) := toEdwards P
  Bytes.ofNatLE byteLength (y.val + x.val % 2 * parityPlace)

/-- The point with the given encoding. The coordinate may be written with the order of the field
added, and the parity of zero may be written as odd. -/
def decode? (b : Bytes) : Option Point := do
  let n := Bytes.toNatLE b
  let y := Fin.ofNat p (n % parityPlace)
  let x ← sqrt? ((y * y - 1) * residueInv (d * y * y + 1))
  let x := if x.val % 2 = n / parityPlace % 2 then x else -x
  if b.length = byteLength then some (ofEdwards x y) else none

end Keyring.Edwards25519
