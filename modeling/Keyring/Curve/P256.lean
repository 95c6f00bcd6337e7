import Keyring.Bytes
import Keyring.Curve.Weierstrass
/-!
# The curve P-256

The curve, its group, and the encodings of points: uncompressed, compressed with the parity of the
second coordinate, and compact with neither, which stands for the smaller of the two.
-/

namespace Keyring.P256

open Arith

/-- The order of the field. -/
def p : Nat :=
  0xffffffff00000001000000000000000000000000ffffffffffffffffffffffff

/-- The order of the group. -/
def order : Nat :=
  0xffffffff00000000ffffffffffffffffbce6faada7179e84f3b9cac2fc632551

instance : @NeZero Nat Zero.ofOfNat0 p := ⟨by decide⟩

/-- The number of bytes of a coordinate, and of a scalar. -/
def byteLength : Nat := 32

/-- A point of the plane over the field. -/
abbrev Point := Curve.Point p

/-- The curve `y² = x³ - 3 x + b`. -/
def curve : Curve p where
  a₂ := 0
  a₄ := -3
  a₆ := 0x5ac635d8aa3a93e7b3ebbd55769886bc651d06b0cc53b0f63bce3c3e27d2604b

/-- The point that generates the group. -/
def generator : Point :=
  .affine 0x6b17d1f2e12c4247f8bce6e563a440f277037d812deb33a0f4a13945d898c296
    0x4fe342e2fe1a7f9b8ee7eb4a7c0f9e162bce33576b315ececbb6406837bf51f5

/-- A square root. The order of the field is three modulo four, so a power of a square is one. -/
def sqrt? (x : Fin p) : Option (Fin p) :=
  let r := residuePow x ((p + 1) / 4)
  if r * r = x then some r else none

/-! ### Encodings -/

/-- A coordinate as bytes. -/
def coordinate (x : Fin p) : Bytes :=
  Bytes.ofNat byteLength x.val

/-- The coordinate that the bytes stand for, if it is below the order of the field. -/
def coordinate? (b : Bytes) : Option (Fin p) :=
  if h : b.length = byteLength ∧ Bytes.toNat b < p then some ⟨Bytes.toNat b, h.2⟩ else none

/-- The encoding with both coordinates; the point at infinity is a single zero. -/
def uncompressed : Point → Bytes
  | .infinity => [0]
  | .affine x y => 0x04 :: coordinate x ++ coordinate y

/-- The encoding with the first coordinate and the parity of the second. -/
def compressed : Point → Bytes
  | .infinity => [0]
  | .affine x y => (if y.val % 2 = 0 then 0x02 else 0x03) :: coordinate x

/-- The finite point with the given encoding, in any of the three forms. -/
def point? : Bytes → Option Point
  | [] => none
  | tag :: b =>
    if tag = 0x04 then do
      let x ← coordinate? (b.take byteLength)
      let y ← coordinate? (b.drop byteLength)
      if curve.Contains (.affine x y) then some (.affine x y) else none
    else do
      let x ← coordinate? b
      let y ← sqrt? (curve.cubic x)
      if tag = 0x02 then some (.affine x (if y.val % 2 = 0 then y else -y))
      else if tag = 0x03 then some (.affine x (if y.val % 2 = 1 then y else -y))
      else if tag = 0x05 then some (.affine x (if y ≤ -y then y else -y))
      else none

end Keyring.P256
