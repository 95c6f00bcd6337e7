import Keyring.Cipher.Block
/-!
# Counter mode with an authentication tag

Galois/counter mode over any block cipher, with a nonce of twelve bytes and no associated data. The
text is masked with the cipher's values on a counter; the tag is a polynomial in the hash key
`cipher 0`, whose coefficients are the masked blocks and the length, masked in turn.

The mode uses the cipher in one direction only, so the cipher is a parameter and need not be
invertible.
-/

namespace Keyring.Cipher.Gcm

/-! ### The field of `2 ^ 128` elements

The most significant bit of a block is the coefficient of the constant term. -/

/-- Multiplication by the indeterminate, modulo `x ^ 128 + x ^ 7 + x ^ 2 + x + 1`. -/
def shift (v : Block) : Block :=
  if v.getLsbD 0 then (v >>> 1) ^^^ (0xe1#128 <<< 120) else v >>> 1

/-- The sum of the shifts of `v` for which `x` has a coefficient, among the first `n` of them. -/
def sumShifts (x : Block) : Nat → Nat → Block → Block → Block
  | 0, _, _, z => z
  | n + 1, i, v, z => sumShifts x n (i + 1) (shift v) (if x.getMsbD i then z ^^^ v else z)

/-- Multiplication in the field. -/
def fieldMul (x y : Block) : Block :=
  sumShifts x 128 0 y 0

/-- The polynomial with the given coefficients at `h`, by Horner's rule; the last coefficient
belongs to the first power. -/
def hash (h : Block) (blocks : List Block) : Block :=
  blocks.foldl (fun y x => fieldMul (y ^^^ x) h) 0

/-! ### The mode -/

/-- The number of bytes of a nonce. -/
def nonceLength : Nat := 12

/-- The number of bytes of a tag. -/
def tagLength : Nat := 16

/-- The longest text, in bytes. -/
def maxLength : Nat := 1 <<< 36

/-- The counter block of a nonce: its last 32 bits hold the number `n`. -/
def counter (nonce : Bytes) (n : Nat) : Block :=
  Block.ofBytes (nonce ++ Bytes.ofNat 4 n)

/-- The mask for a text of `n` bytes. The counter starts at two, since one masks the tag. -/
def mask (cipher : Block → Block) (nonce : Bytes) (n : Nat) : Bytes :=
  (List.range ((n + 15) / 16)).flatMap fun i => (cipher (counter nonce (i + 2))).toBytes

/-- The text under the mask; the same map takes the mask off. -/
def crypt (cipher : Block → Block) (nonce text : Bytes) : Bytes :=
  Bytes.xor text (mask cipher nonce text.length)

/-- The blocks that the tag depends on: those of the masked text, filled with zeros, and the length
in bits. -/
def coefficients (body : Bytes) : List Block :=
  (chunks 16 body).map Block.ofBytes ++ [BitVec.ofNat 128 (8 * body.length)]

/-- The tag of a masked text. -/
def tag (cipher : Block → Block) (nonce body : Bytes) : Bytes :=
  (hash (cipher 0) (coefficients body) ^^^ cipher (counter nonce 1)).toBytes

/-- The masked text followed by its tag. -/
def encrypt (cipher : Block → Block) (nonce text : Bytes) : Bytes :=
  let body := crypt cipher nonce text
  body ++ tag cipher nonce body

/-- The text of a masked text, if the tag fits. -/
def decrypt? (cipher : Block → Block) (nonce body seen : Bytes) : Option Bytes :=
  if seen = tag cipher nonce body then some (crypt cipher nonce body) else none

end Keyring.Cipher.Gcm
