import Keyring.Arith.Modular
import Keyring.Bytes
/-!
# RSA keys

The keys and their two operations. A key carries what makes it usable: the bounds on the numbers,
and for a private key that its exponents undo each other modulo the predecessor of each factor. That
the factors are prime is not part of it, so the private operation checks its own result.
-/

namespace Keyring.Rsa

open Arith

/-- The greatest public exponent, of 33 bits. -/
def maxExponent : Nat := 0x1ffffffff

/-- A public key. -/
structure PublicKey where
  /-- The modulus. -/
  n : Nat
  /-- The public exponent. -/
  e : Nat
  n_odd : n % 2 = 1
  e_odd : e % 2 = 1
  three_le_e : 3 ≤ e
  e_le : e ≤ maxExponent
  e_lt_n : e < n
deriving DecidableEq, Repr

namespace PublicKey

/-- The public key with the given numbers, if they are in bounds. -/
def ofNumbers? (n e : Nat) : Option PublicKey :=
  if h : n % 2 = 1 ∧ e % 2 = 1 ∧ 3 ≤ e ∧ e ≤ maxExponent ∧ e < n then
    some ⟨n, e, h.1, h.2.1, h.2.2.1, h.2.2.2.1, h.2.2.2.2⟩
  else none

/-- The number of bits of the modulus. -/
def bits (key : PublicKey) : Nat :=
  bitLength key.n

/-- The number of bytes of the modulus, and of a signature. -/
def size (key : PublicKey) : Nat :=
  (key.bits + 7) / 8

/-- The public operation. -/
def apply (key : PublicKey) (x : Nat) : Nat :=
  powMod key.n x key.e

end PublicKey

/-- A private key. -/
structure PrivateKey extends PublicKey where
  /-- The private exponent. -/
  d : Nat
  /-- The first factor of the modulus. -/
  p : Nat
  /-- The second factor of the modulus. -/
  q : Nat
  one_lt_p : 1 < p
  one_lt_q : 1 < q
  p_mul_q : p * q = n
  inverse_p : d * e % (p - 1) = 1
  inverse_q : d * e % (q - 1) = 1
deriving DecidableEq, Repr

namespace PrivateKey

/-- The private key with the given numbers, if they fit together. -/
def ofNumbers? (n e d p q : Nat) : Option PrivateKey := do
  let pub ← PublicKey.ofNumbers? n e
  if h : 1 < p ∧ 1 < q ∧ p * q = pub.n ∧ d * pub.e % (p - 1) = 1 ∧ d * pub.e % (q - 1) = 1 then
    some { pub with
      d, p, q
      one_lt_p := h.1
      one_lt_q := h.2.1
      p_mul_q := h.2.2.1
      inverse_p := h.2.2.2.1
      inverse_q := h.2.2.2.2 }
  else none

/-- The private exponent for the first factor. -/
def dP (key : PrivateKey) : Nat := key.d % (key.p - 1)

/-- The private exponent for the second factor. -/
def dQ (key : PrivateKey) : Nat := key.d % (key.q - 1)

/-- The inverse of the second factor modulo the first, if there is one. -/
def qInv? (key : PrivateKey) : Option Nat := inverse? key.q key.p

/-- The private power of a number: modulo each factor and then put together, if the factors allow
it, else modulo the modulus. -/
def power (key : PrivateKey) (x : Nat) : Nat :=
  match key.qInv? with
  | none => powMod key.n x key.d
  | some qInv =>
    let a := powMod key.p x key.dP
    let b := powMod key.q x key.dQ
    b + qInv * (a + (key.p - b % key.p)) % key.p * key.q

/-- The private operation with the number masked by a factor. A factor that has no inverse is
replaced by one. -/
def powerMasked (key : PrivateKey) (factor x : Nat) : Nat :=
  match inverse? factor key.n with
  | none => key.power x
  | some inverse => key.power (x * key.apply factor % key.n) * inverse % key.n

/-- The result of the private operation, if the public operation undoes it. -/
def checked? (key : PrivateKey) (x y : Nat) : Option Nat :=
  if x < key.n ∧ key.apply y = x then some y else none

end PrivateKey

end Keyring.Rsa
