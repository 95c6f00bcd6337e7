import Keyring.Arith.Multiple
/-!
# Modular arithmetic

Powers and inverses modulo a number. Residues are `Fin m`; sums, differences and products are those
of `Fin`, and inverses come from the extended Euclidean algorithm, which needs no prime modulus and
fails exactly when there is no inverse.
-/

namespace Keyring.Arith

/-- The remainder of `a ^ e` by `m`. -/
def powMod (m a e : Nat) : Nat :=
  multiple (fun x y => x * y % m) (1 % m) e (a % m)

/-- One run of the Euclidean algorithm on the remainders `r > s`, where `t` and `u` are the factors
that some fixed number has in `r` and in `s`. The result is the last nonzero remainder with its
factor. The product of the two remainders halves in each round, so its length bounds the rounds. -/
def euclid : Nat → Nat → Nat → Int → Int → Nat × Int
  | 0, r, _, t, _ => (r, t)
  | fuel + 1, r, s, t, u =>
    if s = 0 then (r, t) else euclid fuel s (r % s) u (t - (r / s : Nat) * u)

/-- The inverse of `a` modulo `m`, if they have no common factor. -/
def inverse? (a m : Nat) : Option Nat :=
  let (g, t) := euclid (2 * bitLength m + 1) m (a % m) 0 1
  if g = 1 then some (t % m).toNat else none

variable {m : Nat}

/-- The power `x ^ e` of a residue. -/
def residuePow (x : Fin m) (e : Nat) : Fin m :=
  ⟨powMod m x.val e % m, Nat.mod_lt _ x.pos⟩

/-- The inverse of a residue, and zero for a residue that has none. -/
def residueInv (x : Fin m) : Fin m :=
  ⟨(inverse? x.val m).getD 0 % m, Nat.mod_lt _ x.pos⟩

end Keyring.Arith
