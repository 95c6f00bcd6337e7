import Keyring.Proofs.Arith.Power
/-!
# Inverses and residues

The Euclidean algorithm finds an inverse exactly when there is one. Residues are the elements of
`ZMod m`: `residue` names the element that a residue stands for, and takes the operations of the
library to those of the ring.
-/

namespace Keyring.Arith

/-! ### The Euclidean algorithm -/

/-- With fuel for the product of the two remainders the algorithm ends with their greatest common
divisor and a factor of it. The product halves in each round, because a remainder is less than half
of the number that is divided. -/
theorem euclid_spec {m : ℕ} (a : ZMod m) (fuel r s : ℕ) (t u : ℤ) (hlt : s < r)
    (hfuel : r * s < 2 ^ fuel) (ht : t * a = r) (hu : u * a = s) :
    (euclid (fuel + 1) r s t u).1 = Nat.gcd r s ∧
      (euclid (fuel + 1) r s t u).2 * a = (euclid (fuel + 1) r s t u).1 := by
  induction fuel generalizing r s t u with
  | zero =>
    have hs : s = 0 := by
      rcases Nat.mul_eq_zero.1 (Nat.lt_one_iff.1 hfuel) with h | h <;> omega
    subst hs
    simpa [euclid] using ht
  | succ fuel ih =>
    rw [euclid]
    split
    · next hs =>
      subst hs
      simpa using ht
    · next hs =>
      have hmod : r % s < s := Nat.mod_lt r (Nat.pos_of_ne_zero hs)
      have hdivmod : s * (r / s) + r % s = r := Nat.div_add_mod r s
      have hquot : 1 ≤ r / s := (Nat.one_le_div_iff (Nat.pos_of_ne_zero hs)).2 hlt.le
      have hle : s ≤ s * (r / s) := Nat.le_mul_of_pos_right s hquot
      -- the quotient is one at least, so twice the remainder fits into `r`.
      -- the quotient is one at least, so twice the remainder fits into `r`.
      have hhalf : 2 * (s * (r % s)) ≤ r * s := by
        calc 2 * (s * (r % s)) = (r % s + r % s) * s := by ring
          _ ≤ r * s := Nat.mul_le_mul_right s (by omega)
      have hcast : (r : ZMod m) = s * (r / s : ℕ) + (r % s : ℕ) := by
        exact_mod_cast congrArg (Nat.cast (R := ZMod m)) hdivmod.symm
      -- the factor of the new remainder, with the quotient taken off like the remainder itself.
      -- the factor of the new remainder, with the quotient taken off like the remainder itself.
      have hstep : ((t - (r / s : ℕ) * u : ℤ) : ZMod m) * a = (r % s : ℕ) := by
        rw [Int.cast_sub, Int.cast_mul, Int.cast_natCast, sub_mul, mul_assoc, ht, hu, hcast]
        ring
      obtain ⟨hgcd, hfactor⟩ := ih s (r % s) u (t - (r / s : ℕ) * u) hmod
        (by rw [pow_succ] at hfuel; omega) hu hstep
      refine ⟨?_, hfactor⟩
      rw [hgcd, Nat.gcd_comm r s, Nat.gcd_rec s r, Nat.gcd_comm]

/-- What is found is an inverse, and one is found if and only if there is one. -/
theorem inverse?_spec {m : ℕ} (hm : 0 < m) (a : ℕ) :
    (∀ b, inverse? a m = some b → b < m ∧ (b : ZMod m) * a = 1) ∧
      (inverse? a m = none ↔ ¬ Nat.Coprime a m) := by
  -- the product of the two remainders at least halves in each step, so this many steps suffice.
  have hfuel : m * (a % m) < 2 ^ (2 * bitLength m) := by
    have hbits := lt_pow_bitLength m
    calc m * (a % m) ≤ m * m := Nat.mul_le_mul_left m (Nat.mod_lt a hm).le
      _ < 2 ^ bitLength m * 2 ^ bitLength m := Nat.mul_self_lt_mul_self hbits
      _ = 2 ^ (2 * bitLength m) := by rw [← pow_add, two_mul]
  obtain ⟨hgcd, hfactor⟩ := euclid_spec (a : ZMod m) (2 * bitLength m) m (a % m) 0 1
    (Nat.mod_lt a hm) hfuel (by simp) (by simp)
  have hcoprime : (euclid (2 * bitLength m + 1) m (a % m) 0 1).1 = 1 ↔ Nat.Coprime a m := by
    rw [hgcd, Nat.gcd_comm, ← Nat.gcd_rec, Nat.gcd_comm]
  unfold inverse?
  generalize euclid (2 * bitLength m + 1) m (a % m) 0 1 = result at hgcd hfactor hcoprime
  obtain ⟨g, t⟩ := result
  dsimp only at hgcd hfactor hcoprime ⊢
  constructor
  · intro b hb
    rw [Option.ite_none_right_eq_some, Option.some.injEq] at hb
    obtain ⟨rfl, rfl⟩ := hb
    have hpos : (0 : ℤ) < m := by exact_mod_cast hm
    have hnonneg : 0 ≤ t % m := Int.emod_nonneg t hpos.ne'
    have hlt : t % m < m := Int.emod_lt_of_pos t hpos
    refine ⟨by omega, ?_⟩
    -- the factor is reduced, and so it is a natural number of the same residue.
    have hcast : (((t % m).toNat : ℕ) : ZMod m) = (t : ZMod m) := by
      rw [← Int.cast_natCast, Int.toNat_of_nonneg hnonneg, ZMod.intCast_mod]
    rw [hcast, hfactor, Nat.cast_one]
  · rw [← hcoprime]
    split <;> simp_all

/-- There is an inverse if and only if the two numbers have no common factor. -/
theorem inverse?_eq_none_iff {a m : ℕ} (hm : 0 < m) : inverse? a m = none ↔ ¬ Nat.Coprime a m :=
  (inverse?_spec hm a).2

/-- What is found is an inverse among the residues. -/
theorem cast_of_inverse? {a m b : ℕ} (hm : 0 < m) (h : inverse? a m = some b) :
    (b : ZMod m) * a = 1 :=
  ((inverse?_spec hm a).1 b h).2

/-! ### Residues -/

/-- The element of the ring that a residue stands for. -/
def residue {m : ℕ} (x : Fin m) : ZMod m := (x.val : ZMod m)

/-- The residue that stands for an element of the ring. -/
def ofResidue {m : ℕ} [NeZero m] (x : ZMod m) : Fin m := ⟨x.val, x.val_lt⟩

variable {m : ℕ}

/-- Numbers below the modulus are told apart by their residues. -/
theorem residue_injective : Function.Injective (residue (m := m)) := by
  intro x y h
  have hval := congrArg ZMod.val h
  rw [residue, residue, ZMod.val_cast_of_lt x.isLt, ZMod.val_cast_of_lt y.isLt] at hval
  exact Fin.ext hval

theorem residue_inj {x y : Fin m} : residue x = residue y ↔ x = y :=
  residue_injective.eq_iff

@[simp] theorem residue_add (x y : Fin m) : residue (x + y) = residue x + residue y := by
  simp [residue, Fin.val_add, ZMod.natCast_mod]

@[simp] theorem residue_mul (x y : Fin m) : residue (x * y) = residue x * residue y := by
  simp [residue, Fin.val_mul, ZMod.natCast_mod]

@[simp] theorem residue_sub (x y : Fin m) : residue (x - y) = residue x - residue y := by
  have hy : y.val ≤ m := y.isLt.le
  simp [residue, Fin.val_sub, ZMod.natCast_mod, Nat.cast_sub hy]
  ring

@[simp] theorem residue_neg (x : Fin m) : residue (-x) = -residue x := by
  have hx : x.val ≤ m := x.isLt.le
  simp [residue, Fin.neg_def, ZMod.natCast_mod, Nat.cast_sub hx]

/-- A number is its own negative if and only if its double vanishes. -/
theorem residue_add_self_eq_zero_iff {x : Fin m} : residue x + residue x = 0 ↔ x = -x := by
  rw [← residue_inj, residue_neg, add_eq_zero_iff_eq_neg]

/-- Powers by squaring are powers. -/
@[simp] theorem residue_pow (x : Fin m) (e : ℕ) : residue (residuePow x e) = residue x ^ e := by
  show ((powMod m x.val e % m : ℕ) : ZMod m) = _
  rw [ZMod.natCast_mod, cast_powMod]
  rfl

/-- Modulo a prime a square has no more than two roots. -/
theorem eq_or_eq_neg_of_mul_self_eq [Fact m.Prime] {x y : Fin m} (h : x * x = y * y) :
    x = y ∨ x = -y := by
  rw [← residue_inj, residue_mul, residue_mul, mul_self_eq_mul_self_iff, ← residue_neg,
    residue_inj, residue_inj] at h
  exact h

/-- Modulo a prime that is three modulo four, a power of a square is a root of it. -/
theorem residuePow_mul_residuePow [Fact m.Prime] (y : Fin m) {e : ℕ}
    (he : e + e + (e + e) = m + 1) :
    residuePow (y * y) e * residuePow (y * y) e = y * y := by
  refine residue_inj.1 ?_
  simp only [residue_mul, residue_pow]
  rw [mul_pow, ← pow_add, ← pow_add, he, pow_succ, ZMod.pow_card]

/-- Modulo a prime that is five modulo eight, a power of a square is a root of it or of its
negative. -/
theorem residuePow_mul_residuePow_or [Fact m.Prime] (y : Fin m) {e : ℕ} (he : 8 * e = m + 3) :
    residuePow (y * y) e * residuePow (y * y) e = y * y ∨
      residuePow (y * y) e * residuePow (y * y) e = -(y * y) := by
  -- the square of the power is `y` squared times the quadratic character of `y`.
  have hsquare : (residue y * residue y) ^ e * (residue y * residue y) ^ e
      = residue y ^ (m / 2) * (residue y * residue y) := by
    rw [mul_pow, ← pow_add, ← pow_add, ← sq, ← pow_add]
    congr 1
    omega
  simp only [← residue_inj, residue_neg, residue_mul, residue_pow, hsquare]
  by_cases hy : residue y = 0
  · left
    rw [hy, mul_zero, mul_zero]
  · rcases ZMod.pow_div_two_eq_neg_one_or_one m hy with h | h
    · left
      rw [h, one_mul]
    · right
      rw [h, neg_one_mul]

/-! ### Parity -/

/-- Modulo an odd number a residue and its negative differ in parity, unless they are zero. -/
theorem eq_of_parity_eq (hm : m % 2 = 1) {x y : Fin m} (h : x = y ∨ x = -y)
    (hparity : x.val % 2 = y.val % 2) : x = y := by
  rcases h with h | rfl
  · exact h
  · have hy : y.val < m := y.isLt
    rw [Fin.neg_def] at hparity ⊢
    refine Fin.ext ?_
    dsimp only at hparity ⊢
    rcases Nat.eq_zero_or_pos y.val with h | h
    · simp [h]
    · rw [Nat.mod_eq_of_lt (by omega : m - y.val < m)] at hparity ⊢
      omega

/-- Modulo an odd number only zero is its own negative. -/
theorem ne_neg_self (hm : m % 2 = 1) {y : Fin m} (hy : y.val ≠ 0) : y ≠ -y := by
  intro h
  have hlt : y.val < m := y.isLt
  have hval := congrArg Fin.val h
  rw [Fin.neg_def] at hval
  dsimp only at hval
  rw [Nat.mod_eq_of_lt (by omega)] at hval
  omega

/-- Of two residues that are each other's negatives, the parity picks the one it belongs to. -/
theorem ite_parity_eq (hm : m % 2 = 1) {x y : Fin m} (h : x = y ∨ x = -y) {b : ℕ}
    (hb : y.val % 2 = b) : (if x.val % 2 = b then x else -x) = y := by
  split
  · next hx => exact eq_of_parity_eq hm h (hx.trans hb.symm)
  · next hx =>
    rcases h with rfl | rfl
    · exact absurd hb hx
    · exact neg_neg y

/-- Of a number and its negative the parity picks one. -/
theorem ite_parity_eq_iff (hm : m % 2 = 1) {x y : Fin m} (hy : y.val ≠ 0) (h : x = y ∨ x = -y)
    {b : ℕ} (hb : b < 2) : (if x.val % 2 = b then x else -x) = y ↔ y.val % 2 = b := by
  refine ⟨fun heq => ?_, ite_parity_eq hm h⟩
  by_contra hyb
  split at heq
  · next hx => exact hyb (heq ▸ hx)
  · next hx =>
    have hxy : x = y := eq_of_parity_eq hm h (by omega)
    exact ne_neg_self hm hy (by rw [← heq, neg_neg, heq, hxy])

/-- Of a number and its negative the order picks one. -/
theorem ite_le_eq_iff {x y : Fin m} (h : x = y ∨ x = -y) :
    (if x ≤ -x then x else -x) = y ↔ y ≤ -y := by
  rcases h with rfl | rfl
  · split
    · next hx => exact iff_of_true rfl hx
    · next hx => exact ⟨fun heq => absurd (le_of_eq heq.symm) hx, fun hle => absurd hle hx⟩
  · rw [neg_neg]
    split
    · next hle =>
      exact ⟨fun heq => le_of_eq heq.symm, fun hle' => le_antisymm hle hle'⟩
    · next hle => exact iff_of_true rfl (le_of_not_ge hle)

variable [NeZero m]

@[simp] theorem residue_ofResidue (x : ZMod m) : residue (ofResidue x) = x :=
  ZMod.natCast_zmod_val x

@[simp] theorem ofResidue_residue (x : Fin m) : ofResidue (residue x) = x :=
  residue_injective (residue_ofResidue _)

@[simp] theorem residue_ofNat (n : ℕ) : residue (Fin.ofNat m n) = n := by
  simp [residue, Fin.ofNat, ZMod.natCast_mod]

@[simp] theorem residue_zero : residue (0 : Fin m) = 0 :=
  (residue_ofNat 0).trans Nat.cast_zero

@[simp] theorem residue_one : residue (1 : Fin m) = 1 :=
  (residue_ofNat 1).trans Nat.cast_one

@[simp] theorem residue_literal (n : ℕ) [n.AtLeastTwo] :
    residue (OfNat.ofNat n : Fin m) = OfNat.ofNat n :=
  residue_ofNat n

/-- Modulo a prime every residue but zero has an inverse, and zero stands in for the inverse of
zero, as in the field. -/
@[simp] theorem residue_inv [Fact m.Prime] (x : Fin m) :
    residue (residueInv x) = (residue x)⁻¹ := by
  have hm : 0 < m := NeZero.pos m
  show (((inverse? x.val m).getD 0 % m : ℕ) : ZMod m) = _
  rw [ZMod.natCast_mod]
  cases h : inverse? x.val m with
  | none =>
    -- a residue without an inverse has a factor in common with the prime, so it is zero.
    -- a residue without an inverse has a factor in common with the prime, so it is zero.
    have hdvd : m ∣ x.val := by
      by_contra hdvd
      exact (inverse?_eq_none_iff hm).1 h
        ((Nat.Prime.coprime_iff_not_dvd Fact.out).2 hdvd).symm
    have hzero : residue x = 0 := (ZMod.natCast_eq_zero_iff _ _).2 hdvd
    rw [hzero, inv_zero, Option.getD_none, Nat.cast_zero]
  | some b =>
    rw [Option.getD_some]
    exact eq_inv_of_mul_eq_one_left (cast_of_inverse? hm h)

end Keyring.Arith
