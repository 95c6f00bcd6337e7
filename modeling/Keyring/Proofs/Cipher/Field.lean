import Keyring.Cipher.Gcm
import Mathlib
/-!
# Blocks as a field

A block is a polynomial of degree below 128 over the field of two elements, and blocks are
multiplied as polynomials modulo `x ^ 128 + x ^ 7 + x ^ 2 + x + 1`. The modulus is irreducible, so a
product with a block that is not zero determines the other factor.

Irreducibility is read off the powers of `x`. Squaring 128 times leads back to `x`, so the degree of
every irreducible factor divides 128; and `x ^ (2 ^ 64) - x` has an inverse, so it divides no
smaller power of two. Both are computed with blocks.
-/

namespace Keyring.Cipher.Gcm

open Polynomial

/-! ### Irreducible polynomials -/

/-- A polynomial whose degree `2 ^ (k + 1)` is a power of two is irreducible if it divides the
polynomial whose roots are the field of that degree, and has no factor in common with the one whose
roots are the field of half the degree. -/
theorem irreducible_of_dvd_sub {f w : (ZMod 2)[X]} {k : ℕ} (hdegree : f.natDegree = 2 ^ (k + 1))
    (hall : f ∣ X ^ 2 ^ 2 ^ (k + 1) - X) (hhalf : f ∣ (X ^ 2 ^ 2 ^ k - X) * w - 1) :
    Irreducible f := by
  have hpos : 0 < f.natDegree := hdegree ▸ Nat.two_pow_pos _
  have hzero : f ≠ 0 := by
    rintro rfl
    exact absurd hpos (by simp)
  have hunit : ¬ IsUnit f := by
    intro h
    exact hpos.ne' (natDegree_eq_zero_of_isUnit h)
  obtain ⟨g, hg, hgf⟩ := WfDvdMonoid.exists_irreducible_factor hunit hzero
  have hcard : Nat.card (ZMod 2) = 2 := Nat.card_zmod 2
  have hdvd : g.natDegree ∣ 2 ^ (k + 1) := by
    refine hg.natDegree_dvd_of_dvd_X_pow_card_pow_sub_X ?_
    rw [hcard]
    exact hgf.trans hall
  have hndvd : ¬ g.natDegree ∣ 2 ^ k := by
    intro h
    rw [hg.natDegree_dvd_iff_dvd_X_pow_card_pow_sub_X, hcard] at h
    -- the factor would divide one.
    have hone : g ∣ 1 := by
      rw [← sub_sub_cancel ((X ^ 2 ^ 2 ^ k - X) * w) 1]
      exact dvd_sub (h.mul_right w) (hgf.trans hhalf)
    exact hg.not_isUnit (isUnit_of_dvd_one hone)
  have hlarge : g.natDegree = f.natDegree := by
    obtain ⟨i, hi, heq⟩ := (Nat.dvd_prime_pow Nat.prime_two).1 hdvd
    rcases hi.lt_or_eq with hlt | rfl
    · exact absurd (heq ▸ pow_dvd_pow 2 (Nat.le_of_lt_succ hlt)) hndvd
    · rw [heq, hdegree]
  exact (associated_of_dvd_of_natDegree_le hgf hzero hlarge.ge).irreducible hg

/-! ### Blocks as polynomials -/

/-- The modulus of the multiplication of blocks. -/
noncomputable def modulus : (ZMod 2)[X] := X ^ 128 + (X ^ 7 + X ^ 2 + X + 1)

theorem monic_modulus : modulus.Monic := by
  unfold modulus
  apply monic_X_pow_add
  compute_degree!

theorem natDegree_modulus : modulus.natDegree = 128 := by
  unfold modulus
  compute_degree!

/-- The polynomial of a block, whose constant coefficient is the most significant bit. -/
noncomputable def polynomial (v : Block) : (ZMod 2)[X] :=
  ∑ i ∈ Finset.range 128, if v.getMsbD i then X ^ i else 0

theorem coeff_ite_X_pow (b : Bool) (m n : ℕ) :
    (if b then X ^ m else 0 : (ZMod 2)[X]).coeff n = if n = m then (if b then 1 else 0) else 0 := by
  cases b <;> simp [coeff_X_pow]

/-- The first bit of a block is the coefficient of lowest degree. -/
theorem coeff_polynomial (v : Block) (n : ℕ) :
    (polynomial v).coeff n = if v.getMsbD n then 1 else 0 := by
  simp only [polynomial, finsetSum_coeff, coeff_ite_X_pow, Finset.sum_ite_eq, Finset.mem_range]
  by_cases hn : n < 128
  · rw [if_pos hn]
  · rw [if_neg hn, BitVec.getMsbD_of_ge _ _ (Nat.le_of_not_lt hn)]
    rfl

/-- Exclusive or is addition of polynomials. -/
theorem polynomial_xor (v w : Block) : polynomial (v ^^^ w) = polynomial v + polynomial w := by
  ext n
  simp only [coeff_add, coeff_polynomial, BitVec.getMsbD_xor]
  cases v.getMsbD n <;> cases w.getMsbD n <;> decide

theorem polynomial_zero : polynomial 0 = 0 := by
  ext n
  simp [coeff_polynomial]

/-- A block is determined by its polynomial. -/
theorem polynomial_injective : Function.Injective polynomial := by
  intro v w h
  refine BitVec.eq_of_getMsbD_eq fun i _ => ?_
  have hcoeff := congrArg (coeff · i) h
  simp only [coeff_polynomial] at hcoeff
  cases hv : v.getMsbD i <;> cases hw : w.getMsbD i <;> simp_all

/-- A block stands for a remainder modulo the polynomial of the field. -/
theorem degree_polynomial_lt (v : Block) : (polynomial v).degree < modulus.degree := by
  rw [degree_eq_natDegree monic_modulus.ne_zero, natDegree_modulus, degree_lt_iff_coeff_zero]
  intro n hn
  rw [coeff_polynomial, BitVec.getMsbD_of_ge _ _ hn]
  rfl

/-- A shift to the right multiplies by `x`, but for the last coefficient, which it loses. -/
theorem X_mul_polynomial (v : Block) :
    X * polynomial v = polynomial (v >>> 1) + if v.getLsbD 0 then X ^ 128 else 0 := by
  have hlast : v.getLsbD 0 = v.getMsbD 127 := BitVec.getLsbD_eq_getMsbD v 0
  ext n
  rw [coeff_add, coeff_polynomial, coeff_ite_X_pow, hlast, BitVec.getMsbD_ushiftRight]
  -- the last coefficient is the one that the shift drops.
  cases n with
  | zero => simp
  | succ n =>
    rw [coeff_X_mul, coeff_polynomial]
    rcases lt_trichotomy n 127 with hn | rfl | hn
    · have hlt : n + 1 < 128 := by omega
      have hne : n + 1 ≠ 128 := by omega
      simp [hlt, hne]
    · simp
    · have hover : v.getMsbD n = false := BitVec.getMsbD_of_ge _ _ hn
      have hne : n ≠ 127 := by omega
      simp [hover, hne]

/-- The block that a shift adds is the remainder of `x ^ 128`. -/
theorem polynomial_remainder :
    polynomial (0xe1#128 <<< 120) = X ^ 7 + X ^ 2 + X + 1 := by
  ext n
  simp only [coeff_polynomial, coeff_add, coeff_X_pow, coeff_X, coeff_one]
  -- the constant has no coefficient from the eighth on.
  by_cases hn : n < 8
  · interval_cases n <;> decide
  · have hover : (0xe1#128 <<< 120).getMsbD n = false := by
      rw [BitVec.getMsbD_shiftLeft, BitVec.getMsbD_of_ge _ _ (by omega)]
    have h₀ : n ≠ 0 := by omega
    have h₁ : 1 ≠ n := by omega
    have h₂ : n ≠ 2 := by omega
    have h₇ : n ≠ 7 := by omega
    rw [hover]
    simp [h₀, h₁, h₂, h₇]

/-- The constant of the shift is the modulus without its leading term. -/
theorem modulus_eq : modulus = X ^ 128 + polynomial (0xe1#128 <<< 120) := by
  unfold modulus
  rw [polynomial_remainder]

/-- A shift multiplies by the variable and takes off the modulus if a bit falls out. -/
theorem X_mul_polynomial_eq_shift (v : Block) :
    X * polynomial v = polynomial (shift v) + if v.getLsbD 0 then modulus else 0 := by
  rw [X_mul_polynomial, shift]
  by_cases h : v.getLsbD 0
  · have htwice := CharTwo.add_self_eq_zero (polynomial (0xe1#128 <<< 120))
    simp only [h, if_true, polynomial_xor, modulus_eq]
    linear_combination -htwice
  · rw [if_neg h, if_neg h, if_neg h]

/-! ### Blocks as elements of the field -/

/-- The residue of the polynomial of a block. -/
noncomputable def element (v : Block) : AdjoinRoot modulus :=
  AdjoinRoot.mk modulus (polynomial v)

/-- A block is determined by its element of the field. -/
theorem element_injective : Function.Injective element := by
  intro v w h
  have hmod := congrArg (AdjoinRoot.modByMonicHom monic_modulus) h
  simp only [element, AdjoinRoot.modByMonicHom_mk] at hmod
  rw [(modByMonic_eq_self_iff monic_modulus).2 (degree_polynomial_lt v),
    (modByMonic_eq_self_iff monic_modulus).2 (degree_polynomial_lt w)] at hmod
  exact polynomial_injective hmod

/-- Exclusive or is addition in the field. -/
theorem element_xor (v w : Block) : element (v ^^^ w) = element v + element w := by
  rw [element, polynomial_xor, map_add]
  rfl

/-- A sum of two blocks is also their difference. -/
theorem element_sub (v w : Block) : element v - element w = element (v ^^^ w) := by
  rw [sub_eq_iff_eq_add, ← element_xor, BitVec.xor_assoc, BitVec.xor_self, BitVec.xor_zero]

theorem element_zero : element 0 = 0 := by
  rw [element, polynomial_zero, map_zero]

/-- A shift multiplies by the root of the modulus. -/
theorem element_shift (v : Block) : element (shift v) = AdjoinRoot.root modulus * element v := by
  have h := congrArg (AdjoinRoot.mk modulus) (X_mul_polynomial_eq_shift v)
  rw [map_mul, map_add, AdjoinRoot.mk_X] at h
  have hmodulus : AdjoinRoot.mk modulus (if v.getLsbD 0 then modulus else 0) = 0 := by
    split
    · exact AdjoinRoot.mk_self
    · exact map_zero _
  rw [hmodulus, add_zero] at h
  exact h.symm

/-- The sum of the shifts is the product with the part of `x` that is looked at. -/
theorem element_sumShifts (x : Block) (n i : ℕ) (v z : Block) :
    element (sumShifts x n i v z) = element z
      + (∑ j ∈ Finset.range n, if x.getMsbD (i + j) then AdjoinRoot.root modulus ^ j else 0)
        * element v := by
  -- induction on the number of the coefficients that are left, each of which shifts `v` once.
  induction n generalizing i v z with
  | zero => simp [sumShifts]
  | succ n ih =>
    have hz : element (if x.getMsbD i then z ^^^ v else z)
        = element z + (if x.getMsbD i then 1 else 0) * element v := by
      split
      · rw [element_xor, one_mul]
      · rw [zero_mul, add_zero]
    have hsum : ∑ j ∈ Finset.range n,
          (if x.getMsbD (i + (j + 1)) then AdjoinRoot.root modulus ^ (j + 1) else 0)
        = AdjoinRoot.root modulus * ∑ j ∈ Finset.range n,
          if x.getMsbD (i + 1 + j) then AdjoinRoot.root modulus ^ j else 0 := by
      rw [Finset.mul_sum]
      refine Finset.sum_congr rfl fun j _ => ?_
      rw [mul_ite, mul_zero, ← pow_succ', Nat.add_assoc, Nat.add_comm 1 j]
    rw [sumShifts, ih, hz, element_shift, Finset.sum_range_succ', hsum, Nat.add_zero i, pow_zero]
    ring

/-- Multiplication of blocks is multiplication of polynomials modulo the modulus. -/
theorem element_fieldMul (x y : Block) : element (fieldMul x y) = element x * element y := by
  have hx : element x
      = ∑ j ∈ Finset.range 128, if x.getMsbD (0 + j) then AdjoinRoot.root modulus ^ j else 0 := by
    simp only [element, polynomial, map_sum, apply_ite (AdjoinRoot.mk modulus), map_pow, map_zero,
      AdjoinRoot.mk_X, Nat.zero_add]
  rw [fieldMul, element_sumShifts, element_zero, zero_add, hx]

/-! ### The modulus is irreducible -/

/-- A block with one bit is a power of `x`. -/
theorem polynomial_one_shiftLeft {k : ℕ} (hk : k < 128) :
    polynomial (1#128 <<< (127 - k)) = X ^ k := by
  ext n
  rw [coeff_polynomial, coeff_X_pow, BitVec.getMsbD_shiftLeft, BitVec.getMsbD_one]
  by_cases h : n = k
  · obtain rfl := h
    have hlast : n + (127 - n) = 127 := by omega
    simp [hlast]
  · have hlast : n + (127 - k) ≠ 127 := by omega
    simp [h, hlast]

/-- A block of one bit is a power of the root. -/
theorem element_one_shiftLeft {k : ℕ} (hk : k < 128) :
    element (1#128 <<< (127 - k)) = AdjoinRoot.root modulus ^ k := by
  rw [element, polynomial_one_shiftLeft hk, map_pow, AdjoinRoot.mk_X]

/-- The square of a block, taken `n` times. -/
def squares (n : ℕ) (v : Block) : Block :=
  Nat.repeat (fun a => fieldMul a a) n v

/-- Squaring blocks is squaring elements. -/
theorem element_squares (n : ℕ) (v : Block) : element (squares n v) = element v ^ 2 ^ n := by
  induction n with
  | zero => rw [squares, Nat.repeat, pow_zero, pow_one]
  | succ n ih =>
    rw [squares, Nat.repeat, element_fieldMul, ← squares, ih, ← pow_two, ← pow_mul, ← pow_succ]

/-- The polynomial `x`, squared 64 times. -/
def halfway : Block := 0x6f9945a9e519a7229d4c1ad657f8a686#128

/-- The inverse of the difference between `halfway` and `x`. -/
def halfwayInverse : Block := 0x180da934bf53158251c13dbb149f5279#128

/-- The block computed in advance is the root squared 64 times. -/
theorem element_halfway : element halfway = AdjoinRoot.root modulus ^ 2 ^ 2 ^ 6 := by
  have hsquares : squares (2 ^ 6) (1#128 <<< (127 - 1)) = halfway := by decide +kernel
  rw [← hsquares, element_squares, element_one_shiftLeft (by decide), pow_one]

/-- After 64 more squarings the root comes back, so it is a root of the polynomial that all elements
of the field satisfy. -/
theorem element_halfway_pow : element halfway ^ 2 ^ 2 ^ 6 = AdjoinRoot.root modulus := by
  have hsquares : squares (2 ^ 6) halfway = 1#128 <<< (127 - 1) := by decide +kernel
  rw [← element_squares, hsquares, element_one_shiftLeft (by decide), pow_one]

/-- The root squared 64 times differs from the root by something invertible, so the field has no
smaller one with the root in it. -/
theorem element_halfway_sub_mul :
    (element halfway - AdjoinRoot.root modulus) * element halfwayInverse = 1 := by
  have hinverse : fieldMul (halfway ^^^ 1#128 <<< (127 - 1)) halfwayInverse
      = 1#128 <<< (127 - 0) := by decide +kernel
  have hx := element_one_shiftLeft (k := 1) (by decide)
  have hunit := element_one_shiftLeft (k := 0) (by decide)
  rw [pow_one] at hx
  rw [pow_zero] at hunit
  rw [← hx, element_sub, ← element_fieldMul, hinverse, hunit]

/-- Squaring twice as often is squaring the result of half of it. -/
theorem pow_two_pow_two_pow_succ {M : Type} [Monoid M] (x : M) (k : ℕ) :
    x ^ 2 ^ 2 ^ (k + 1) = (x ^ 2 ^ 2 ^ k) ^ 2 ^ 2 ^ k := by
  rw [pow_succ 2 k, Nat.mul_two, pow_add, pow_mul]

/-- The modulus of the field is irreducible. -/
theorem irreducible_modulus : Irreducible modulus := by
  refine irreducible_of_dvd_sub (k := 6) (w := polynomial halfwayInverse) natDegree_modulus ?_ ?_
  · rw [← AdjoinRoot.mk_eq_zero, map_sub, map_pow, AdjoinRoot.mk_X, sub_eq_zero,
      pow_two_pow_two_pow_succ, ← element_halfway, element_halfway_pow]
  · rw [← AdjoinRoot.mk_eq_zero, map_sub, map_mul, map_sub, map_pow, AdjoinRoot.mk_X, map_one,
      sub_eq_zero, ← element_halfway]
    exact element_halfway_sub_mul

instance : Fact (Irreducible modulus) := ⟨irreducible_modulus⟩

/-- A product with a block that is not zero determines the other factor. -/
theorem fieldMul_left_injective {h : Block} (hh : h ≠ 0) :
    Function.Injective fun y => fieldMul y h := by
  intro x y hxy
  have hmul := congrArg element hxy
  rw [element_fieldMul, element_fieldMul] at hmul
  have hne : element h ≠ 0 := by
    rw [← element_zero]
    exact element_injective.ne hh
  exact element_injective (mul_right_cancel₀ hne hmul)

end Keyring.Cipher.Gcm
