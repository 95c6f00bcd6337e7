import Keyring.Curve.Edwards25519
import Keyring.Proofs.Arith.Prime
import Keyring.Proofs.Bytes
import Keyring.Proofs.Curve.Homogeneous
/-!
# Points of edwards25519 and their encodings

The coefficient of the Edwards form is no square, so neither map between the two forms meets a zero
denominator on the curve but at the point of order two, and every point of the curve is read from
its encoding.
-/

namespace Keyring.Edwards25519

open Arith Bytes Curve

/-! ### The field -/

/-- The steps that certify the order of the field. -/
def fieldCertificate : Certificate p where
  steps :=
    [⟨1923133, 2, [2, 2, 3, 43, 3727]⟩,
      ⟨31757755568855353, 10, [2, 2, 2, 3, 31, 107, 223, 4153, 430751]⟩,
      ⟨2773320623, 5, [2, 2437, 569003]⟩,
      ⟨72106336199, 7, [2, 13, 2773320623]⟩,
      ⟨8574133, 2, [2, 2, 3, 7, 103, 991]⟩,
      ⟨1919519569386763, 2, [2, 3, 7, 19, 47, 47, 127, 8574133]⟩,
      ⟨75445702479781427272750846543864801, 7,
        [2, 2, 2, 2, 2, 3, 3, 5, 5, 75707, 72106336199, 1919519569386763]⟩,
      ⟨74058212732561358302231226437062788676166966415465897661863160754340907, 2,
        [2, 3, 353, 57467, 132049, 1923133, 31757755568855353,
          75445702479781427272750846543864801]⟩,
      ⟨p, 2, [2, 2, 3, 65147,
        74058212732561358302231226437062788676166966415465897661863160754340907]⟩]
  isValid := by decide +kernel
  getLast?_steps := rfl

/-- The field modulus is prime, by its certificate. -/
theorem prime_p : p.Prime := fieldCertificate.prime

instance : Fact p.Prime := ⟨prime_p⟩

theorem odd_p : p % 2 = 1 := by decide

theorem sqrtMinusOne_mul_self : sqrtMinusOne * sqrtMinusOne = -1 := by decide

theorem ratio_mul_self : ratio * ratio = -486664 := by decide

theorem d_mul : d * 486664 = -486660 := by decide

/-! ### Square roots -/

/-- A root that is found squares to the number. -/
theorem mul_self_of_sqrt? {x r : Fin p} (h : sqrt? x = some r) : r * r = x := by
  simpa using List.find?_some h

/-- A root of a square is found, and is the number that was squared or its negative. -/
theorem exists_sqrt?_mul_self (y : Fin p) : ∃ r, sqrt? (y * y) = some r ∧ (r = y ∨ r = -y) := by
  have hsome : (sqrt? (y * y)).isSome := by
    rw [sqrt?, List.find?_isSome]
    rcases residuePow_mul_residuePow_or y (by decide : 8 * ((p + 3) / 8) = p + 3) with h | h
    · exact ⟨_, List.mem_cons_self, decide_eq_true h⟩
    · -- a root of the negative times the root of `-1` is a root of the square.
      refine ⟨_, List.mem_cons_of_mem _ List.mem_cons_self, decide_eq_true ?_⟩
      rw [mul_mul_mul_comm, h, sqrtMinusOne_mul_self, neg_mul_neg, mul_one]
  obtain ⟨r, hr⟩ := Option.isSome_iff_exists.1 hsome
  exact ⟨r, hr, eq_or_eq_neg_of_mul_self_eq (mul_self_of_sqrt? hr)⟩

/-- The constant of the curve is no square, which makes its addition law complete. -/
theorem not_isSquare_d : ¬ IsSquare (residue d) := by
  have hpow : residuePow d (p / 2) = -1 := by decide +kernel
  have hne : d ≠ 0 := by decide
  have hneg : (-1 : Fin p) ≠ 1 := by decide
  rw [ZMod.euler_criterion p (residue_zero (m := p) ▸ residue_injective.ne hne), ← residue_pow,
    hpow, ← residue_one, residue_inj]
  exact hneg

/-! ### The two forms

Over any field, `b` is the coefficient of the Montgomery form less two, and `d`, `r` and `i` are
what the coefficient of the Edwards form, the ratio and the root of `-1` are here. -/

section Forms

variable {K : Type} [Field K] {b d i r u v x y : K}

/-- The map from the Montgomery form takes the equation of one curve to that of the other. -/
theorem edwards_of_montgomery (hr : r * r = -(b + 4)) (hd : d * (b + 4) = -b)
    (h : v * v = u * u * u + (b + 2) * u * u + u) (hu : u + 1 ≠ 0) (hv : v ≠ 0) :
    (u - 1) * (u + 1)⁻¹ * ((u - 1) * (u + 1)⁻¹) - 1
      = r * u * v⁻¹ * (r * u * v⁻¹) * (d * ((u - 1) * (u + 1)⁻¹) * ((u - 1) * (u + 1)⁻¹) + 1) := by
  field_simp
  linear_combination -4 * u * h - u ^ 2 * (d * (u - 1) ^ 2 + (u + 1) ^ 2) * hr
    + u ^ 2 * (u - 1) ^ 2 * hd

/-- At `u = -1` the coefficient of the Edwards form would be a square. -/
theorem add_one_ne_zero_of_montgomery (hsquare : ¬ IsSquare d) (hr : r * r = -(b + 4))
    (hd : d * (b + 4) = -b) (hr0 : r ≠ 0) (h : v * v = u * u * u + (b + 2) * u * u + u) :
    u + 1 ≠ 0 := by
  intro hu
  obtain rfl : u = -1 := by linear_combination hu
  refine hsquare ⟨v * r⁻¹, ?_⟩
  field_simp
  linear_combination d * hr - hd - h

/-- At a second point with `v = 0` it would be one, too. -/
theorem eq_zero_of_montgomery (hsquare : ¬ IsSquare d) (hi : i * i = -1) (hd : d * (b + 4) = -b)
    (hb : b + 4 ≠ 0) (h : 0 = u * u * u + (b + 2) * u * u + u) : u = 0 := by
  by_contra hu
  have hquadratic : u * u + (b + 2) * u + 1 = 0 := by
    refine mul_left_cancel₀ hu ?_
    linear_combination -h
  refine hsquare ⟨i * (2 * u + (b + 2)) * (b + 4)⁻¹, ?_⟩
  field_simp
  linear_combination (b + 4) * hd - (2 * u + (b + 2)) ^ 2 * hi + 4 * hquadratic

/-- The denominator of the square of the first Edwards coordinate is never zero. -/
theorem denominator_ne_zero (hsquare : ¬ IsSquare d) (hi : i * i = -1) (y : K) :
    d * y * y + 1 ≠ 0 := by
  intro h
  have hy : y ≠ 0 := by
    rintro rfl
    simp at h
  refine hsquare ⟨i * y⁻¹, ?_⟩
  field_simp
  linear_combination h - hi

/-- The map back gives the first coordinate of the Montgomery form. -/
theorem montgomery_of_edwards (htwo : (2 : K) ≠ 0) (hu : u + 1 ≠ 0) :
    (1 + (u - 1) * (u + 1)⁻¹) * (1 - (u - 1) * (u + 1)⁻¹)⁻¹ = u := by
  have hnumerator : 1 + (u - 1) * (u + 1)⁻¹ = u * (2 * (u + 1)⁻¹) := by
    field_simp
    ring
  have hdenominator : 1 - (u - 1) * (u + 1)⁻¹ = 2 * (u + 1)⁻¹ := by
    field_simp
    ring
  rw [hnumerator, hdenominator, mul_inv_cancel_right₀ (mul_ne_zero htwo (inv_ne_zero hu))]

/-- And it leads to the curve in Montgomery form. -/
theorem montgomery_of_edwards_equation (hr : r * r = -(b + 4)) (hd : d * (b + 4) = -b)
    (h : x * x * (d * y * y + 1) = y * y - 1) (hy : 1 - y ≠ 0) (hx : x ≠ 0) :
    r * ((1 + y) * (1 - y)⁻¹) * x⁻¹ * (r * ((1 + y) * (1 - y)⁻¹) * x⁻¹)
      = (1 + y) * (1 - y)⁻¹ * ((1 + y) * (1 - y)⁻¹) * ((1 + y) * (1 - y)⁻¹)
        + (b + 2) * ((1 + y) * (1 - y)⁻¹) * ((1 + y) * (1 - y)⁻¹) + (1 + y) * (1 - y)⁻¹ := by
  field_simp
  linear_combination (1 + y) * ((1 - y ^ 2) * hr - (b + 4) * h + x ^ 2 * y ^ 2 * hd)

end Forms

theorem residue_sqrtMinusOne : residue sqrtMinusOne * residue sqrtMinusOne = -1 := by
  rw [← residue_mul, sqrtMinusOne_mul_self, residue_neg, residue_one]

/-- The factor of the map to the Montgomery form squares to the residue that the map needs. -/
theorem residue_ratio : residue ratio * residue ratio = -(486660 + 4) := by
  rw [← residue_mul, ratio_mul_self, residue_neg, residue_literal]
  norm_num

/-- The constant of the curve in terms of the coefficient of the Montgomery form. -/
theorem residue_d : residue d * (486660 + 4) = -486660 := by
  have h := congrArg residue d_mul
  rw [residue_mul, residue_neg, residue_literal, residue_literal] at h
  rw [← h]
  norm_num

theorem residue_ratio_ne_zero : residue ratio ≠ 0 := by
  rw [← residue_zero (m := p), residue_injective.ne_iff]
  decide

theorem four_ne_zero_residue : (486660 + 4 : ZMod p) ≠ 0 := by
  intro h
  have hratio := residue_ratio
  rw [h, neg_zero, mul_self_eq_zero] at hratio
  exact residue_ratio_ne_zero hratio

/-- A point of the curve in Montgomery form, as an equation of residues. -/
theorem contains_iff_montgomery {u v : Fin p} :
    curve.Contains (.affine u v) ↔ residue v * residue v = residue u * residue u * residue u
      + (486660 + 2) * residue u * residue u + residue u := by
  have ha₂ : residue curve.a₂ = 486660 + 2 := (residue_literal 486662).trans (by norm_num)
  have ha₄ : residue curve.a₄ = 1 := residue_one
  have ha₆ : residue curve.a₆ = 0 := residue_zero
  have hcubic : residue (curve.cubic u) = residue u * residue u * residue u
      + (486660 + 2) * residue u * residue u + residue u := by
    rw [residue_cubic, ha₂, ha₄, ha₆]
    ring
  rw [Contains, ← residue_inj, residue_mul, hcubic]

/-- But for the point of order two no denominator is zero. -/
theorem eq_zero_or_ne_zero {u v : Fin p} (h : curve.Contains (.affine u v)) :
    u = 0 ∧ v = 0 ∨ residue u + 1 ≠ 0 ∧ residue u ≠ 0 ∧ residue v ≠ 0 := by
  have hmontgomery := contains_iff_montgomery.1 h
  by_cases hv : residue v = 0
  · -- the other two points with `v = 0` are not over this field.
    rw [hv, mul_zero] at hmontgomery
    have hu := eq_zero_of_montgomery not_isSquare_d residue_sqrtMinusOne residue_d
      four_ne_zero_residue hmontgomery
    rw [← residue_zero, residue_inj] at hu hv
    exact Or.inl ⟨hu, hv⟩
  · have hu : residue u ≠ 0 := by
      intro hu
      rw [hu] at hmontgomery
      exact hv (by simpa using hmontgomery)
    exact Or.inr ⟨add_one_ne_zero_of_montgomery not_isSquare_d residue_ratio residue_d
      residue_ratio_ne_zero hmontgomery, hu, hv⟩

/-- The Edwards coordinates of a point satisfy the equation of the Edwards form. -/
theorem toEdwards_equation {P : Point} (h : curve.Contains P) :
    ((toEdwards P).2 * (toEdwards P).2 - 1)
        * residueInv (d * (toEdwards P).2 * (toEdwards P).2 + 1)
      = (toEdwards P).1 * (toEdwards P).1 := by
  have hdenominator := denominator_ne_zero not_isSquare_d residue_sqrtMinusOne
    (residue (toEdwards P).2)
  -- the equation is proved in the field of residues, where fractions can be cleared.
  rw [← residue_inj]
  simp only [residue_mul, residue_sub, residue_add, residue_one, residue_inv]
  rw [← div_eq_mul_inv, div_eq_iff hdenominator]
  cases P with
  | infinity => simp [toEdwards]
  | affine u v =>
    simp only [toEdwards, residue_mul, residue_sub, residue_add, residue_one, residue_inv]
    rcases eq_zero_or_ne_zero h with ⟨rfl, rfl⟩ | ⟨hu, -, hv⟩
    · simp
    · exact edwards_of_montgomery residue_ratio residue_d (contains_iff_montgomery.1 h) hu hv

/-- The Edwards coordinates determine the point. -/
theorem ofEdwards_toEdwards {P : Point} (h : curve.Contains P) :
    ofEdwards (toEdwards P).1 (toEdwards P).2 = P := by
  cases P with
  | infinity => exact if_pos rfl
  | affine u v =>
    have htwo : (2 : ZMod p) ≠ 0 := by
      rw [← residue_literal 2, ← residue_zero, residue_injective.ne_iff]
      decide
    rcases eq_zero_or_ne_zero h with ⟨rfl, rfl⟩ | ⟨hu1, hu, hv⟩
    · decide
    -- with an ordinate of one the point would be read as the one at infinity.
    · have hne : (u - 1) * residueInv (u + 1) ≠ 1 := by
        rw [← residue_injective.ne_iff]
        simp only [residue_mul, residue_sub, residue_add, residue_one, residue_inv]
        rw [← div_eq_mul_inv, ne_eq, div_eq_one_iff_eq hu1]
        intro heq
        exact htwo (by linear_combination -heq)
      have hu' : (1 + (u - 1) * residueInv (u + 1)) * residueInv (1 - (u - 1) * residueInv (u + 1))
          = u := by
        rw [← residue_inj]
        simp only [residue_mul, residue_sub, residue_add, residue_one, residue_inv]
        exact montgomery_of_edwards htwo hu1
      have hv' : ratio * u * residueInv (ratio * u * residueInv v) = v := by
        have hratio := residue_ratio_ne_zero
        rw [← residue_inj]
        simp only [residue_mul, residue_inv]
        field_simp
      simp only [toEdwards, ofEdwards, if_neg hne, hu', hv']

/-- Coordinates that satisfy the equation of the Edwards form are those of a point of the curve. -/
theorem contains_ofEdwards {x y : Fin p}
    (h : (y * y - 1) * residueInv (d * y * y + 1) = x * x) : curve.Contains (ofEdwards x y) := by
  have hdenominator := denominator_ne_zero not_isSquare_d residue_sqrtMinusOne (residue y)
  have hequation : residue x * residue x * (residue d * residue y * residue y + 1)
      = residue y * residue y - 1 := by
    rw [← residue_inj] at h
    simp only [residue_mul, residue_sub, residue_add, residue_one, residue_inv] at h
    rwa [← div_eq_mul_inv, div_eq_iff hdenominator, eq_comm] at h
  unfold ofEdwards
  split
  · trivial
  · next hy =>
    have hy' : 1 - residue y ≠ 0 := by
      rw [sub_ne_zero, ← residue_one, residue_injective.ne_iff]
      exact Ne.symm hy
    rw [contains_iff_montgomery]
    simp only [residue_mul, residue_sub, residue_add, residue_one, residue_inv]
    by_cases hx : residue x = 0
    · -- a zero in front leaves the point of order two.
      have hzero : 1 + residue y = 0 := by
        refine (mul_eq_zero.1 ?_).resolve_left hy'
        rw [hx] at hequation
        linear_combination hequation
      rw [hzero]
      ring
    · exact montgomery_of_edwards_equation residue_ratio residue_d hequation hy' hx

/-- Every point of the curve is an element of its group. The point of order two is its own
reflection, but its tangent is not horizontal. -/
theorem exists_ofGroup {P : Point} (h : curve.Contains P) :
    ∃ Q : curve.toWeierstrass.toAffine.Point, ofGroup Q = P := by
  cases P with
  | infinity => exact ⟨0, rfl⟩
  | affine u v =>
    rcases eq_zero_or_ne_zero h with ⟨rfl, rfl⟩ | ⟨-, -, hv⟩
    -- the derivative by the abscissa is the linear coefficient, which is one.
    · have hnonsingular : curve.toWeierstrass.toAffine.Nonsingular (residue 0) (residue 0) := by
        refine (WeierstrassCurve.Affine.nonsingular_iff _ _).2 ⟨contains_affine_iff.1 h, .inl ?_⟩
        have ha₄ : residue curve.a₄ = 1 := residue_one
        simp [toWeierstrass, ha₄]
      exact ⟨_, ofGroup_some hnonsingular⟩
    · have hval : v.val ≠ 0 := by
        intro hval
        rw [Fin.val_eq_zero_iff.1 hval, residue_zero] at hv
        exact hv rfl
      exact ⟨_, ofGroup_some (nonsingular_of_contains h (ne_neg_self odd_p hval))⟩

/-! ### Encodings -/

/-- The number that an encoding stands for: the second coordinate, and the parity of the first one
in its place. -/
theorem encoded_number (x y : Fin p) :
    toNatLE (ofNatLE byteLength (y.val + x.val % 2 * parityPlace)) % parityPlace = y.val ∧
      toNatLE (ofNatLE byteLength (y.val + x.val % 2 * parityPlace)) / parityPlace % 2
        = x.val % 2 := by
  have hy : y.val < parityPlace := y.isLt.trans (by decide)
  have hx : x.val % 2 < 2 := Nat.mod_lt _ Nat.zero_lt_two
  have hplace : 256 ^ byteLength = 2 * parityPlace := by decide
  rw [toNatLE_ofNatLE, hplace]
  -- the place of the parity bit is a large literal, and only its positivity is used.
  generalize parityPlace = place at *
  have hlt : y.val + x.val % 2 * place < 2 * place := by
    calc y.val + x.val % 2 * place < place + x.val % 2 * place := by omega
      _ = (x.val % 2 + 1) * place := by ring
      _ ≤ 2 * place := Nat.mul_le_mul_right _ hx
  have hpos : 0 < place := by omega
  rw [Nat.mod_eq_of_lt hlt, Nat.add_mul_mod_self_right, Nat.mod_eq_of_lt hy,
    Nat.add_mul_div_right _ _ hpos, Nat.div_eq_of_lt hy, Nat.zero_add, Nat.mod_mod]
  exact ⟨rfl, rfl⟩

/-- Every point of the curve is read from its encoding. -/
theorem decode?_encode {P : Point} (h : curve.Contains P) : decode? (encode P) = some P := by
  obtain ⟨r, hr, hrx⟩ := exists_sqrt?_mul_self (toEdwards P).1
  obtain ⟨hmod, hdiv⟩ := encoded_number (toEdwards P).1 (toEdwards P).2
  have hequation := toEdwards_equation h
  have hof := ofEdwards_toEdwards h
  have hparity := ite_parity_eq odd_p hrx rfl
  have hencode : encode P = ofNatLE byteLength
    ((toEdwards P).2.val + (toEdwards P).1.val % 2 * parityPlace) := rfl
  have hofNat : Fin.ofNat p (toEdwards P).2.val = (toEdwards P).2 := Fin.ofNat_val_eq_self _
  rw [hencode, decode?]
  -- the root is the first coordinate up to its sign, which the parity settles.
  simp only [hmod, hdiv, hofNat, hequation, hr, hparity, hof, Option.bind_eq_bind, Option.bind_some,
    length_ofNatLE, if_true]

/-- What is read is a point of the curve. -/
theorem contains_of_decode? {b : Bytes} {P : Point} (h : decode? b = some P) :
    curve.Contains P := by
  simp only [decode?, Option.bind_eq_bind, Option.bind_eq_some_iff, Option.ite_none_right_eq_some,
    Option.some.injEq] at h
  obtain ⟨r, hr, -, rfl⟩ := h
  refine contains_ofEdwards ?_
  rw [← mul_self_of_sqrt? hr]
  split
  · rfl
  · exact (neg_mul_neg r r).symm

/-- The points of the group have different encodings. -/
theorem encode_ofGroup_inj {P Q : curve.toWeierstrass.toAffine.Point} :
    encode (ofGroup P) = encode (ofGroup Q) ↔ P = Q := by
  refine ⟨fun h => ?_, fun h => by rw [h]⟩
  have hdecode : decode? (encode (ofGroup P)) = decode? (encode (ofGroup Q)) := by rw [h]
  rw [decode?_encode (contains_ofGroup P), decode?_encode (contains_ofGroup Q)] at hdecode
  exact ofGroup_injective (Option.some.inj hdecode)

theorem length_encode (P : Point) : (encode P).length = byteLength :=
  length_ofNatLE _ _

/-! ### The generator -/

/-- The order of the base point as RFC 8032 writes it. -/
theorem order_eq : order = 2 ^ 252 + 27742317777372353535851937790883648493 := by
  decide

/-- The steps that certify the order of the generator. -/
def orderCertificate : Certificate order where
  steps :=
    [⟨1224481, 13, [2, 2, 2, 2, 2, 3, 5, 2551]⟩,
      ⟨1257559732178653, 2, [2, 2, 3, 7, 23, 531581, 1224481]⟩,
      ⟨4434155615661930479, 17, [2, 41, 43, 1257559732178653]⟩,
      ⟨172054593956031949258510691, 2, [2, 5, 1361, 2851, 4434155615661930479]⟩,
      ⟨292386187, 2, [2, 3, 3, 3, 3, 307, 5879]⟩,
      ⟨213441916511, 13, [2, 5, 73, 292386187]⟩,
      ⟨19757330305831588566944191468367130476339, 2,
        [2, 269, 213441916511, 172054593956031949258510691]⟩,
      ⟨276602624281642239937218680557139826668747, 2,
        [2, 7, 19757330305831588566944191468367130476339]⟩,
      ⟨14741173, 2, [2, 2, 3, 3, 409477]⟩,
      ⟨58964693, 2, [2, 2, 14741173]⟩,
      ⟨3044861653679985063343, 5, [2, 3, 11, 30703, 82163, 132667, 137849]⟩,
      ⟨198211423230930754013084525763697, 5,
        [2, 2, 2, 2, 3, 23, 58964693, 3044861653679985063343]⟩,
      ⟨order, 2, [2, 2, 3, 11, 198211423230930754013084525763697,
        276602624281642239937218680557139826668747]⟩]
  isValid := by decide +kernel
  getLast?_steps := rfl

/-- The order of the base point is prime, by its certificate. -/
theorem prime_order : order.Prime := orderCertificate.prime

/-- The base point lies on the curve. -/
theorem contains_generator : curve.Contains generator := by decide

/-- Every multiple of the generator is on the curve. -/
theorem contains_smul_generator (n : ℕ) : curve.Contains (curve.smul n generator) :=
  contains_smul contains_generator (by decide) n

/-- The multiple of the generator by its order is the point at infinity. -/
theorem smul_order_generator : curve.smul order generator = .infinity := by
  rw [generator, smul_eq_toPoint contains_generator (by decide)]
  decide +kernel

end Keyring.Edwards25519
