import Keyring.Curve.P256
import Keyring.Proofs.Arith.Prime
import Keyring.Proofs.Bytes
import Keyring.Proofs.Curve.Homogeneous
/-!
# Points of P-256 and their encodings

The order of the field and that of the group are prime, and no point is its own reflection. So every
point but the one at infinity has exactly three encodings, of which the compact one belongs to that
point of a pair whose second coordinate is the smaller one, and nothing else can be read.
-/

namespace Keyring.P256

open Arith Bytes Curve

/-! ### Primes -/

/-- The steps that certify the order of the field. -/
def fieldCertificate : Certificate p where
  steps :=
    [⟨6700417, 5, [2, 2, 2, 2, 2, 2, 2, 3, 17449]⟩,
      ⟨204061199, 11, [2, 11, 23, 107, 3769]⟩,
      ⟨34282281433, 17, [2, 2, 2, 3, 7, 204061199]⟩,
      ⟨66417393611, 6, [2, 5, 53, 173, 197, 3677]⟩,
      ⟨11290956913871, 13, [2, 5, 17, 66417393611]⟩,
      ⟨46076956964474543, 5, [2, 23, 18169, 78283, 704251]⟩,
      ⟨774023187263532362759620327192479577272145303, 3,
        [2, 3, 3, 2411, 34282281433, 11290956913871, 46076956964474543]⟩,
      ⟨835945042244614951780389953367877943453916927241, 11,
        [2, 2, 2, 3, 3, 3, 5, 774023187263532362759620327192479577272145303]⟩,
      ⟨p, 6, [2, 3, 5, 5, 17, 257, 641, 1531, 65537, 490463, 6700417,
        835945042244614951780389953367877943453916927241]⟩]
  isValid := by decide +kernel
  getLast?_steps := rfl

/-- The field modulus is prime, by its certificate. -/
theorem prime_p : p.Prime := fieldCertificate.prime

/-- The steps that certify the order of the group. -/
def orderCertificate : Certificate order where
  steps :=
    [⟨9350987, 2, [2, 17, 229, 1201]⟩,
      ⟨187019741, 2, [2, 2, 5, 9350987]⟩,
      ⟨311245691, 2, [2, 5, 7, 17, 29, 29, 311]⟩,
      ⟨622491383, 5, [2, 311245691]⟩,
      ⟨3969899, 2, [2, 19, 104471]⟩,
      ⟨1002328039319, 19, [2, 126241, 3969899]⟩,
      ⟨191039911, 3, [2, 3, 5, 41, 155317]⟩,
      ⟨208150935158385979, 2, [2, 3, 11, 43, 127, 3023, 191039911]⟩,
      ⟨2624747550333869278416773953, 7,
        [2, 2, 2, 2, 2, 2, 3, 3, 1297, 16879, 208150935158385979]⟩,
      ⟨order, 7, [2, 2, 2, 2, 3, 71, 131, 373, 3407, 17449, 38189, 187019741, 622491383,
        1002328039319, 2624747550333869278416773953]⟩]
  isValid := by decide +kernel
  getLast?_steps := rfl

/-- The order of the base point is prime, by its certificate. -/
theorem prime_order : order.Prime := orderCertificate.prime

instance : Fact p.Prime := ⟨prime_p⟩

/-! ### Square roots -/

/-- A root that is found squares to the number. -/
theorem mul_self_of_sqrt? {x r : Fin p} (h : sqrt? x = some r) : r * r = x := by
  simp only [sqrt?, Option.ite_none_right_eq_some, Option.some.injEq] at h
  obtain ⟨hr, rfl⟩ := h
  exact hr

/-- A root of a square is found, and is the number that was squared or its negative. -/
theorem exists_sqrt?_mul_self (y : Fin p) : ∃ r, sqrt? (y * y) = some r ∧ (r = y ∨ r = -y) := by
  have hr : residuePow (y * y) ((p + 1) / 4) * residuePow (y * y) ((p + 1) / 4) = y * y :=
    residuePow_mul_residuePow y (by decide)
  refine ⟨residuePow (y * y) ((p + 1) / 4), ?_, eq_or_eq_neg_of_mul_self_eq hr⟩
  simp only [sqrt?, hr, if_true]

/-! ### Points -/

theorem odd_p : p % 2 = 1 := by decide

/-- No point is its own reflection: the cubic has no root. -/
theorem cubic_ne_zero (x : Fin p) : curve.cubic x ≠ 0 :=
  Curve.cubic_ne_zero (v :=
    ⟨0xa969487079f1744798bf0de6fded091b66e9d328eb0645fe5d979d1339b7f47f,
      0xa4a08891884100c13323460107a8d28eede4387fa3e6e9bfebec9f6d72d0b5cc,
      0x4cde11cf86cb876cd59cf0115813c55af0ecd3cda667d98bb9a347a56aa74a6d⟩) (by decide +kernel) x

/-- No point of the curve has a zero ordinate, since the cubic has no root. -/
theorem val_ne_zero_of_contains {x y : Fin p} (h : curve.Contains (.affine x y)) : y.val ≠ 0 :=
  Curve.val_ne_zero_of_contains cubic_ne_zero h

theorem contains_generator : curve.Contains generator := by decide

/-- The multiples of the generator are computed without division. -/
theorem smul_generator (n : ℕ) :
    curve.smul n generator = (Homogeneous.smul curve n
      0x6b17d1f2e12c4247f8bce6e563a440f277037d812deb33a0f4a13945d898c296
      0x4fe342e2fe1a7f9b8ee7eb4a7c0f9e162bce33576b315ececbb6406837bf51f5).toPoint :=
  smul_eq_toPoint contains_generator (by decide) n

/-- The multiple of the generator by the order of the group is the point at infinity. -/
theorem smul_order_generator : curve.smul order generator = .infinity := by
  rw [smul_generator]
  decide +kernel

/-- The multiples of the base point lie on the curve. -/
theorem contains_smul_generator (n : ℕ) : curve.Contains (curve.smul n generator) :=
  contains_smul contains_generator (by decide) n

/-- A positive multiple below the order is no point at infinity. -/
theorem smul_generator_ne_infinity {n : ℕ} (hpos : 0 < n) (hlt : n < order) :
    curve.smul n generator ≠ .infinity :=
  smul_ne_infinity contains_generator (by decide) prime_order smul_order_generator hpos hlt

/-! ### Coordinates -/

/-- A coordinate is read from its one encoding. -/
theorem coordinate?_eq_some_iff {b : Bytes} {x : Fin p} :
    coordinate? b = some x ↔ b = coordinate x := by
  unfold coordinate? coordinate
  constructor
  · intro h
    split at h
    · next hb =>
      obtain rfl := Option.some.inj h
      rw [← hb.1, ofNat_toNat]
    · cases h
  · rintro rfl
    -- the field is smaller than the numbers of 32 bytes, so nothing is cut off.
    have hx : toNat (ofNat byteLength x.val) = x.val :=
      toNat_ofNat_of_lt (x.isLt.trans (by decide))
    rw [dif_pos ⟨length_ofNat _ _, hx.symm ▸ x.isLt⟩]
    exact congrArg some (Fin.ext hx)

@[simp] theorem length_coordinate (x : Fin p) : (coordinate x).length = byteLength :=
  length_ofNat _ _

theorem coordinate_injective : Function.Injective coordinate := by
  intro x y h
  have hx := coordinate?_eq_some_iff.2 (rfl : coordinate x = coordinate x)
  exact Option.some.inj (hx.symm.trans (coordinate?_eq_some_iff.2 h))

/-- The encoding with both coordinates tells all points apart. -/
theorem uncompressed_injective : Function.Injective uncompressed := by
  intro P Q h
  cases P with
  | infinity =>
    cases Q with
    | infinity => rfl
    | affine x y => simp [uncompressed] at h
  | affine x y =>
    cases Q with
    | infinity => simp [uncompressed] at h
    | affine u v =>
      -- both coordinates have a fixed length, so the encoding splits in one way.
      have hcoordinates : coordinate x ++ coordinate y = coordinate u ++ coordinate v :=
        List.tail_eq_of_cons_eq h
      have hlength : (coordinate x).length = (coordinate u).length := by simp
      obtain ⟨hx, hy⟩ := List.append_inj hcoordinates hlength
      rw [coordinate_injective hx, coordinate_injective hy]

/-! ### Encodings -/

/-- The encoding with the first coordinate alone. -/
def compact : Point → Bytes
  | .infinity => [0]
  | .affine x _ => 0x05 :: coordinate x

/-- Whether the second coordinate is not above its negative. -/
def IsLower : Point → Prop
  | .infinity => True
  | .affine _ y => y ≤ -y

/-- Whether a byte string is one of the encodings of a point. Only the lower one of a point and its
reflection has the compact one. -/
def IsEncoding (b : Bytes) (P : Point) : Prop :=
  b = uncompressed P ∨ b = compressed P ∨ b = compact P ∧ IsLower P

/-- An uncompressed point takes at most 65 bytes. -/
theorem length_uncompressed_le (P : Point) : (uncompressed P).length ≤ 65 := by
  cases P <;> simp [uncompressed, byteLength]

theorem IsEncoding.length_le {b : Bytes} {P : Point} (h : IsEncoding b P) : b.length ≤ 65 := by
  rcases h with rfl | rfl | ⟨rfl, -⟩
  · exact length_uncompressed_le P
  · cases P <;> simp [compressed, byteLength]
  · cases P <;> simp [compact, byteLength]

/-- The second coordinate that a tag other than the uncompressed one picks. -/
def pick? (tag : UInt8) (r : Fin p) : Option (Fin p) :=
  if tag = 0x02 then some (if r.val % 2 = 0 then r else -r)
  else if tag = 0x03 then some (if r.val % 2 = 1 then r else -r)
  else if tag = 0x05 then some (if r ≤ -r then r else -r)
  else none

/-- Without the second coordinate, a root of the cubic is found and the tag picks it or its
negative. -/
theorem point?_cons_eq {tag : UInt8} (htag : tag ≠ 0x04) (b : Bytes) :
    point? (tag :: b) = (coordinate? b).bind fun x => (sqrt? (curve.cubic x)).bind fun r =>
      (pick? tag r).map (.affine x) := by
  simp only [point?, if_neg htag, Option.bind_eq_bind, pick?,
    apply_ite (Option.map (Point.affine _)), Option.map_some, Option.map_none]

/-- Of a root and its negative, each tag picks the one that it describes. -/
theorem pick?_eq_some_iff {tag : UInt8} {y r : Fin p} (hy : y.val ≠ 0) (h : r = y ∨ r = -y) :
    pick? tag r = some y ↔ tag = 0x02 ∧ y.val % 2 = 0 ∨ tag = 0x03 ∧ y.val % 2 = 1 ∨
      tag = 0x05 ∧ y ≤ -y := by
  have heven := ite_parity_eq_iff odd_p hy h Nat.zero_lt_two
  have hodd := ite_parity_eq_iff odd_p hy h Nat.one_lt_two
  have hlower := ite_le_eq_iff h
  -- one case for each tag that is tested.
  unfold pick?
  split
  · next h2 =>
    subst h2
    rw [Option.some_inj, heven]
    simp
  · next h2 =>
    split
    · next h3 =>
      subst h3
      rw [Option.some_inj, hodd]
      simp
    · next h3 =>
      split
      · next h5 =>
        subst h5
        rw [Option.some_inj, hlower]
        simp
      · next h5 => simp [h2, h3, h5]

/-- What a tag picks has the same square. -/
theorem mul_self_of_pick? {tag : UInt8} {y r : Fin p} (h : pick? tag r = some y) :
    y * y = r * r := by
  have hroot : r = y ∨ -r = y := by
    unfold pick? at h
    split_ifs at h <;> simp_all
  rcases hroot with rfl | rfl
  · rfl
  · exact neg_mul_neg r r

/-- Under the tag 4 both coordinates stand. -/
theorem isEncoding_uncompressed_iff {b : Bytes} {x y : Fin p} :
    IsEncoding (0x04 :: b) (.affine x y) ↔ b = coordinate x ++ coordinate y := by
  simp only [IsEncoding, uncompressed, compressed, compact]
  split <;> simp

/-- Under any other tag the abscissa stands, and the tag says which ordinate is meant. -/
theorem isEncoding_cons_iff {tag : UInt8} (htag : tag ≠ 0x04) {b : Bytes} {x y : Fin p} :
    IsEncoding (tag :: b) (.affine x y) ↔ b = coordinate x ∧
      (tag = 0x02 ∧ y.val % 2 = 0 ∨ tag = 0x03 ∧ y.val % 2 = 1 ∨ tag = 0x05 ∧ y ≤ -y) := by
  simp only [IsEncoding, uncompressed, compressed, compact, IsLower, List.cons_append,
    List.cons.injEq, htag, false_and, false_or]
  split
  · next heven =>
    have hodd : y.val % 2 ≠ 1 := by omega
    tauto
  · next heven =>
    have hodd : y.val % 2 = 1 := by omega
    tauto

/-- What is read is a finite point on the curve, and a byte string is read as such a point if and
only if it is one of its encodings. -/
theorem point?_eq_some_iff {b : Bytes} {P : Point} :
    point? b = some P ↔ P ≠ .infinity ∧ curve.Contains P ∧ IsEncoding b P := by
  cases b with
  | nil => cases P <;> simp [point?, IsEncoding, uncompressed, compressed, compact]
  | cons tag b =>
    by_cases htag : tag = 0x04
    · subst htag
      simp only [point?, if_true, Option.bind_eq_bind, Option.bind_eq_some_iff,
        coordinate?_eq_some_iff, Option.ite_none_right_eq_some, Option.some.injEq]
      -- both coordinates are there, so reading only cuts the bytes in two.
      -- both coordinates are there, so reading only cuts the bytes in two.
      constructor
      · rintro ⟨x, hx, y, hy, hP, rfl⟩
        refine ⟨by simp, hP, isEncoding_uncompressed_iff.2 ?_⟩
        rw [← hx, ← hy, List.take_append_drop]
      · rintro ⟨hfinite, hP, hb⟩
        cases P with
        | infinity => exact absurd rfl hfinite
        | affine x y =>
          obtain rfl := isEncoding_uncompressed_iff.1 hb
          exact ⟨x, List.take_left' (length_coordinate x), y,
            List.drop_left' (length_coordinate x), hP, rfl⟩
    · simp only [point?_cons_eq htag, Option.bind_eq_some_iff, coordinate?_eq_some_iff,
        Option.map_eq_some_iff]
      constructor
      · rintro ⟨x, rfl, r, hr, y, hy, rfl⟩
        -- what the tag picks has the square of the root, which is the cubic.
        have hsquare := mul_self_of_pick? hy
        have hP : curve.Contains (.affine x y) := hsquare.trans (mul_self_of_sqrt? hr)
        have htags := (pick?_eq_some_iff (val_ne_zero_of_contains hP)
          (eq_or_eq_neg_of_mul_self_eq hsquare.symm)).1 hy
        exact ⟨by simp, hP, (isEncoding_cons_iff htag).2 ⟨rfl, htags⟩⟩
      · rintro ⟨hfinite, hP, hb⟩
        cases P with
        | infinity => exact absurd rfl hfinite
        | affine x y =>
          obtain ⟨rfl, htags⟩ := (isEncoding_cons_iff htag).1 hb
          -- the root that is found is `y` or `-y`, and the tag was made for `y`.
          -- the root that is found is `y` or `-y`, and the tag was made for `y`.
          obtain ⟨r, hr, hry⟩ := exists_sqrt?_mul_self y
          rw [show y * y = curve.cubic x from hP] at hr
          exact ⟨x, rfl, r, hr, y,
            (pick?_eq_some_iff (val_ne_zero_of_contains hP) hry).2 htags, rfl⟩

end Keyring.P256
