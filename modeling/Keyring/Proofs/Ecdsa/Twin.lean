import Keyring.Proofs.BitFlip
import Keyring.Proofs.Ecdsa
/-!
# Signatures with one first number

The second number of a signature and its negative lead to a point and its reflection, which have one
first coordinate, so with `s` also `order - s` is accepted. Two signatures of a message that share
the first number are such a pair, unless the first number is small enough to stand for two
coordinates: the group has prime order, so a multiple determines its point.

Encodings of such a pair may differ in a single bit. What stands in front of the second integer is
then the same, and the sum of the two numbers is odd, so the bit is the last one.
-/

namespace Keyring

open Bytes

namespace Ecdsa

open Arith Curve P256

/-! ### Commitments -/

variable {Q : Group} {message : Bytes} {r s t : ℕ}

/-- The point that two numbers determine together with the digest of a message and a public key. -/
def commitment (Q : Group) (message : Bytes) (r s : ℕ) : Group :=
  let z : ZMod order := toNat (Hash.sha256 message)
  (z / s).val • generatorPoint + ((r : ZMod order) / s).val • Q

theorem isSignature_iff_commitment : IsSignature Q message r s ↔
    ∃ x y h, commitment Q message r s = .some x y h ∧ (x.val : ZMod order) = r :=
  Iff.rfl

/-- The multiple of the commitment by the second number does not depend on the second number. -/
theorem smul_commitment (hs : (s : ZMod order) ≠ 0) :
    s • commitment Q message r s = toNat (Hash.sha256 message) • generatorPoint + r • Q := by
  have hquotient : ∀ n : ℕ, ((s * ((n : ZMod order) / s).val : ℕ) : ZMod order) = n := by
    intro n
    rw [Nat.cast_mul, ZMod.natCast_zmod_val, mul_div_cancel₀ _ hs]
  simp only [commitment, nsmul_add, ← mul_nsmul']
  rw [smul_congr (hquotient _) generatorPoint, smul_congr (hquotient r) Q]

/-- The negative of the second number leads to the reflection of the commitment. -/
theorem commitment_of_add_eq_order (hs : 0 < s) (hsum : s + t = order) (ht : 0 < t) :
    commitment Q message r t = -commitment Q message r s := by
  have hs' := cast_ne_zero_of_lt hs (by omega : s < order)
  have hzero : (s + t) • commitment Q message r t = 0 := by
    rw [hsum, smul_congr (ZMod.natCast_self order |>.trans Nat.cast_zero.symm), zero_nsmul]
  have hmultiple : s • (commitment Q message r t + commitment Q message r s) = 0 := by
    rw [nsmul_add, smul_commitment hs', ← smul_commitment (cast_ne_zero_of_lt ht (by omega)),
      ← add_nsmul, hzero]
  rw [eq_neg_iff_add_eq_zero]
  -- no point but zero has a multiple by `s` that is zero.
  by_contra hne
  rw [← zero_nsmul (commitment Q message r t + commitment Q message r s), smul_eq_smul_iff hne,
    Nat.cast_zero] at hmultiple
  exact hs' hmultiple

/-- With a second number its negative makes up a signature, too. -/
theorem IsSignature.twin (h : IsSignature Q message r s) (hs : 0 < s) (ht : 0 < t)
    (hsum : s + t = order) : IsSignature Q message r t := by
  obtain ⟨x, y, hxy, hpoint, hx⟩ := h
  have htwin : commitment Q message r t = -.some x y hxy := by
    rw [commitment_of_add_eq_order hs hsum ht, ← hpoint]
    rfl
  rw [WeierstrassCurve.Affine.Point.neg_some] at htwin
  exact ⟨x, _, _, htwin, hx⟩

/-- One commitment has one second number. -/
theorem eq_of_commitment_eq (h : commitment Q message r s = commitment Q message r t)
    (hne : commitment Q message r s ≠ 0) (hs : 0 < s) (hslt : s < order) (ht : 0 < t)
    (htlt : t < order) : s = t := by
  have hmultiple : s • commitment Q message r s = t • commitment Q message r s := by
    rw [smul_commitment (cast_ne_zero_of_lt hs hslt), h,
      smul_commitment (cast_ne_zero_of_lt ht htlt)]
  rwa [smul_eq_smul_iff hne, ZMod.natCast_eq_natCast_iff', Nat.mod_eq_of_lt hslt,
    Nat.mod_eq_of_lt htlt] at hmultiple

/-- The second numbers of a commitment and its reflection add up to the order of the group. -/
theorem add_eq_order_of_commitment_eq_neg
    (h : commitment Q message r t = -commitment Q message r s)
    (hne : commitment Q message r s ≠ 0) (hs : 0 < s) (hslt : s < order) (ht : 0 < t)
    (htlt : t < order) : s + t = order := by
  have hmultiple : (s + t) • commitment Q message r s = 0 • commitment Q message r s := by
    rw [add_nsmul, smul_commitment (cast_ne_zero_of_lt hs hslt),
      ← smul_commitment (cast_ne_zero_of_lt ht htlt), h, neg_nsmul, neg_add_cancel, zero_nsmul]
  rw [smul_eq_smul_iff hne, Nat.cast_zero, ZMod.natCast_eq_zero_iff] at hmultiple
  exact Nat.eq_of_dvd_of_lt_two_mul (by omega) hmultiple (by omega)

/-- A coordinate is below twice the order of the group, so there are two for a scalar. -/
theorem val_eq_or_of_cast_eq {u : ZMod p} (hr : r < order) (hu : (u.val : ZMod order) = r) :
    u.val = r ∨ u.val = r + order := by
  have hlt : u.val < 2 * order := (ZMod.val_lt u).trans (by decide)
  rw [ZMod.natCast_eq_natCast_iff', Nat.mod_eq_of_lt hr] at hu
  rcases Nat.lt_or_ge u.val order with hsmall | hlarge
  · rw [Nat.mod_eq_of_lt hsmall] at hu
    exact .inl hu
  · rw [Nat.mod_eq_sub_mod hlarge, Nat.mod_eq_of_lt (by omega)] at hu
    right
    omega

/-- The commitments of two second numbers have different first coordinates: one is the first number
and the other exceeds it by the order of the group. -/
def HaveTwoCoordinates (Q : Group) (message : Bytes) (r s t : ℕ) : Prop :=
  ∃ x y h x' y' h', commitment Q message r s = .some x y h ∧
    commitment Q message r t = .some x' y' h' ∧
    (x.val = r ∧ x'.val = r + order ∨ x.val = r + order ∧ x'.val = r)

/-- Two signatures with one first number have one second number, or numbers that add up to the order
of the group, or their first number stands for two coordinates. -/
theorem IsSignature.eq_or_add_eq_order_or (h : IsSignature Q message r s)
    (h' : IsSignature Q message r t) (hr : r < order) (hs : 0 < s) (hslt : s < order) (ht : 0 < t)
    (htlt : t < order) :
    s = t ∨ s + t = order ∨ HaveTwoCoordinates Q message r s t := by
  obtain ⟨x, y, hxy, hpoint, hx⟩ := isSignature_iff_commitment.1 h
  obtain ⟨x', y', hxy', hpoint', hx'⟩ := isSignature_iff_commitment.1 h'
  have hne : commitment Q message r s ≠ 0 := by
    rw [hpoint]
    exact WeierstrassCurve.Affine.Point.some_ne_zero hxy
  by_cases hsame : x = x'
  · subst hsame
    -- the points with one first coordinate are a point and its reflection.
    rcases WeierstrassCurve.Affine.Y_eq_of_X_eq hxy'.1 hxy.1 rfl with rfl | rfl
    · exact .inl (eq_of_commitment_eq (hpoint.trans hpoint'.symm) hne hs hslt ht htlt)
    · refine .inr (.inl (add_eq_order_of_commitment_eq_neg ?_ hne hs hslt ht htlt))
      rw [hpoint, hpoint', WeierstrassCurve.Affine.Point.neg_some]
  · -- both coordinates stand for `r`, and there are two numbers that do.
    refine .inr (.inr ⟨x, y, hxy, x', y', hxy', hpoint, hpoint', ?_⟩)
    have hval : x.val ≠ x'.val := fun heq => hsame (ZMod.val_injective p heq)
    rcases val_eq_or_of_cast_eq hr hx with h | h <;>
      rcases val_eq_or_of_cast_eq hr hx' with h' | h' <;> omega

end Ecdsa

/-! ### Encodings that differ in one bit -/

namespace EcdsaSignature

open Der

/-- The first three bytes of a short encoding depend on its length alone. -/
theorem take_three_of_parse {d : Bytes} {sig : EcdsaSignature} (h : parse d = .ok sig)
    (hshort : d.length < 0x82) : d.take 3 = [0x30, UInt8.ofNat (d.length - 2), 0x02] := by
  obtain ⟨rest, hrest⟩ : ∃ rest, sig.toElement.body = 0x02 :: rest := ⟨_, rfl⟩
  have hd : d = 0x30 :: (encodeLength sig.toElement.body.length ++ sig.toElement.body) :=
    (ofDer?_eq_some_iff.1 (parse_eq_ok_iff.1 h)).1
  have hlength := congrArg List.length hd
  rw [List.length_cons, List.length_append] at hlength
  generalize sig.toElement.body = body at hrest hd hlength
  have hpos : 0 < (encodeLength body.length).length := by
    unfold encodeLength
    split <;> simp
  -- a short document has its length in one byte.
  have henc : encodeLength body.length = [UInt8.ofNat body.length] := if_pos (by omega)
  rw [henc, List.length_singleton] at hlength
  have hbody : d.length - 2 = body.length := by omega
  rw [hbody, hd, henc, hrest]
  rfl

/-- So none of their bits may be changed. -/
theorem three_le_of_parse_flipBit {d : Bytes} {sig sig' : EcdsaSignature} {i j : ℕ}
    (h : parse d = .ok sig) (h' : parse (flipBit d i j) = .ok sig') (hshort : d.length < 0x82)
    (hi : i < d.length) (hj : j < 8) : 3 ≤ i := by
  by_contra hlt
  have htake : (flipBit d i j).take 3 = d.take 3 := by
    rw [take_three_of_parse h hshort, take_three_of_parse h' (by rwa [length_flipBit]),
      length_flipBit]
  refine flipBit_ne hi hj ?_
  rw [← List.take_append_drop 3 (flipBit d i j), htake, drop_flipBit_of_lt (Nat.lt_of_not_le hlt),
    List.take_append_drop]

/-- What stands in an encoding in front of the body of the second integer, if that has `k` bytes. -/
def front (r : Bytes) (k : ℕ) : Bytes :=
  Tag.sequence.toByte :: encodeLength ((Element.unsigned r).encode.length
    + (1 + (encodeLength k).length + k)) ++ ((Element.unsigned r).encode ++
      Tag.integer.toByte :: encodeLength k)

theorem encode_toElement_eq (r s : Bytes) :
    (toElement ⟨r, s⟩).encode
      = front r (Element.unsignedBody s).length ++ Element.unsignedBody s := by
  -- the second number stands at the end, behind its own tag and length.
  have hbody : (toElement ⟨r, s⟩).body = (Element.unsigned r).encode ++
      (Tag.integer.toByte :: encodeLength (Element.unsignedBody s).length
        ++ Element.unsignedBody s) := by
    show Element.encodeAll [Element.unsigned r, Element.unsigned s] = _
    rw [Element.encodeAll_cons, Element.encodeAll_cons, Element.encodeAll_nil, List.append_nil]
    rfl
  have hlength : (toElement ⟨r, s⟩).body.length = (Element.unsigned r).encode.length
      + (1 + (encodeLength (Element.unsignedBody s).length).length
        + (Element.unsignedBody s).length) := by
    rw [hbody]
    simp only [List.length_append, List.length_cons]
    omega
  rw [Element.encode, hlength, hbody, front]
  simp only [List.cons_append, List.append_assoc]
  rfl

/-- With one first integer, encodings of one length have second integers of one length. -/
theorem length_front_add_lt (r : Bytes) {k m : ℕ} (h : k < m) :
    (front r k).length + k < (front r m).length + m := by
  have hlength := length_encodeLength_mono h.le
  have hbody := length_encodeLength_mono (show (Element.unsigned r).encode.length
    + (1 + (encodeLength k).length + k) ≤ (Element.unsigned r).encode.length
    + (1 + (encodeLength m).length + m) by omega)
  simp only [front, List.length_append, List.length_cons]
  omega

/-- A changed bit between two signatures with one first integer is a bit of the second one. -/
theorem toNat_of_parse_flipBit {d r s t : Bytes} {i j : ℕ} (h : parse d = .ok ⟨r, s⟩)
    (h' : parse (flipBit d i j) = .ok ⟨r, t⟩) (hi : i < d.length) (hj : j < 8) :
    toNat t = toNat s + 2 ^ bitPlace d i j ∨ toNat s = toNat t + 2 ^ bitPlace d i j := by
  have hd := (ofDer?_eq_some_iff.1 (parse_eq_ok_iff.1 h)).1.trans (encode_toElement_eq r s)
  have hflip := (ofDer?_eq_some_iff.1 (parse_eq_ok_iff.1 h')).1.trans (encode_toElement_eq r t)
  -- the whole encodings are of one length, and this length grows with that of the second integer.
  have hlength : (Element.unsignedBody t).length = (Element.unsignedBody s).length := by
    have hequal := length_flipBit d i j
    rw [hflip, hd, List.length_append, List.length_append] at hequal
    rcases lt_trichotomy (Element.unsignedBody t).length (Element.unsignedBody s).length
      with hlt | heq | hgt
    · exact absurd hequal (length_front_add_lt r hlt).ne
    · exact heq
    · exact absurd hequal (length_front_add_lt r hgt).ne'
  have hnumber := congrArg toNat hd
  have hnumber' := congrArg toNat hflip
  rw [toNat_append, Element.toNat_unsignedBody] at hnumber hnumber'
  rw [hlength] at hnumber'
  have hbit := toNat_flipBit hi hj
  rw [hnumber, hnumber'] at hbit
  omega

end EcdsaSignature

/-- If the two second numbers add up to the order of the group, the bit is the last one. -/
theorem Ecdsa.last_bit_of_add_eq_order {d r s t : Bytes} {i j : ℕ}
    (h : EcdsaSignature.parse d = .ok ⟨r, s⟩)
    (h' : EcdsaSignature.parse (flipBit d i j) = .ok ⟨r, t⟩) (hi : i < d.length) (hj : j < 8)
    (hsum : toNat s + toNat t = P256.order) :
    i + 1 = d.length ∧ j = 0 ∧ (toNat t = toNat s + 1 ∨ toNat s = toNat t + 1) := by
  have hbit := EcdsaSignature.toNat_of_parse_flipBit h h' hi hj
  have hodd : P256.order % 2 = 1 := by decide
  -- a greater power of two would make the sum even.
  have hplace : bitPlace d i j = 0 := by
    by_contra hne
    obtain ⟨w, hw⟩ := Nat.exists_eq_succ_of_ne_zero hne
    rw [hw, Nat.succ_eq_add_one, pow_succ] at hbit
    omega
  rw [hplace, pow_zero] at hbit
  unfold bitPlace at hplace
  omega

end Keyring
