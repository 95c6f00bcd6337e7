import Keyring.EcdsaSignature
import Keyring.Proofs.Der.Shortest
/-!
# Encoded signatures and pairs of integers

Reading accepts exactly what writing produces from integers without leading zeros, and writing
produces the canonical form of a sequence of two integers. The one byte string for which the two
functions do not correspond is the empty one: it is what writing answers when a signature is too
long to be a document, and no signature is read from it.
-/

namespace Keyring.EcdsaSignature

open Bytes Der

/-! ### Reading -/

/-- A signature is read from its one encoding, and its numbers are minimal. -/
theorem ofDer?_eq_some_iff {der : Bytes} {sig : EcdsaSignature} :
    ofDer? der = some sig ↔
      der = sig.toElement.encode ∧ der.length ≤ maxLength ∧ IsMinimal sig.r ∧ IsMinimal sig.s := by
  simp only [ofDer?, Option.bind_eq_bind, Option.bind_eq_some_iff,
    Element.sequenceOfBytes?_eq_some_iff]
  constructor
  · rintro ⟨es, ⟨rfl, hmax⟩, h⟩
    -- the sequence has to have exactly two elements.
    split at h
    · next e₁ e₂ =>
      simp only [Option.bind_eq_some_iff, Element.unsigned?_eq_some_iff, Option.some.injEq] at h
      obtain ⟨r, ⟨rfl, hr⟩, s, ⟨rfl, hs⟩, rfl⟩ := h
      exact ⟨rfl, hmax, hr, hs⟩
    · simp at h
  · rintro ⟨rfl, hmax, hr, hs⟩
    refine ⟨_, ⟨rfl, hmax⟩, ?_⟩
    simp [Element.unsigned?_eq_some_iff.2 ⟨rfl, hr⟩, Element.unsigned?_eq_some_iff.2 ⟨rfl, hs⟩]

/-- What is parsed is what the document says. -/
theorem parse_eq_ok_iff {der : Bytes} {sig : EcdsaSignature} :
    parse der = .ok sig ↔ ofDer? der = some sig := by
  unfold parse
  split <;> simp_all

/-- Parsing fails in one way. -/
theorem parse_eq_ok_or_parseFailure (der : Bytes) :
    (∃ sig, parse der = .ok sig) ∨ parse der = .error .parseFailure := by
  unfold parse
  split <;> simp

/-! ### Writing -/

/-- Whether a signature is short enough to be a document. -/
def HasEncoding (sig : EcdsaSignature) : Prop :=
  sig.toElement.encode.length ≤ maxLength

/-- The length that is worked out in advance is that of the encoding. -/
theorem encodedLength_eq (sig : EcdsaSignature) :
    sig.encodedLength = sig.toElement.encode.length := by
  have hbody : sig.toElement.body.length
      = (Element.unsigned sig.r).encode.length + (Element.unsigned sig.s).encode.length := by
    show (Element.encodeAll [.unsigned sig.r, .unsigned sig.s]).length = _
    rw [Element.encodeAll_cons, Element.encodeAll_cons, Element.encodeAll_nil, List.append_nil,
      List.length_append]
  rw [Element.length_encode, hbody, Element.length_encode, Element.length_encode]
  rfl

/-- A signature that is short enough is written as its element. -/
theorem encode_of_hasEncoding {sig : EcdsaSignature} (h : sig.HasEncoding) :
    sig.encode = .ok sig.toElement.encode :=
  if_pos (sig.encodedLength_eq.trans_le h)

/-- Writing fails for a signature that is too long. -/
theorem encode_of_not_hasEncoding {sig : EcdsaSignature} (h : ¬ sig.HasEncoding) :
    sig.encode = .error .encodeFailure :=
  if_neg fun hle => h (sig.encodedLength_eq.symm.trans_le hle)

/-- A signature that is not too large is written as a document. -/
theorem toDer_of_hasEncoding {sig : EcdsaSignature} (h : sig.HasEncoding) :
    sig.toDer = sig.toElement.encode := by
  rw [toDer, encode_of_hasEncoding h]

/-- The empty answer stands for a failure to write, and for nothing else. -/
theorem toDer_eq_nil_iff {sig : EcdsaSignature} : sig.toDer = [] ↔ ¬ sig.HasEncoding := by
  by_cases h : sig.HasEncoding
  · exact iff_of_false (toDer_of_hasEncoding h ▸ Element.encode_ne_nil _) (not_not_intro h)
  · exact iff_of_true (by rw [toDer, encode_of_not_hasEncoding h]) h

/-- What is written is never empty. -/
theorem ne_nil_of_encode {sig : EcdsaSignature} {der : Bytes} (h : sig.encode = .ok der) :
    der ≠ [] := by
  unfold encode at h
  split at h
  · exact Except.ok.inj h ▸ Element.encode_ne_nil _
  · cases h

/-- Leading zeros do not count. -/
theorem toElement_stripZeros (r s : Bytes) :
    toElement ⟨stripZeros r, stripZeros s⟩ = toElement ⟨r, s⟩ := by
  simp only [toElement, Element.unsigned_stripZeros]

theorem hasEncoding_stripZeros_iff {r s : Bytes} :
    HasEncoding ⟨stripZeros r, stripZeros s⟩ ↔ HasEncoding ⟨r, s⟩ := by
  rw [HasEncoding, HasEncoding, toElement_stripZeros]

/-- Leading zeros have no part in the document. -/
theorem toDer_stripZeros (r s : Bytes) : toDer ⟨stripZeros r, stripZeros s⟩ = toDer ⟨r, s⟩ := by
  by_cases h : HasEncoding ⟨r, s⟩
  · rw [toDer_of_hasEncoding h, toDer_of_hasEncoding (hasEncoding_stripZeros_iff.2 h),
      toElement_stripZeros]
  · rw [toDer_eq_nil_iff.2 h, toDer_eq_nil_iff.2 (mt hasEncoding_stripZeros_iff.1 h)]

/-- The integers of a signature that has an encoding are together shorter than the limit. -/
theorem length_add_length_lt_of_hasEncoding {r s : Bytes} (h : HasEncoding ⟨r, s⟩) :
    (stripZeros r).length + (stripZeros s).length < maxLength := by
  have hr := Element.length_stripZeros_le r
  have hs := Element.length_stripZeros_le s
  rw [HasEncoding, ← encodedLength_eq] at h
  simp only [encodedLength, framedLength] at h
  omega

theorem isMinimal_replicate_one (n : ℕ) : IsMinimal (List.replicate n 1) := by
  cases n with
  | zero => exact isMinimal_nil
  | succ n =>
    rw [List.replicate_succ]
    exact isMinimal_cons.2 (by decide)

/-- Integers without a zero byte that together reach the limit have no encoding. -/
theorem not_hasEncoding_replicate_one {m n : ℕ} (h : maxLength ≤ m + n) :
    ¬ HasEncoding ⟨List.replicate m 1, List.replicate n 1⟩ := by
  intro hencoding
  have hlt := length_add_length_lt_of_hasEncoding hencoding
  rw [stripZeros_eq_self_iff.2 (isMinimal_replicate_one m),
    stripZeros_eq_self_iff.2 (isMinimal_replicate_one n), List.length_replicate,
    List.length_replicate] at hlt
  exact absurd hlt (Nat.not_lt.2 h)

/-- Zeros have an encoding, however many of them there are. -/
theorem hasEncoding_replicate_zero (m n : ℕ) :
    HasEncoding ⟨List.replicate m 0, List.replicate n 0⟩ := by
  have hstrip : ∀ k, stripZeros (List.replicate k 0) = [] := by
    intro k
    simp [stripZeros]
  rw [← hasEncoding_stripZeros_iff, hstrip, hstrip]
  unfold HasEncoding
  decide

/-- The encoding is a sequence of two integers in their canonical forms. -/
theorem isElement_toDer {r s : Bytes} (h : HasEncoding ⟨r, s⟩) :
    ∃ r' s', IsInteger (toNat r) r' ∧ IsInteger (toNat s) s' ∧
      IsElement 0x30 (r' ++ s') (toDer ⟨r, s⟩) := by
  have hparts : ∀ e ∈ [Element.unsigned r, Element.unsigned s], e.encode.length ≤ maxLength :=
    fun e he => (Element.length_encode_le he).trans ((Element.length_body_le _).trans h)
  refine ⟨_, _, isInteger_encode_unsigned (hparts _ (by simp)),
    isInteger_encode_unsigned (hparts _ (by simp)), ?_⟩
  rw [toDer_of_hasEncoding h]
  simpa [toElement, Element.sequence, Element.constructed, Tag.toByte] using isElement_encode h

/-! ### The two together -/

/-- Reading gives two integers if and only if they have no leading zeros and are written as what was
read. -/
theorem parse_eq_ok_iff_toDer {d r s : Bytes} :
    parse d = .ok ⟨r, s⟩ ↔ d ≠ [] ∧ IsMinimal r ∧ IsMinimal s ∧ d = toDer ⟨r, s⟩ := by
  rw [parse_eq_ok_iff, ofDer?_eq_some_iff]
  constructor
  · rintro ⟨rfl, hmax, hr, hs⟩
    exact ⟨Element.encode_ne_nil _, hr, hs, (toDer_of_hasEncoding hmax).symm⟩
  · rintro ⟨hne, hr, hs, rfl⟩
    -- the empty answer stands for a signature that is too long, and it is excluded.
    -- the empty answer stands for a signature that is too long, and it is excluded.
    have henc : HasEncoding ⟨r, s⟩ := by
      by_contra h
      exact hne (toDer_eq_nil_iff.2 h)
    rw [toDer_of_hasEncoding henc]
    exact ⟨rfl, henc, hr, hs⟩

/-- Whether a byte string is the encoding of two integers, given by their shortest bytes. -/
def IsCanonical (d : Bytes) : Prop :=
  ∃ r s, d ≠ [] ∧ IsMinimal r ∧ IsMinimal s ∧ d = toDer ⟨r, s⟩

/-- Reading has one error, and it says that there is no canonical encoding. -/
theorem parse_eq_error_iff {d : Bytes} {e : Error} :
    parse d = .error e ↔ e = .parseFailure ∧ ¬ IsCanonical d := by
  rcases parse_eq_ok_or_parseFailure d with ⟨⟨r, s⟩, h⟩ | h
  · have hcanonical : IsCanonical d := ⟨r, s, parse_eq_ok_iff_toDer.1 h⟩
    rw [h]
    exact iff_of_false nofun fun hnot => hnot.2 hcanonical
  · have hnot : ¬ IsCanonical d := by
      rintro ⟨r, s, hd⟩
      rw [parse_eq_ok_iff_toDer.2 hd] at h
      cases h
    rw [h, Except.error.injEq, eq_comm]
    exact (and_iff_left hnot).symm

/-- What is written is read back without its leading zeros. -/
theorem parse_toDer_of_hasEncoding {r s : Bytes} (h : HasEncoding ⟨r, s⟩) :
    parse (toDer ⟨r, s⟩) = .ok ⟨stripZeros r, stripZeros s⟩ := by
  rw [parse_eq_ok_iff_toDer, toDer_stripZeros]
  exact ⟨fun hnil => toDer_eq_nil_iff.1 hnil h, isMinimal_stripZeros r, isMinimal_stripZeros s, rfl⟩

/-- Numbers of at most 32 bytes are written with all lengths in one byte, so that the signature
takes six bytes beside the bodies of its two integers. -/
theorem length_encode_ofNatMin {r s : ℕ} (hr : width r ≤ 32) (hs : width s ≤ 32) :
    (toElement ⟨ofNatMin r, ofNatMin s⟩).encode.length
      = (Element.nat r).body.length + (Element.nat s).body.length + 6 := by
  have hr' := Element.length_nat_body_le r
  have hs' := Element.length_nat_body_le s
  have hbody : (toElement ⟨ofNatMin r, ofNatMin s⟩).body.length
      = (Element.nat r).body.length + (Element.nat s).body.length + 4 := by
    show (Element.encodeAll [Element.nat r, Element.nat s]).length = _
    simp only [Element.encodeAll_cons, Element.encodeAll_nil, List.length_append, List.length_nil]
    rw [Element.length_encode_of_lt (by omega), Element.length_encode_of_lt (by omega)]
    omega
  rw [Element.length_encode_of_lt (by omega), hbody]

/-- Numbers of at most 32 bytes have an encoding of at most 72. -/
theorem length_encode_ofNatMin_le {r s : ℕ} (hr : width r ≤ 32) (hs : width s ≤ 32) :
    (toElement ⟨ofNatMin r, ofNatMin s⟩).encode.length ≤ maxP256Length := by
  have hr' := Element.length_nat_body_le r
  have hs' := Element.length_nat_body_le s
  rw [length_encode_ofNatMin hr hs]
  show _ ≤ 72
  omega

/-- Numbers of 32 bytes are not too large. -/
theorem hasEncoding_ofNatMin {r s : ℕ} (hr : width r ≤ 32) (hs : width s ≤ 32) :
    HasEncoding ⟨ofNatMin r, ofNatMin s⟩ :=
  (length_encode_ofNatMin_le hr hs).trans (by decide)

/-- Numbers of at most 32 bytes are read back as their shortest writings. -/
theorem parse_toDer_ofNatMin {r s : ℕ} (hr : width r ≤ 32) (hs : width s ≤ 32) :
    parse (toDer ⟨ofNatMin r, ofNatMin s⟩) = .ok ⟨ofNatMin r, ofNatMin s⟩ := by
  rw [parse_toDer_of_hasEncoding (hasEncoding_ofNatMin hr hs), stripZeros_ofNatMin,
    stripZeros_ofNatMin]

/-- The encoding depends on the two numbers alone. -/
theorem toDer_ofNatMin_toNat (r s : Bytes) :
    toDer ⟨ofNatMin (toNat r), ofNatMin (toNat s)⟩ = toDer ⟨r, s⟩ := by
  rw [← toDer_stripZeros r s, ← toNat_stripZeros r, ← toNat_stripZeros s,
    ofNatMin_toNat (isMinimal_stripZeros r), ofNatMin_toNat (isMinimal_stripZeros s)]

/-- However many leading zeros they are given with, two numbers of 256 bits have an encoding, and it
is not longer than any room that is made for it. -/
theorem length_toDer_of_lt {r s : Bytes} (hr : toNat r < 2 ^ 256) (hs : toNat s < 2 ^ 256) :
    8 ≤ (toDer ⟨r, s⟩).length ∧ (toDer ⟨r, s⟩).length ≤ maxP256Length := by
  have hr' : width (toNat r) ≤ 32 := width_le_iff.2 (hr.trans_le (by norm_num))
  have hs' : width (toNat s) ≤ 32 := width_le_iff.2 (hs.trans_le (by norm_num))
  rw [← toDer_ofNatMin_toNat, toDer_of_hasEncoding (hasEncoding_ofNatMin hr' hs')]
  refine ⟨?_, length_encode_ofNatMin_le hr' hs'⟩
  have hrpos := Element.length_nat_body_pos (toNat r)
  have hspos := Element.length_nat_body_pos (toNat s)
  rw [length_encode_ofNatMin hr' hs']
  omega

/-- No shorter room would do for every two numbers. -/
example : (toDer ⟨List.replicate 32 0xff, List.replicate 32 0xff⟩).length = maxP256Length := by
  decide +kernel

/-- The codec is exact. A byte string other than the empty one is read as the two integers without
leading zeros that are written as it, and any other is a parse failure. What has an encoding is read
back without its leading zeros, and the encoding is the canonical form of a sequence of the two
integers. -/
theorem parse_toDer_exact :
    (∀ d r s : Bytes,
      parse d = .ok ⟨r, s⟩ ↔ d ≠ [] ∧ IsMinimal r ∧ IsMinimal s ∧ d = toDer ⟨r, s⟩) ∧
    (∀ d : Bytes,
      (∃ r s, d ≠ [] ∧ IsMinimal r ∧ IsMinimal s ∧ d = toDer ⟨r, s⟩)
        ∨ parse d = .error .parseFailure) ∧
    (∀ r s : Bytes, HasEncoding ⟨r, s⟩ →
      parse (toDer ⟨r, s⟩) = .ok ⟨stripZeros r, stripZeros s⟩ ∧
      ∃ r' s', IsInteger (toNat r) r' ∧ IsInteger (toNat s) s' ∧
        IsElement 0x30 (r' ++ s') (toDer ⟨r, s⟩)) := by
  refine ⟨fun d r s => parse_eq_ok_iff_toDer, fun d => ?_, fun r s h => ?_⟩
  · rcases parse_eq_ok_or_parseFailure d with ⟨⟨r, s⟩, h⟩ | h
    · exact .inl ⟨r, s, parse_eq_ok_iff_toDer.1 h⟩
    · exact .inr h
  · exact ⟨parse_toDer_of_hasEncoding h, isElement_toDer h⟩

/-- An integer with leading zeros and a first bit, beside zero written as nothing. -/
theorem parse_toDer_exact_sign_byte :
    HasEncoding ⟨[0x00, 0x00, 0x80], []⟩ ∧
    toDer ⟨[0x00, 0x00, 0x80], []⟩ = [0x30, 0x07, 0x02, 0x02, 0x00, 0x80, 0x02, 0x01, 0x00] ∧
    parse [0x30, 0x07, 0x02, 0x02, 0x00, 0x80, 0x02, 0x01, 0x00] = .ok ⟨[0x80], []⟩ := by
  have h : HasEncoding ⟨[0x00, 0x00, 0x80], []⟩ := by unfold HasEncoding; decide
  have hder : toDer ⟨[0x00, 0x00, 0x80], []⟩
      = [0x30, 0x07, 0x02, 0x02, 0x00, 0x80, 0x02, 0x01, 0x00] := by decide
  refine ⟨h, hder, ?_⟩
  rw [← hder]
  exact (parse_toDer_exact.2.2 _ _ h).1

/-- Without the exception for the empty byte string the correspondence fails: an integer as long as
the limit has no encoding, so the empty byte string is written for it and is not read as it. -/
theorem parse_nil_ne_of_toDer_eq_nil :
    ¬ (parse [] = .ok ⟨List.replicate maxLength 1, []⟩ ↔
      IsMinimal (List.replicate maxLength 1) ∧ IsMinimal [] ∧
        [] = toDer ⟨List.replicate maxLength 1, []⟩) := by
  have hmin := isMinimal_replicate_one maxLength
  -- the content alone is as long as the limit, which leaves no room for its tag.
  have hlong := not_hasEncoding_replicate_one (m := maxLength) (n := 0) le_rfl
  have hnil : toDer ⟨List.replicate maxLength 1, []⟩ = [] := toDer_eq_nil_iff.2 hlong
  intro h
  exact (parse_eq_ok_iff_toDer.1 (h.2 ⟨hmin, isMinimal_nil, hnil.symm⟩)).1 rfl

end Keyring.EcdsaSignature
