import Keyring.Proofs.Der.Element
/-!
# Shortest forms

What the encodings of lengths and integers are, said without the functions that write them: among
all definite forms of a length, and among all two's-complement forms of an integer, the written one
is the shortest.
-/

namespace Keyring.Der

open Bytes

/-! ### Lengths -/

/-- The definite forms of a length: one byte below 128, or the number of the bytes that follow and
these bytes, most significant first. -/
inductive DefiniteLength : Nat → Bytes → Prop
  | short {n : Nat} (h : n < 0x80) : DefiniteLength n [UInt8.ofNat n]
  | long (digits : Bytes) (hpos : 0 < digits.length) (hlt : digits.length < 0x7f) :
      DefiniteLength (toNat digits) (UInt8.ofNat (0x80 + digits.length) :: digits)

/-- The shortest definite form of a length. -/
def ShortestLength (n : Nat) (l : Bytes) : Prop :=
  DefiniteLength n l ∧ ∀ l', DefiniteLength n l' → l.length ≤ l'.length

theorem shortestLength_encodeLength {n : Nat} (h : n ≤ maxLength) :
    ShortestLength n (encodeLength n) := by
  have hw := width_le_four h
  unfold encodeLength
  split
  · next hshort =>
    refine ⟨.short hshort, fun l' hl' => ?_⟩
    cases hl' with
    | short => rfl
    | long digits hpos => rw [List.length_cons]; simp
  · next hlong =>
    have hn : n ≠ 0 := by omega
    constructor
    · have hlong := DefiniteLength.long (ofNatMin n)
        (by rw [length_ofNatMin]; exact width_pos hn) (by rw [length_ofNatMin]; omega)
      rwa [toNat_ofNatMin, length_ofNatMin] at hlong
    · intro l' hl'
      cases hl' with
      | short hshort => exact absurd hshort hlong
      | long digits =>
        -- any digits of the number are as many as it needs, at least.
        -- any digits of the number are as many as it needs, at least.
        have := width_toNat_le digits
        simpa using this

/-! ### Integers -/

/-- The integer that a byte string stands for in two's complement, most significant byte first. -/
def toInt : Bytes → Int
  | [] => 0
  | x :: r => if x < 0x80 then toNat (x :: r) else toNat (x :: r) - 256 ^ (r.length + 1)

/-- The shortest nonempty byte string that stands for a natural number in two's complement. -/
def ShortestInteger (n : Nat) (c : Bytes) : Prop :=
  c ≠ [] ∧ toInt c = n ∧ ∀ c', c' ≠ [] → toInt c' = n → c.length ≤ c'.length

/-- A byte string stands for a natural number in two's complement only if its first bit is zero, so
that one bit less than its length holds the number. -/
theorem toNat_lt_of_toInt {c : Bytes} {n : Nat} (hc : c ≠ []) (h : toInt c = n) :
    n < 0x80 * 256 ^ (c.length - 1) := by
  cases c with
  | nil => exact absurd rfl hc
  | cons x r =>
    have hr := toNat_lt r
    rw [toInt] at h
    split at h
    · next hx =>
      have hx : x.toNat + 1 ≤ 0x80 := UInt8.lt_iff_toNat_lt.1 hx
      obtain rfl : toNat (x :: r) = n := by exact_mod_cast h
      rw [toNat_cons, List.length_cons, Nat.add_sub_cancel]
      calc x.toNat * 256 ^ r.length + toNat r
          < (x.toNat + 1) * 256 ^ r.length := by rw [Nat.add_mul]; omega
        _ ≤ 0x80 * 256 ^ r.length := Nat.mul_le_mul_right _ hx
    · -- with its first bit set the string stands for a negative integer.
      have hlt : (toNat (x :: r) : Int) < 256 ^ (r.length + 1) := by
        exact_mod_cast toNat_lt (x :: r)
      omega

theorem toInt_unsignedBody (b : Bytes) : toInt (Element.unsignedBody b) = toNat b := by
  rw [← toNat_stripZeros b, Element.unsignedBody]
  split
  · next h => rw [h]; rfl
  · next x r h =>
    rw [h]
    split
    · next hx => rw [toInt, if_pos hx]
    · simp [toInt, toNat_cons]

theorem shortestInteger_unsignedBody (b : Bytes) :
    ShortestInteger (toNat b) (Element.unsignedBody b) := by
  refine ⟨Element.unsignedBody_ne_nil b, toInt_unsignedBody b, fun c hc h => ?_⟩
  have hpos : 0 < c.length := List.length_pos_of_ne_nil hc
  have hlt : toNat (stripZeros b) < 0x80 * 256 ^ (c.length - 1) := by
    rw [toNat_stripZeros]
    exact toNat_lt_of_toInt hc h
  have hmin := isMinimal_stripZeros b
  unfold Element.unsignedBody
  split
  · exact hpos
  · next x r hb =>
    rw [hb, toNat_cons] at hlt
    rw [hb, isMinimal_cons] at hmin
    have hx : 0 < x.toNat := Nat.pos_of_ne_zero fun h0 => hmin (UInt8.toNat_inj.1 h0)
    split
    · -- the first byte is not zero, so `256 ^ r.length` is below the bound on the number
      have hpow : 256 ^ r.length < 256 ^ c.length := by
        calc 256 ^ r.length ≤ x.toNat * 256 ^ r.length := Nat.le_mul_of_pos_left _ hx
          _ < 0x80 * 256 ^ (c.length - 1) := by omega
          _ ≤ 256 ^ (c.length - 1) * 256 := by omega
          _ = 256 ^ c.length := by rw [← pow_succ, Nat.sub_add_cancel hpos]
      rw [List.length_cons]
      exact (Nat.pow_lt_pow_iff_right (by norm_num)).1 hpow
    · next hge =>
      -- the first byte is half a byte at least, so a string without the sign byte is too short.
      have hx : 0x80 ≤ x.toNat := Nat.le_of_not_lt fun h => hge (UInt8.lt_iff_toNat_lt.2 h)
      have hpow : 0x80 * 256 ^ r.length < 0x80 * 256 ^ (c.length - 1) :=
        calc 0x80 * 256 ^ r.length ≤ x.toNat * 256 ^ r.length := Nat.mul_le_mul_right _ hx
          _ < 0x80 * 256 ^ (c.length - 1) := by omega
      have hlen : r.length < c.length - 1 :=
        (Nat.pow_lt_pow_iff_right (by norm_num)).1 (Nat.lt_of_mul_lt_mul_left hpow)
      simp only [List.length_cons]
      omega

/-! ### Elements -/

/-- The bytes of an element of one byte of tag: the tag, the shortest form of the length of the
content, and the content. -/
def IsElement (tag : UInt8) (content b : Bytes) : Prop :=
  ∃ l, ShortestLength content.length l ∧ b = tag :: l ++ content

/-- The bytes of an integer element: its content is the shortest form of a natural number. -/
def IsInteger (n : Nat) (b : Bytes) : Prop :=
  ∃ c, ShortestInteger n c ∧ IsElement 0x02 c b

theorem isElement_encode {e : Element} (h : e.encode.length ≤ maxLength) :
    IsElement e.tag.toByte e.body e.encode :=
  ⟨_, shortestLength_encodeLength (e.length_body_le.trans h), rfl⟩

theorem isInteger_encode_unsigned {b : Bytes}
    (h : (Element.unsigned b).encode.length ≤ maxLength) :
    IsInteger (toNat b) (Element.unsigned b).encode :=
  ⟨_, shortestInteger_unsignedBody b, isElement_encode h⟩

end Keyring.Der
