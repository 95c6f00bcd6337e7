import Keyring.Bytes
import Mathlib
/-!
# Byte strings and numbers

The readings and the writings of numbers undo each other. At a fixed width `k` a byte string and a
number below `256 ^ k` determine each other; without a width it is the byte string without leading
zeros that its number determines.
-/

namespace Keyring.Bytes

variable {a b : Bytes} {x : UInt8} {k n : Nat}

/-- A number below 256 is the value of its byte. -/
theorem toNat_byte (h : n < 256) : (UInt8.ofNat n).toNat = n := by
  rw [UInt8.toNat_ofNat', Nat.mod_eq_of_lt h]

/-! ### The number of a byte string -/

@[simp] theorem toNat_nil : toNat [] = 0 := rfl

/-- What has been read so far is shifted by as many bytes as follow. -/
theorem foldl_toNat (b : Bytes) (n : Nat) :
    b.foldl (fun n x => 256 * n + x.toNat) n = n * 256 ^ b.length + toNat b := by
  induction b generalizing n with
  | nil => simp
  | cons x r ih =>
    rw [toNat, List.foldl_cons, List.foldl_cons, ih, ih, List.length_cons]
    ring

/-- Bytes in front count for more, by the length of what follows. -/
theorem toNat_append (a b : Bytes) : toNat (a ++ b) = toNat a * 256 ^ b.length + toNat b := by
  rw [toNat, List.foldl_append, foldl_toNat]
  rfl

/-- The first byte has the highest place. -/
theorem toNat_cons (x : UInt8) (r : Bytes) :
    toNat (x :: r) = x.toNat * 256 ^ r.length + toNat r := by
  rw [← List.singleton_append, toNat_append]
  simp [toNat]

/-- A leading zero adds nothing to the value. -/
@[simp] theorem toNat_zero_cons (b : Bytes) : toNat (0 :: b) = toNat b := by
  rw [toNat_cons, UInt8.toNat_zero, Nat.zero_mul, Nat.zero_add]

/-- The value of a byte string is bounded by its length. -/
theorem toNat_lt (b : Bytes) : toNat b < 256 ^ b.length := by
  induction b with
  | nil => simp
  | cons x r ih =>
    have hx : x.toNat + 1 ≤ 256 := x.toNat_lt
    rw [toNat_cons, List.length_cons, pow_succ]
    calc x.toNat * 256 ^ r.length + toNat r
        < (x.toNat + 1) * 256 ^ r.length := by rw [Nat.add_mul]; omega
      _ ≤ 256 * 256 ^ r.length := Nat.mul_le_mul_right _ hx
      _ = 256 ^ r.length * 256 := Nat.mul_comm _ _

/-- The two readings differ in the order of the bytes only. -/
@[simp] theorem toNatLE_reverse (b : Bytes) : toNatLE b.reverse = toNat b := by
  have append (l : Bytes) (x : UInt8) :
      toNatLE (l ++ [x]) = toNatLE l + x.toNat * 256 ^ l.length := by
    induction l with
    | nil => simp [toNatLE]
    | cons y l ih => rw [List.cons_append, toNatLE, ih, toNatLE, List.length_cons]; ring
  induction b with
  | nil => rfl
  | cons x r ih => rw [List.reverse_cons, append, ih, toNat_cons, List.length_reverse]; ring

/-! ### Fixed widths -/

/-- Writing at a fixed width keeps the low-order part of a number. -/
theorem toNatLE_ofNatLE (k n : Nat) : toNatLE (ofNatLE k n) = n % 256 ^ k := by
  induction k generalizing n with
  | zero => simp [ofNatLE, toNatLE, Nat.mod_one]
  | succ k ih =>
    have hx : (UInt8.ofNat n).toNat = n % 256 := by simp
    -- the low byte and the rest are the two digits of `n % (256 * 256 ^ k)`.
    -- the low byte and the rest are the two digits of `n % (256 * 256 ^ k)`.
    rw [ofNatLE, toNatLE, ih, hx, pow_succ, Nat.mul_comm (256 ^ k), Nat.mod_mul]

/-- Writing a number at a width keeps its low-order bytes. -/
theorem toNat_ofNat (k n : Nat) : toNat (ofNat k n) = n % 256 ^ k := by
  rw [← toNatLE_reverse, ofNat, List.reverse_reverse, toNatLE_ofNatLE]

/-- A number that fits the width is read back. -/
theorem toNat_ofNat_of_lt (h : n < 256 ^ k) : toNat (ofNat k n) = n := by
  rw [toNat_ofNat, Nat.mod_eq_of_lt h]

/-- A byte string is the writing of its value at its own length. -/
theorem ofNatLE_toNatLE (b : Bytes) : ofNatLE b.length (toNatLE b) = b := by
  induction b with
  | nil => rfl
  | cons x r ih =>
    have hx := x.toNat_lt
    have low : UInt8.ofNat (x.toNat + 256 * toNatLE r) = x := by
      apply UInt8.toNat_inj.1
      rw [UInt8.toNat_ofNat']
      omega
    have high : (x.toNat + 256 * toNatLE r) / 256 = toNatLE r := by omega
    rw [List.length_cons, ofNatLE, toNatLE, low, high, ih]

/-- A byte string is the writing of its number at its own width. -/
theorem ofNat_toNat (b : Bytes) : ofNat b.length (toNat b) = b := by
  have h := ofNatLE_toNatLE b.reverse
  rw [List.length_reverse, toNatLE_reverse] at h
  rw [ofNat, h, List.reverse_reverse]

/-! ### The shortest width -/

/-- A number fits a width if and only if it needs no more bytes than that. -/
theorem width_le_iff : width n ≤ k ↔ n < 256 ^ k := by
  have h256 : (256 : Nat) ^ k = 2 ^ (8 * k) := by rw [pow_mul]; norm_num
  rw [width, h256]
  split
  · next h => simp [h]
  · next h => rw [← Nat.log2_lt h]; omega

/-- A number fits into its width. -/
theorem lt_pow_width (n : Nat) : n < 256 ^ width n :=
  width_le_iff.1 le_rfl

/-- A greater number needs at least as many bytes. -/
theorem width_mono {m : Nat} (h : m ≤ n) : width m ≤ width n :=
  width_le_iff.2 (h.trans_lt (lt_pow_width n))

/-- A product needs no more bytes than its factors together. -/
theorem width_mul_le (m n : Nat) : width (m * n) ≤ width m + width n := by
  rw [width_le_iff, pow_add]
  exact Nat.mul_lt_mul'' (lt_pow_width m) (lt_pow_width n)

@[simp] theorem width_zero : width 0 = 0 := rfl

theorem width_pos (h : n ≠ 0) : 0 < width n := by
  simp [width, h]

@[simp] theorem length_ofNatMin (n : Nat) : (ofNatMin n).length = width n :=
  length_ofNat _ _

@[simp] theorem toNat_ofNatMin (n : Nat) : toNat (ofNatMin n) = n :=
  toNat_ofNat_of_lt (lt_pow_width n)

/-- The value of a byte string needs no more bytes than the string has. -/
theorem width_toNat_le (b : Bytes) : width (toNat b) ≤ b.length :=
  width_le_iff.2 (toNat_lt b)

/-- Whether a byte string is free of leading zeros. -/
def IsMinimal (b : Bytes) : Prop := b.head? ≠ some 0

instance (b : Bytes) : Decidable (IsMinimal b) :=
  inferInstanceAs (Decidable (b.head? ≠ some 0))

theorem isMinimal_nil : IsMinimal [] := by simp [IsMinimal]

/-- A number is minimal if its first byte is no zero. -/
theorem isMinimal_cons {r : Bytes} : IsMinimal (x :: r) ↔ x ≠ 0 := by simp [IsMinimal]

/-- A byte string has as few bytes as its number needs if and only if it has no leading zeros. -/
theorem isMinimal_iff_width : IsMinimal b ↔ width (toNat b) = b.length := by
  cases b with
  | nil => simp [IsMinimal]
  | cons x r =>
    have hle := width_toNat_le (x :: r)
    have hr := toNat_lt r
    rw [isMinimal_cons, List.length_cons, toNat_cons] at *
    -- the width falls short of the length only if the first byte adds nothing to the number.
    -- the width falls short of the length only if the first byte adds nothing to the number.
    have key : width (x.toNat * 256 ^ r.length + toNat r) ≤ r.length ↔ x = 0 := by
      rw [width_le_iff, ← UInt8.toNat_inj]
      constructor
      · intro h
        by_contra hx
        have : 1 * 256 ^ r.length ≤ x.toNat * 256 ^ r.length :=
          Nat.mul_le_mul_right _ (Nat.pos_of_ne_zero hx)
        omega
      · intro h
        simpa [h] using hr
    rw [ne_eq, ← key]
    omega

/-- A byte string without a leading zero is the shortest writing of its value. -/
theorem ofNatMin_toNat (h : IsMinimal b) : ofNatMin (toNat b) = b := by
  rw [ofNatMin, isMinimal_iff_width.1 h, ofNat_toNat]

/-- A shortest writing has no leading zero. -/
theorem isMinimal_ofNatMin (n : Nat) : IsMinimal (ofNatMin n) := by
  rw [isMinimal_iff_width, toNat_ofNatMin, length_ofNatMin]

/-! ### Leading zeros -/

/-- Leading zeros do not count. -/
@[simp] theorem toNat_stripZeros (b : Bytes) : toNat (stripZeros b) = toNat b := by
  induction b with
  | nil => rfl
  | cons x r ih =>
    by_cases hx : x = 0
    · subst hx
      rw [stripZeros, List.dropWhile_cons_of_pos (by simp), toNat_cons]
      simpa [stripZeros] using ih
    · rw [stripZeros, List.dropWhile_cons_of_neg (by simpa using hx)]

/-- Nothing is left to strip once it has been done. -/
theorem isMinimal_stripZeros (b : Bytes) : IsMinimal (stripZeros b) := by
  induction b with
  | nil => exact isMinimal_nil
  | cons x r ih =>
    by_cases hx : x = 0
    · rwa [stripZeros, List.dropWhile_cons_of_pos (by simpa using hx)]
    · rw [stripZeros, List.dropWhile_cons_of_neg (by simpa using hx)]
      exact isMinimal_cons.2 hx

/-- Stripping changes nothing exactly if there is nothing to strip. -/
theorem stripZeros_eq_self_iff : stripZeros b = b ↔ IsMinimal b := by
  refine ⟨fun h => h ▸ isMinimal_stripZeros b, fun h => ?_⟩
  cases b with
  | nil => rfl
  | cons x r =>
    rw [stripZeros, List.dropWhile_cons_of_neg (by simpa using isMinimal_cons.1 h)]

@[simp] theorem stripZeros_stripZeros (b : Bytes) : stripZeros (stripZeros b) = stripZeros b :=
  stripZeros_eq_self_iff.2 (isMinimal_stripZeros b)

@[simp] theorem stripZeros_zero_cons (b : Bytes) : stripZeros (0 :: b) = stripZeros b := by
  rw [stripZeros, List.dropWhile_cons_of_pos (by simp), ← stripZeros]

@[simp] theorem stripZeros_ofNatMin (n : Nat) : stripZeros (ofNatMin n) = ofNatMin n :=
  stripZeros_eq_self_iff.2 (isMinimal_ofNatMin n)

/-- Without leading zeros, a longer byte string stands for a greater number. -/
theorem lt_length_iff_of_isMinimal (h : IsMinimal b) : k < b.length ↔ 256 ^ k ≤ toNat b := by
  rw [← isMinimal_iff_width.1 h, ← not_le, width_le_iff, not_lt]

/-- Any number of leading zeros adds nothing to the value. -/
theorem toNat_replicate_zero_append (k : Nat) (b : Bytes) :
    toNat (List.replicate k 0 ++ b) = toNat b := by
  induction k with
  | zero => rfl
  | succ k ih => rw [List.replicate_succ, List.cons_append, toNat_zero_cons, ih]

/-- Only a byte string that is too long cannot be padded. -/
theorem padLeft?_eq_none_iff : padLeft? k b = none ↔ k < b.length := by
  simp [padLeft?]

/-- Padding does not change the value. -/
theorem toNat_of_padLeft? {c : Bytes} (h : padLeft? k b = some c) : toNat c = toNat b := by
  obtain ⟨-, hc⟩ := Option.ite_none_right_eq_some.1 h
  rw [← Option.some.inj hc]
  exact toNat_replicate_zero_append _ b

/-! ### Exclusive or -/

theorem length_xor (a b : Bytes) : (xor a b).length = min a.length b.length := by
  simp [xor]

/-- A mask at least as long as the text comes off when it is put on again. -/
theorem xor_xor_cancel {m : Bytes} (h : a.length ≤ m.length) : xor (xor a m) m = a := by
  induction a generalizing m with
  | nil => simp [xor]
  | cons x a ih =>
    cases m with
    | nil => simp at h
    | cons y m =>
      have htail : xor (xor a m) m = a := ih (by simpa using h)
      have hhead : x ^^^ y ^^^ y = x := by rw [UInt8.xor_assoc, UInt8.xor_self, UInt8.xor_zero]
      simp only [xor, List.zipWith_cons_cons] at htail ⊢
      rw [hhead, htail]

end Keyring.Bytes
