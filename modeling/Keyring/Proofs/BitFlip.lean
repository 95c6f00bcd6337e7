import Keyring.Proofs.Bytes
/-!
# One bit of a byte string

Changing a bit adds a power of two to the number of a byte string or takes it away, and nothing
happens to the bytes in front of it and behind it.
-/

namespace Keyring.Bytes

/-- The byte string with one bit changed. The bits of a byte count from the lowest one. -/
def flipBit (b : Bytes) (i j : ℕ) : Bytes :=
  b.modify i (· ^^^ 1 <<< UInt8.ofNat j)

variable {a b : Bytes} {i j : ℕ}

@[simp] theorem length_flipBit (b : Bytes) (i j : ℕ) : (flipBit b i j).length = b.length :=
  List.length_modify ..

theorem flipBit_append_of_le (h : a.length ≤ i) (b : Bytes) (j : ℕ) :
    flipBit (a ++ b) i j = a ++ flipBit b (i - a.length) j := by
  refine List.ext_getElem? fun k => ?_
  simp only [flipBit, List.getElem?_modify, List.getElem?_append]
  grind

theorem take_flipBit_of_le {k : ℕ} (h : k ≤ i) (b : Bytes) (j : ℕ) :
    (flipBit b i j).take k = b.take k := by
  refine List.ext_getElem? fun m => ?_
  simp only [flipBit]
  grind

theorem drop_flipBit_of_lt {k : ℕ} (h : i < k) (b : Bytes) (j : ℕ) :
    (flipBit b i j).drop k = b.drop k := by
  refine List.ext_getElem? fun m => ?_
  simp only [flipBit]
  grind

/-- In a byte the power of two is that of the bit. -/
theorem toNat_xor_bit (x : UInt8) (hj : j < 8) :
    (x ^^^ 1 <<< UInt8.ofNat j).toNat = x.toNat + 2 ^ j ∨
      x.toNat = (x ^^^ 1 <<< UInt8.ofNat j).toNat + 2 ^ j := by
  have hall : ∀ (x : Fin 256) (j : Fin 8),
      (UInt8.ofFin x ^^^ 1 <<< UInt8.ofNat j).toNat = x.val + 2 ^ j.val ∨
        x.val = (UInt8.ofFin x ^^^ 1 <<< UInt8.ofNat j).toNat + 2 ^ j.val := by
    decide +kernel
  exact hall x.toFin ⟨j, hj⟩

/-- The place of a bit of a byte string, counted from the lowest one. -/
def bitPlace (b : Bytes) (i j : ℕ) : ℕ :=
  8 * (b.length - 1 - i) + j

/-- Flipping a bit adds its place to the number or takes it away. -/
theorem toNat_flipBit (hi : i < b.length) (hj : j < 8) :
    toNat (flipBit b i j) = toNat b + 2 ^ bitPlace b i j ∨
      toNat b = toNat (flipBit b i j) + 2 ^ bitPlace b i j := by
  -- the byte with the bit is singled out, and only it changes.
  obtain ⟨front, x, rest, rfl, rfl⟩ : ∃ front x rest, b = front ++ x :: rest ∧ i = front.length :=
    ⟨b.take i, b[i], b.drop (i + 1), by simp, by simp [hi.le]⟩
  have hflip : flipBit (front ++ x :: rest) front.length j
      = front ++ (x ^^^ 1 <<< UInt8.ofNat j) :: rest := by
    rw [flipBit_append_of_le le_rfl, Nat.sub_self]
    rfl
  have hplace : bitPlace (front ++ x :: rest) front.length j = 8 * rest.length + j := by
    rw [bitPlace, List.length_append, List.length_cons]
    omega
  have hpow : 2 ^ (8 * rest.length + j) = 2 ^ j * 256 ^ rest.length := by
    rw [pow_add, pow_mul, Nat.mul_comm, show (256 : ℕ) = 2 ^ 8 from rfl]
  rw [hflip, hplace, hpow, toNat_append, toNat_append, toNat_cons, toNat_cons, List.length_cons,
    List.length_cons]
  rcases toNat_xor_bit x hj with h | h
  · left
    rw [h]
    ring
  · right
    rw [h]
    ring

theorem toNat_flipBit_ne (hi : i < b.length) (hj : j < 8) : toNat (flipBit b i j) ≠ toNat b := by
  have hpow : 0 < 2 ^ bitPlace b i j := Nat.two_pow_pos _
  rcases toNat_flipBit hi hj with h | h <;> omega

/-- A flipped bit is another text. -/
theorem flipBit_ne (hi : i < b.length) (hj : j < 8) : flipBit b i j ≠ b :=
  fun h => toNat_flipBit_ne hi hj (congrArg toNat h)

/-- Modulo an odd number other than one a changed bit makes a difference. -/
theorem toNat_flipBit_mod_ne {n : ℕ} (hodd : n % 2 = 1) (hn : n ≠ 1) (hi : i < b.length)
    (hj : j < 8) : toNat (flipBit b i j) % n ≠ toNat b % n := by
  intro h
  -- equal residues would make the modulus divide a power of two.
  have hdvd : n ∣ 2 ^ bitPlace b i j := by
    rcases toNat_flipBit hi hj with heq | heq
    · have hmod : toNat b ≡ toNat b + 2 ^ bitPlace b i j [MOD n] := by
        rw [← heq]
        exact h.symm
      simpa using (Nat.modEq_iff_dvd' (Nat.le_add_right _ _)).1 hmod
    · have hmod : toNat (flipBit b i j) ≡ toNat (flipBit b i j) + 2 ^ bitPlace b i j [MOD n] := by
        rw [← heq]
        exact h
      simpa using (Nat.modEq_iff_dvd' (Nat.le_add_right _ _)).1 hmod
  have hcoprime : Nat.Coprime n (2 ^ bitPlace b i j) :=
    (Nat.coprime_two_right.2 (Nat.odd_iff.2 hodd)).pow_right _
  exact hn (hcoprime.eq_one_of_dvd hdvd)

end Keyring.Bytes
