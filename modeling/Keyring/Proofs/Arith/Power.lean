import Keyring.Arith.Modular
import Mathlib
/-!
# Powers by doubling

The loop over the binary digits of a number combines that many copies of an element. It is stated
for the image of a monoid, so that one proof serves numbers modulo `m` and points of a curve.
-/

namespace Keyring.Arith

/-! ### Multiples -/

theorem lt_pow_bitLength (n : ℕ) : n < 2 ^ bitLength n := by
  unfold bitLength
  split
  · next h => simp [h]
  · exact Nat.lt_log2_self

/-- A number of `k` bits is below `2 ^ k`, and no smaller power will do. -/
theorem bitLength_le_iff {n k : ℕ} : bitLength n ≤ k ↔ n < 2 ^ k := by
  unfold bitLength
  split
  · next h => simp [h]
  · next h => rw [← Nat.log2_lt h]; omega

variable {M α : Type} [Monoid M] {f : M → α} {op : α → α → α} {unit : α}

/-- Each digit doubles the exponent gathered so far and adds itself, so after `k` digits of `n` the
exponent has moved `k` places and its low places are those of `n`. -/
theorem foldl_digits (hop : ∀ a b, op (f a) (f b) = f (a * b)) (n k m : ℕ) (a : M) :
    ((List.range k).reverse.map n.testBit).foldl
        (fun acc digit => if digit then op (op acc acc) (f a) else op acc acc) (f (a ^ m))
      = f (a ^ (m * 2 ^ k + n % 2 ^ k)) := by
  induction k generalizing m with
  | zero => simp [Nat.mod_one]
  | succ k ih =>
    rw [List.range_succ, List.reverse_append, List.reverse_singleton, List.singleton_append,
      List.map_cons, List.foldl_cons]
    -- the digit at place `k` comes first, and the exponent takes it in before it moves on.
    -- the digit at place `k` comes first, and the exponent takes it in before it moves on.
    have hmod : n % 2 ^ (k + 1) = (n.testBit k).toNat * 2 ^ k + n % 2 ^ k := by
      rw [Nat.toNat_testBit, Nat.mod_pow_succ]
      ring
    cases hbit : n.testBit k with
    | false =>
      rw [if_neg (by decide), hop, ← pow_add, ih, hmod, hbit]
      congr 2
      simp only [Bool.toNat_false]
      ring
    | true =>
      rw [if_pos rfl, hop, hop, ← pow_add, ← pow_succ, ih, hmod, hbit]
      congr 2
      simp only [Bool.toNat_true]
      ring

/-- Through a map that takes products to the operation, the loop computes a power. -/
theorem multiple_map (hop : ∀ a b, op (f a) (f b) = f (a * b)) (hunit : f 1 = unit) (n : ℕ)
    (a : M) : multiple op unit n (f a) = f (a ^ n) := by
  have h := foldl_digits hop n (bitLength n) 0 a
  rw [pow_zero, hunit, Nat.zero_mul, Nat.zero_add, Nat.mod_eq_of_lt (lt_pow_bitLength n)] at h
  exact h

/-- A map to a monoid that takes the operation to products takes the loop to a power. -/
theorem map_multiple {g : α → M} (hop : ∀ a b, g (op a b) = g a * g b) (hunit : g unit = 1) (n : ℕ)
    (a : α) : g (multiple op unit n a) = g a ^ n := by
  have hpow : multiple (fun x y : M => x * y) 1 n (g a) = g a ^ n :=
    multiple_map (f := id) (fun _ _ => rfl) rfl n (g a)
  rw [← hpow, multiple, multiple, ← hunit]
  refine (List.foldl_hom g fun acc digit => ?_).symm
  cases digit <;> simp [hop]

/-! ### Powers modulo a number -/

theorem powMod_eq (m a e : ℕ) : powMod m a e = a ^ e % m :=
  multiple_map (f := fun x : ℕ => x % m) (fun x y => (Nat.mul_mod x y m).symm) rfl e a

theorem powMod_lt {m : ℕ} (hm : 0 < m) (a e : ℕ) : powMod m a e < m := by
  rw [powMod_eq]
  exact Nat.mod_lt _ hm

theorem cast_powMod (m a e : ℕ) : (powMod m a e : ZMod m) = (a : ZMod m) ^ e := by
  rw [powMod_eq, ZMod.natCast_mod, Nat.cast_pow]

end Keyring.Arith
