import Keyring.Proofs.Bytes
import Keyring.Proofs.Hash.Sha2
import Keyring.Rsa.Pss
/-!
# Messages encoded with a salt

Taking the mask off an encoded message gives back the block that was masked, the bits of its first
byte included that do not fit, since there are only zeros in their places. So the checks of an
encoded message pass for salts of a length exactly if it is the encoding with one of them, and that
salt is the only one.

* `saltBlock` and `maskedBlock` name what an encoding consists of, and `encode?_eq_some_iff` says
  that it does.
* `clearExcess_xor_clearExcess_xor` is why unmasking gives the block back although some bits of it
  were cleared.
* `exists_eq_saltBlock` reads the salt off a block that passes the checks.
-/

namespace Keyring.Rsa.Pss

open Bytes

/-! ### Masks -/

/-- A mask has the length that is asked for. -/
@[simp] theorem length_mask (seed : Bytes) (n : ℕ) : (mask seed n).length = n := by
  let blocks := (n + hashLength - 1) / hashLength
  have hblocks : ((List.range blocks).flatMap
      fun i => Hash.sha256 (seed ++ ofNat 4 i)).length = blocks * 32 := by
    rw [List.length_flatMap, List.map_congr_left fun i _ => Hash.length_sha256 (seed ++ ofNat 4 i),
      List.map_const', List.sum_replicate, List.length_range, smul_eq_mul]
  have hle : n ≤ blocks * 32 := by
    show n ≤ (n + 32 - 1) / 32 * 32
    omega
  show (List.take n _).length = n
  rw [List.length_take, hblocks, Nat.min_eq_left hle]

@[simp] theorem length_clearExcess (bits : ℕ) (b : Bytes) :
    (clearExcess bits b).length = b.length := by
  cases b <;> rfl

/-- Less than a byte is cleared. -/
theorem excess_lt (bits : ℕ) : 8 * encodedLength bits - bits < 8 := by
  unfold encodedLength
  omega

/-- The excess bits are cleared once. -/
@[simp] theorem clearExcess_clearExcess (bits : ℕ) (b : Bytes) :
    clearExcess bits (clearExcess bits b) = clearExcess bits b := by
  cases b with
  | nil => rfl
  | cons x b => simp only [clearExcess, UInt8.and_assoc, UInt8.and_self]

/-- On the bits that are kept, a byte comes back when it is masked twice. -/
theorem and_xor_and_xor (x y c : UInt8) : ((x ^^^ y) &&& c ^^^ y) &&& c = x &&& c := by
  apply UInt8.toNat_inj.1
  simp only [UInt8.toNat_and, UInt8.toNat_xor, Nat.and_xor_distrib_right, Nat.and_assoc,
    Nat.and_self, Nat.xor_assoc, Nat.xor_self, Nat.xor_zero]

/-- The mask comes off a block whose excess bits were cleared, if they are cleared once more. -/
theorem clearExcess_xor_clearExcess_xor (bits : ℕ) {block m : Bytes}
    (hlength : block.length ≤ m.length) :
    clearExcess bits (Bytes.xor (clearExcess bits (Bytes.xor block m)) m)
      = clearExcess bits block := by
  -- only the first byte is cleared, so the rest unmasks as it is.
  cases block with
  | nil => rfl
  | cons x block =>
    cases m with
    | nil => simp at hlength
    | cons y m =>
      have hrest : Bytes.xor (Bytes.xor block m) m = block :=
        xor_xor_cancel (by simpa using hlength)
      show (_ &&& _) :: Bytes.xor (Bytes.xor block m) m = (_ &&& _) :: block
      rw [hrest, and_xor_and_xor]

/-- A byte whose first bits are cleared is below the power of two that is left. -/
theorem toNat_and_lt {s : ℕ} (hs : s < 8) (b : UInt8) :
    (b &&& 0xff >>> UInt8.ofNat s).toNat < 2 ^ (8 - s) := by
  have hmask : ((0xff : UInt8) >>> UInt8.ofNat s).toNat < 2 ^ (8 - s) := by
    interval_cases s <;> decide
  rw [UInt8.toNat_and]
  exact lt_of_le_of_lt Nat.and_le_right hmask

/-- With its excess bits cleared, an encoded message is a number of the given bits. -/
theorem toNat_clearExcess_lt {bits : ℕ} {b : Bytes} (rest : Bytes) (hb : b ≠ [])
    (hlength : (b ++ rest).length = encodedLength bits) :
    toNat (clearExcess bits b ++ rest) < 2 ^ bits := by
  obtain ⟨x, b, rfl⟩ := List.exists_cons_of_ne_nil hb
  -- the bits are those that the first byte keeps and eight for each other byte.
  have hbits : bits = 8 - (8 * encodedLength bits - bits) + 8 * (b ++ rest).length := by
    rw [List.cons_append, List.length_cons] at hlength
    unfold encodedLength at hlength ⊢
    omega
  have hfirst := toNat_and_lt (excess_lt bits) x
  have hrest := toNat_lt (b ++ rest)
  show toNat (_ :: (b ++ rest)) < 2 ^ bits
  rw [toNat_cons]
  generalize (x &&& 0xff >>> UInt8.ofNat (8 * encodedLength bits - bits)).toNat = first at hfirst ⊢
  calc first * 256 ^ (b ++ rest).length + toNat (b ++ rest)
      < (first + 1) * 256 ^ (b ++ rest).length := by rw [Nat.add_mul]; omega
    _ ≤ 2 ^ (8 - (8 * encodedLength bits - bits)) * 256 ^ (b ++ rest).length :=
        Nat.mul_le_mul_right _ hfirst
    _ = 2 ^ bits := by
        rw [show (256 : ℕ) = 2 ^ 8 from rfl, ← pow_mul, ← pow_add, ← hbits]

/-! ### Encoded messages -/

variable {bits : ℕ} {message salt encoded : Bytes}

/-- The zeros, the one and the salt that are masked in an encoded message of `n` bytes. -/
def saltBlock (n : ℕ) (salt : Bytes) : Bytes :=
  List.replicate (n - salt.length - hashLength - 2) 0 ++ 1 :: salt

/-- The salt block, masked by the hash. -/
def maskedBlock (bits : ℕ) (hash salt : Bytes) : Bytes :=
  clearExcess bits (Bytes.xor (saltBlock (encodedLength bits) salt) (mask hash
    (saltBlock (encodedLength bits) salt).length))

/-- An encoding exists exactly if the salt fits, and is then the masked block, the hash and the
trailer. -/
theorem encode?_eq_some_iff :
    encode? bits message salt = some encoded ↔ 34 + salt.length ≤ encodedLength bits ∧
      encoded = maskedBlock bits (saltedHash (Hash.sha256 message) salt) salt
        ++ (saltedHash (Hash.sha256 message) salt ++ [0xbc]) := by
  show (if encodedLength bits < 32 + salt.length + 2 then none else some _) = some encoded ↔ _
  rw [Option.ite_none_left_eq_some, Option.some_inj, eq_comm (a := encoded), List.append_assoc]
  refine and_congr_left fun _ => ?_
  omega

theorem length_saltedHash (digest salt : Bytes) : (saltedHash digest salt).length = 32 :=
  Hash.length_sha256 _

/-- The block before masking takes what the hash and the trailer leave. -/
theorem length_saltBlock {n : ℕ} (h : 34 + salt.length ≤ n) :
    (saltBlock n salt).length = n - 33 := by
  show (List.replicate (n - salt.length - 32 - 2) 0 ++ 1 :: salt).length = n - 33
  simp only [List.length_append, List.length_replicate, List.length_cons]
  omega

theorem length_maskedBlock (hash : Bytes) (h : 34 + salt.length ≤ encodedLength bits) :
    (maskedBlock bits hash salt).length = encodedLength bits - 33 := by
  rw [maskedBlock, length_clearExcess, length_xor, length_mask, Nat.min_self, length_saltBlock h]

/-- An encoded message has the length that the modulus asks for. -/
theorem length_of_encode? (h : encode? bits message salt = some encoded) :
    encoded.length = encodedLength bits := by
  obtain ⟨hlength, rfl⟩ := encode?_eq_some_iff.1 h
  rw [List.length_append, List.length_append, length_maskedBlock _ hlength, length_saltedHash,
    List.length_singleton]
  omega

/-- An encoded message has no more bits than were asked for. -/
theorem toNat_lt_of_encode? (h : encode? bits message salt = some encoded) :
    toNat encoded < 2 ^ bits := by
  have hencoded := length_of_encode? h
  obtain ⟨hlength, rfl⟩ := encode?_eq_some_iff.1 h
  have hblock := length_maskedBlock (saltedHash (Hash.sha256 message) salt) hlength
  unfold maskedBlock at hblock hencoded ⊢
  rw [length_clearExcess] at hblock
  refine toNat_clearExcess_lt _ ?_ ?_
  · rw [← List.length_pos_iff_ne_nil, hblock]
    omega
  · rwa [List.length_append, length_clearExcess, ← List.length_append] at hencoded

/-! ### The salt block -/

/-- No bit of a salt block is cleared: where its first byte is the one, that has the lowest bit. -/
@[simp] theorem clearExcess_saltBlock (bits n : ℕ) (salt : Bytes) :
    clearExcess bits (saltBlock n salt) = saltBlock n salt := by
  -- the one that ends the zeros survives even if it stands in the first byte.
  have hlow : (1 : UInt8) &&& 0xff >>> UInt8.ofNat (8 * encodedLength bits - bits) = 1 := by
    have hexcess := excess_lt bits
    generalize 8 * encodedLength bits - bits = s at hexcess
    interval_cases s <;> decide
  unfold saltBlock
  cases n - salt.length - hashLength - 2 with
  | zero =>
    show (1 &&& _) :: salt = 1 :: salt
    rw [hlow]
  | succ j =>
    show (0 &&& _) :: (List.replicate j 0 ++ 1 :: salt) = 0 :: (List.replicate j 0 ++ 1 :: salt)
    rw [UInt8.zero_and]

/-- The salt begins behind the first byte that is not zero. -/
theorem stripZeros_saltBlock (n : ℕ) (salt : Bytes) :
    stripZeros (saltBlock n salt) = 1 :: salt := by
  have hone : stripZeros (1 :: salt) = 1 :: salt :=
    stripZeros_eq_self_iff.2 (isMinimal_cons.2 (by decide))
  unfold saltBlock
  induction n - salt.length - hashLength - 2 with
  | zero => exact hone
  | succ j ih => rw [List.replicate_succ, List.cons_append, stripZeros_zero_cons, ih]

section Places

variable (n : ℕ) (salt : Bytes)

/-- The block before masking starts with its zeros. -/
theorem take_saltBlock : (saltBlock n salt).take (n - salt.length - hashLength - 2)
    = List.replicate (n - salt.length - hashLength - 2) 0 :=
  List.take_left' (List.length_replicate ..)

/-- The zeros end in a one. -/
theorem getElem?_saltBlock : (saltBlock n salt)[n - salt.length - hashLength - 2]? = some 1 := by
  rw [saltBlock, List.getElem?_append_right (List.length_replicate ..).le, List.length_replicate,
    Nat.sub_self]
  rfl

/-- What follows the one is the salt. -/
theorem drop_saltBlock :
    (saltBlock n salt).drop (n - salt.length - hashLength - 2 + 1) = salt := by
  rw [saltBlock, ← List.singleton_append, ← List.append_assoc]
  exact List.drop_left' (by simp)

end Places

/-- Zeros up to a place, a one there and `k` bytes behind it make up a salt block. -/
theorem exists_eq_saltBlock {n k : ℕ} {block : Bytes} (hlength : block.length = n - 33)
    (hroom : 34 + k ≤ n) (hzeros : (block.take (n - k - 34)).all (· == 0) = true)
    (hone : block[n - k - 34]? = some 1) :
    ∃ salt : Bytes, salt.length = k ∧ block = saltBlock n salt := by
  -- zeros, a one and the rest are the whole block.
  have htake : block.take (n - k - 34) = List.replicate (n - k - 34) 0 := by
    refine List.eq_replicate_iff.2 ⟨?_, fun x hx => eq_of_beq (List.all_eq_true.1 hzeros x hx)⟩
    rw [List.length_take, hlength]
    omega
  have hdrop : block.drop (n - k - 34) = 1 :: block.drop (n - k - 34 + 1) := by
    obtain ⟨hlt, hget⟩ := List.getElem?_eq_some_iff.1 hone
    rw [List.drop_eq_getElem_cons hlt, hget]
  have hsalt : (block.drop (n - k - 34 + 1)).length = k := by
    rw [List.length_drop, hlength]
    omega
  refine ⟨_, hsalt, ?_⟩
  unfold saltBlock
  rw [hsalt, show n - k - hashLength - 2 = n - k - 34 from rfl, ← htake, ← hdrop,
    List.take_append_drop]

/-! ### The parts of an encoded message -/

section Parts

variable {masked hash : Bytes} (hhash : hash.length = 32) (last : UInt8)

include hhash

theorem length_append_hash : (masked ++ (hash ++ [last])).length = masked.length + 33 := by
  simp only [List.length_append, List.length_singleton, hhash]

/-- The masked block is read off an encoded message. -/
theorem maskedOf_append : maskedOf (masked ++ (hash ++ [last])) = masked := by
  unfold maskedOf
  rw [length_append_hash hhash]
  exact List.take_left' rfl

/-- The hash is read off an encoded message. -/
theorem hashOf_append : hashOf (masked ++ (hash ++ [last])) = hash := by
  have hlength : masked.length + 33 - hashLength - 1 = masked.length := rfl
  unfold hashOf
  rw [length_append_hash hhash, hlength, List.drop_left' rfl]
  exact List.take_left' hhash

/-- The block is unmasked with the hash beside it. -/
theorem blockOf_append (bits : ℕ) : blockOf bits (masked ++ (hash ++ [last]))
    = clearExcess bits (Bytes.xor masked (mask hash masked.length)) := by
  simp only [blockOf, maskedOf_append hhash, hashOf_append hhash]

end Parts

/-- What has room for a hash in front of its last byte has the three parts. -/
theorem exists_eq_append {last : UInt8} (hlength : 33 ≤ encoded.length)
    (hlast : encoded.getLast? = some last) :
    ∃ masked hash : Bytes, hash.length = 32 ∧ encoded = masked ++ (hash ++ [last]) := by
  obtain ⟨front, rfl⟩ := List.getLast?_eq_some_iff.1 hlast
  rw [List.length_append, List.length_singleton] at hlength
  refine ⟨front.take (front.length - 32), front.drop (front.length - 32), ?_, ?_⟩
  · rw [List.length_drop]
    omega
  · rw [← List.append_assoc, List.take_append_drop]

/-- Without its mask, an encoded message shows the block that was masked. -/
theorem blockOf_of_encode? (h : encode? bits message salt = some encoded) :
    blockOf bits encoded = saltBlock (encodedLength bits) salt := by
  obtain ⟨hlength, rfl⟩ := encode?_eq_some_iff.1 h
  rw [blockOf_append (length_saltedHash _ _), length_maskedBlock _ hlength, maskedBlock,
    length_saltBlock hlength, clearExcess_xor_clearExcess_xor, clearExcess_saltBlock]
  rw [length_mask, length_saltBlock hlength]

/-- An encoded message is the encoding with one salt only. -/
theorem salt_eq_of_encode? {message' salt' : Bytes} (h : encode? bits message salt = some encoded)
    (h' : encode? bits message' salt' = some encoded) : salt = salt' := by
  have hblock : saltBlock (encodedLength bits) salt = saltBlock (encodedLength bits) salt' :=
    (blockOf_of_encode? h).symm.trans (blockOf_of_encode? h')
  have hstrip := congrArg stripZeros hblock
  rw [stripZeros_saltBlock, stripZeros_saltBlock] at hstrip
  exact (List.cons.inj hstrip).2

/-- An encoded message passes the checks for a salt of `k` bytes exactly if it is the encoding with
one. -/
theorem isEncoding_eq_true_iff {k : ℕ} (hencoded : encoded.length = encodedLength bits) :
    isEncoding bits message encoded k = true ↔
      ∃ salt : Bytes, salt.length = k ∧ encode? bits message salt = some encoded := by
  simp only [isEncoding, Bool.and_eq_true, decide_eq_true_eq, and_assoc]
  constructor
  · rintro ⟨hfits, hlast, hclear, hzeros, hone, hhash⟩
    have hroom : 34 + k ≤ encodedLength bits := by
      have : 32 + k + 2 ≤ encoded.length := hfits
      omega
    obtain ⟨masked, hash, hlength, rfl⟩ := exists_eq_append (by omega) hlast
    have hmasked : masked.length = encodedLength bits - 33 := by
      rw [length_append_hash hlength] at hencoded
      omega
    rw [maskedOf_append hlength] at hclear
    rw [hencoded, blockOf_append hlength] at hzeros hone hhash
    rw [hashOf_append hlength] at hhash
    have hblock : (clearExcess bits (Bytes.xor masked (mask hash masked.length))).length
        = encodedLength bits - 33 := by
      rw [length_clearExcess, length_xor, length_mask, Nat.min_self, hmasked]
    obtain ⟨salt, rfl, hsalt⟩ := exists_eq_saltBlock hblock hroom hzeros hone
    rw [hsalt, drop_saltBlock] at hhash
    -- the block that was found, masked and cleared again, is what was unmasked and was clear.
    have hagain : maskedBlock bits hash salt = masked := by
      rw [maskedBlock, length_saltBlock hroom, ← hmasked, ← hsalt,
        clearExcess_xor_clearExcess_xor bits (by rw [length_mask]), hclear]
    exact ⟨salt, rfl, encode?_eq_some_iff.2 ⟨hroom, by rw [hhash, hagain]⟩⟩
  · rintro ⟨salt, rfl, h⟩
    have hblock := blockOf_of_encode? h
    obtain ⟨hroom, rfl⟩ := encode?_eq_some_iff.1 h
    rw [hencoded, hblock, maskedOf_append (length_saltedHash _ _),
      hashOf_append (length_saltedHash _ _), take_saltBlock, getElem?_saltBlock, drop_saltBlock]
    refine ⟨?_, ?_, clearExcess_clearExcess _ _, ?_, rfl, rfl⟩
    · show 32 + salt.length + 2 ≤ encodedLength bits
      omega
    · rw [← List.append_assoc, List.getLast?_concat]
    · simp

end Keyring.Rsa.Pss
