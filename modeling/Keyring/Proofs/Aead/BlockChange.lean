import Keyring.Proofs.Aead
import Keyring.Proofs.Cipher.Field
/-!
# A change of one block is detected

A masked text that differs from another in one block has another tag, if the hash key is not zero.
Each step of the hash adds a block and multiplies by the hash key, and both can be undone, so the
step that takes in the changed block gives another value, and all steps behind it keep the values
apart. Nothing of this depends on which block it is, and the last one may be a partial one: blocks
of one length have different fillings.

* `DifferInOneBlock` compares two texts block by block, and `lt_of_blockAt_ne` says that the block
  is one of those that are hashed.
* `hash_append_singleton_inj` undoes one step of the hash, and `hash_map_range_ne` is the induction
  over the steps.
* `DetectsBlockChange` states it of a pair of operations, so that each entry point is a case.
-/

namespace Keyring

open Bytes Cipher

/-! ### Blocks of a masked text -/

namespace Cipher

theorem Block.ofBytes_lt {b : Bytes} (h : b.length ≤ blockLength) :
    toNat b <<< (8 * (blockLength - b.length)) < 2 ^ 128 := by
  have hwidth : 8 * b.length + 8 * (blockLength - b.length) = 128 := by
    rw [← Nat.mul_add, Nat.add_sub_cancel' h]
    rfl
  have hbyte : 256 ^ b.length = 2 ^ (8 * b.length) := pow_mul 2 8 b.length ▸ rfl
  calc toNat b <<< (8 * (blockLength - b.length))
      = toNat b * 2 ^ (8 * (blockLength - b.length)) := Nat.shiftLeft_eq _ _
    _ < 256 ^ b.length * 2 ^ (8 * (blockLength - b.length)) :=
        Nat.mul_lt_mul_of_pos_right (toNat_lt b) (Nat.two_pow_pos _)
    _ = 2 ^ 128 := by rw [hbyte, ← pow_add, hwidth]

/-- Byte strings of one length that fit a block are told apart by it. -/
theorem Block.eq_of_ofBytes_eq {a b : Bytes} (hlen : a.length = b.length)
    (hb : b.length ≤ blockLength) (h : Block.ofBytes a = Block.ofBytes b) : a = b := by
  have hnat := congrArg BitVec.toNat h
  simp only [Block.ofBytes, BitVec.toNat_ofNat] at hnat
  rw [Nat.mod_eq_of_lt (Block.ofBytes_lt (hlen ▸ hb)), Nat.mod_eq_of_lt (Block.ofBytes_lt hb), hlen,
    Nat.shiftLeft_eq, Nat.shiftLeft_eq] at hnat
  rw [← ofNat_toNat a, ← ofNat_toNat b, hlen, Nat.eq_of_mul_eq_mul_right (Nat.two_pow_pos _) hnat]

/-- A block is known from its bytes. -/
theorem Block.toBytes_injective : Function.Injective Block.toBytes := by
  intro x y h
  have hx : x.toNat < 256 ^ blockLength := x.isLt
  have hy : y.toNat < 256 ^ blockLength := y.isLt
  have hnat := congrArg toNat h
  rw [Block.toBytes, Block.toBytes, toNat_ofNat_of_lt hx, toNat_ofNat_of_lt hy] at hnat
  exact BitVec.eq_of_toNat_eq hnat

namespace Gcm

/-- The block of a masked text with the given number; the last one may be partial, and those behind
it are empty. -/
def blockAt (body : Bytes) (i : ℕ) : Bytes :=
  (body.drop (blockLength * i)).take blockLength

/-- Whether two masked texts of one length differ in exactly one block. -/
def DifferInOneBlock (body other : Bytes) : Prop :=
  other.length = body.length ∧ ∃! i, blockAt body i ≠ blockAt other i

variable {body other : Bytes}

theorem length_blockAt_le (body : Bytes) (i : ℕ) : (blockAt body i).length ≤ blockLength := by
  rw [blockAt, List.length_take]
  exact Nat.min_le_left _ _

/-- Texts of one length have blocks of the same lengths. -/
theorem length_blockAt_eq (h : other.length = body.length) (i : ℕ) :
    (blockAt body i).length = (blockAt other i).length := by
  simp only [blockAt, List.length_take, List.length_drop, h]

/-- A block behind the end is empty, so blocks that differ are among those that are hashed. -/
theorem lt_of_blockAt_ne (h : other.length = body.length) {i : ℕ}
    (hne : blockAt body i ≠ blockAt other i) : i < (body.length + 16 - 1) / 16 := by
  by_contra hover
  have hend : body.length ≤ blockLength * i := by
    rw [blockLength]
    omega
  refine hne ?_
  rw [blockAt, blockAt, List.drop_of_length_le hend, List.drop_of_length_le (h.trans_le hend)]

/-- What stands in front of a block, and what stands behind it, are the other blocks; only the last
block may be shorter. -/
theorem differInOneBlock_of_parts {front block block' rest : Bytes} {k : ℕ}
    (hfront : front.length = blockLength * k) (hlen : block'.length = block.length)
    (hne : block ≠ block')
    (hblock : block.length = blockLength ∨ block.length ≤ blockLength ∧ rest = []) :
    DifferInOneBlock (front ++ (block ++ rest)) (front ++ (block' ++ rest)) := by
  have hle : block.length ≤ blockLength := hblock.elim Eq.le And.left
  -- the blocks before the changed one lie in the common front.
  have hbefore : ∀ i < k, ∀ l, blockAt (front ++ l) i = blockAt front i := by
    intro i hi l
    have hend : blockLength * i + blockLength ≤ front.length := by
      rw [hfront, ← Nat.mul_succ]
      exact Nat.mul_le_mul_left _ hi
    rw [blockAt, List.drop_append_of_le_length (by omega),
      List.take_append_of_le_length (by rw [List.length_drop]; omega), blockAt]
  -- the changed block is cut out as it is, also where it is the short last one.
  have hat : ∀ b : Bytes, b.length = block.length → blockAt (front ++ (b ++ rest)) k = b := by
    intro b hb
    rw [blockAt, ← hfront, List.drop_left' rfl]
    rcases hblock with hfull | ⟨-, rfl⟩
    · exact List.take_left' (hb.trans hfull)
    · rw [List.append_nil]
      exact List.take_of_length_le (hb.trans_le hle)
  -- behind it both texts have the same rest at the same place.
  have hbehind : ∀ i, k < i → ∀ b : Bytes, b.length = block.length →
      blockAt (front ++ (b ++ rest)) i
        = (rest.drop (blockLength * i - front.length - block.length)).take blockLength := by
    intro i hi b hb
    have hskip : blockLength * k + blockLength ≤ blockLength * i := by
      rw [← Nat.mul_succ]
      exact Nat.mul_le_mul_left _ hi
    rw [blockAt, List.drop_append, List.drop_of_length_le (by omega), List.nil_append,
      List.drop_append, List.drop_of_length_le (by omega), List.nil_append, hb]
  refine ⟨by simp [hlen], k, ?_, fun i hi => ?_⟩
  · show blockAt _ k ≠ blockAt _ k
    rwa [hat block rfl, hat block' hlen]
  · by_contra hik
    refine hi ?_
    rcases Nat.lt_or_gt_of_ne hik with hlt | hgt
    · rw [hbefore i hlt, hbefore i hlt]
    · rw [hbehind i hgt block rfl, hbehind i hgt block' hlen]

/-- The runs of a text are its cuts at the multiples of their length. -/
theorem runs_eq_map (k n : ℕ) (l : Bytes) :
    runs k n l = (List.range n).map fun i => (l.drop (k * i)).take k := by
  induction n generalizing l with
  | zero => rfl
  | succ n ih =>
    rw [runs, ih, List.range_succ_eq_map, List.map_cons, List.map_map]
    congr 1
    refine List.map_congr_left fun i _ => ?_
    rw [Function.comp_apply, List.drop_drop, Nat.mul_succ, Nat.add_comm]

/-- What the tag depends on, block by block. -/
theorem coefficients_eq (body : Bytes) :
    coefficients body
      = (List.range ((body.length + 16 - 1) / 16)).map (fun i => Block.ofBytes (blockAt body i))
        ++ [BitVec.ofNat 128 (8 * body.length)] := by
  rw [coefficients, chunks, runs_eq_map, List.map_map]
  rfl

/-! ### The hash -/

/-- The last block is added and multiplied in. -/
theorem hash_append_singleton (h : Block) (blocks : List Block) (x : Block) :
    hash h (blocks ++ [x]) = fieldMul (hash h blocks ^^^ x) h := by
  rw [hash, List.foldl_append, List.foldl_cons, List.foldl_nil, ← hash]

/-- The blocks that are hashed after a difference keep it. -/
theorem hash_append_singleton_inj {h : Block} (hh : h ≠ 0) {blocks others : List Block}
    {x : Block} :
    hash h (blocks ++ [x]) = hash h (others ++ [x]) ↔ hash h blocks = hash h others := by
  rw [hash_append_singleton, hash_append_singleton, (fieldMul_left_injective hh).eq_iff,
    BitVec.xor_left_inj]

/-- A difference in one block is a difference of the hashes. -/
theorem hash_map_range_ne {h : Block} (hh : h ≠ 0) {f g : ℕ → Block} {i n : ℕ} (hi : i < n)
    (hne : f i ≠ g i) (heq : ∀ j, j ≠ i → f j = g j) :
    hash h ((List.range n).map f) ≠ hash h ((List.range n).map g) := by
  -- induction on the number of blocks: the last one is the one that differs, or differs in nothing.
  induction n with
  | zero => exact absurd hi (Nat.not_lt_zero i)
  | succ n ih =>
    rw [List.range_succ, List.map_append, List.map_append, List.map_singleton, List.map_singleton]
    rcases Nat.lt_succ_iff_lt_or_eq.1 hi with hlt | rfl
    · rw [heq n hlt.ne', ne_eq, hash_append_singleton_inj hh]
      exact ih hlt
    · have hfront : (List.range i).map f = (List.range i).map g :=
        List.map_congr_left fun j hj => heq j (List.mem_range.1 hj).ne
      rw [hash_append_singleton, hash_append_singleton, hfront, ne_eq,
        (fieldMul_left_injective hh).eq_iff, BitVec.xor_right_inj]
      exact hne

/-- A masked text has another tag after a change of one block, unless the hash key is zero. -/
theorem tag_ne_of_differInOneBlock {cipher : Block → Block} (hcipher : cipher 0 ≠ 0)
    (nonce : Bytes) (h : DifferInOneBlock body other) :
    tag cipher nonce body ≠ tag cipher nonce other := by
  obtain ⟨hlen, i, hne, hunique⟩ := h
  have hblock : Block.ofBytes (blockAt body i) ≠ Block.ofBytes (blockAt other i) := fun heq =>
    hne (Block.eq_of_ofBytes_eq (length_blockAt_eq hlen i) (length_blockAt_le other i) heq)
  have hothers : ∀ j, j ≠ i → Block.ofBytes (blockAt body j) = Block.ofBytes (blockAt other j) := by
    intro j hj
    rw [not_not.1 (mt (hunique j) hj)]
  have hhash := hash_map_range_ne hcipher (lt_of_blockAt_ne hlen hne) hblock hothers
  -- the length in bits comes behind all blocks and is the same, and so is the mask of the tag.
  rwa [tag, tag, ne_eq, Block.toBytes_injective.eq_iff, BitVec.xor_left_inj, coefficients_eq,
    coefficients_eq, hlen, hash_append_singleton_inj hcipher]

end Gcm

end Cipher

/-! ### Decryption -/

namespace Aead

variable {v : CipherVariant} {key nonce text body other tag : Bytes}

/-- Two functions of which the second one detects a change of one block: every text within the
limits of the mode is encrypted, and from its masked text with one block changed, whatever the
change, no text is given back. -/
structure DetectsBlockChange (encrypt decrypt : Bytes → Except Error Bytes) : Prop where
  exists_body_tag : ∀ text : Bytes, text.length ≤ maxTextLength →
    ∃ body tag : Bytes, encrypt text = .ok (body ++ tag) ∧ tag.length = Gcm.tagLength
  decrypt_eq : ∀ text body tag other : Bytes, encrypt text = .ok (body ++ tag) →
    tag.length = Gcm.tagLength → Gcm.DifferInOneBlock body other →
    decrypt (other ++ tag) = .error .verifyFailure

/-- A tag that is not the one of the masked text is refused, also where the masked text is too long
for the mode. -/
theorem decryptWith_append_of_ne (hkey : key.length = v.keyLength)
    (hnonce : nonce.length = Gcm.nonceLength) (htag : tag.length = Gcm.tagLength)
    (hne : tag ≠ Gcm.tag (aes key) nonce body) :
    decryptWith v key nonce (body ++ tag) = .error .verifyFailure := by
  have hlen : (body ++ tag).length - Gcm.tagLength = body.length := by
    rw [List.length_append, htag, Nat.add_sub_cancel]
  have hlong : ¬ (body ++ tag).length < Gcm.tagLength := by
    rw [List.length_append, htag]
    exact Nat.not_lt.2 (Nat.le_add_left _ _)
  rw [decryptWith_eq_checked, checked_of_eq _ hkey hnonce, if_neg hlong, opened, hlen,
    List.take_left' rfl, List.drop_left' rfl, Gcm.decrypt?, if_neg hne, ite_self]

/-- The tag behind a masked text that encryption gives is the one that belongs to it. -/
theorem tag_of_encryptWith (h : encryptWith v key nonce text = .ok (body ++ tag))
    (htag : tag.length = Gcm.tagLength) : tag = Gcm.tag (aes key) nonce body := by
  rw [encryptWith_eq_checked, checked_eq_ok_iff] at h
  obtain ⟨-, -, h⟩ := h
  split at h
  · cases h
  · have hparts := List.append_inj' (Except.ok.inj h) (by rw [Gcm.length_tag, htag])
    rw [← hparts.1, ← hparts.2]

/-- A variant detects the change of one block. -/
theorem detectsBlockChange_encryptWith (hkey : key.length = v.keyLength)
    (hnonce : nonce.length = Gcm.nonceLength) (hhash : aes key 0 ≠ 0) :
    DetectsBlockChange (encryptWith v key nonce) (decryptWith v key nonce) where
  exists_body_tag text htext := ⟨_, _, encryptWith_eq hkey hnonce htext, Gcm.length_tag _ _ _⟩
  decrypt_eq text body tag other h htag hdiffer := by
    refine decryptWith_append_of_ne hkey hnonce htag ?_
    rw [tag_of_encryptWith h htag]
    exact Gcm.tag_ne_of_differInOneBlock hhash nonce hdiffer

/-- And so does the cipher that takes the variant from the key. -/
theorem detectsBlockChange_encrypt (hkey : key.length = v.keyLength)
    (hnonce : nonce.length = Gcm.nonceLength) (hhash : aes key 0 ≠ 0) :
    DetectsBlockChange (encrypt key nonce) (decrypt key nonce) := by
  rw [encrypt_eq_encryptWith hkey, decrypt_eq_decryptWith hkey]
  exact detectsBlockChange_encryptWith hkey hnonce hhash

/-- Under every key whose hash key is not zero a change of one block of the masked text is detected,
through whichever entry point. -/
theorem change_of_one_block_detected (key nonce : Bytes) (hnonce : nonce.length = 12)
    (hhash : aes key 0 ≠ 0) :
    (key.length = 16 ∨ key.length = 32 →
      DetectsBlockChange (encrypt key nonce) (decrypt key nonce)) ∧
    (∀ v : CipherVariant, key.length = v.keyLength →
      DetectsBlockChange (encryptWith v key nonce) (decryptWith v key nonce)) ∧
    (key.length = 16 →
      DetectsBlockChange (Fixed.aes128GcmEncrypt key nonce) (Fixed.aes128GcmDecrypt key nonce)) ∧
    (key.length = 32 →
      DetectsBlockChange (Fixed.aes256GcmEncrypt key nonce)
        (Fixed.aes256GcmDecrypt key nonce)) := by
  refine ⟨?_, fun v hkey => detectsBlockChange_encryptWith hkey hnonce hhash, fun hkey => ?_,
    fun hkey => ?_⟩
  -- without a variant the length of the key says which one it is.
  · rintro (hkey | hkey)
    · exact detectsBlockChange_encrypt (v := .aes128) hkey hnonce hhash
    · exact detectsBlockChange_encrypt (v := .aes256) hkey hnonce hhash
  · exact detectsBlockChange_encryptWith (v := .aes128) hkey hnonce hhash
  · exact detectsBlockChange_encryptWith (v := .aes256) hkey hnonce hhash

/-- The last byte of a text of a full block and one byte, masked and changed, under a key of
zeros. -/
theorem change_of_last_byte_detected :
    aes (List.replicate 16 0) 0 ≠ 0 ∧
      ∃ front x tag,
        encrypt (List.replicate 16 0) (List.replicate 12 0) (List.replicate 17 0x61)
          = .ok (front ++ [x] ++ tag) ∧
        front.length = 16 ∧ tag.length = 16 ∧
        decrypt (List.replicate 16 0) (List.replicate 12 0) (front ++ [x ^^^ 1] ++ tag)
          = .error .verifyFailure := by
  have hhash : aes (List.replicate 16 0) 0 ≠ 0 := by decide +kernel
  obtain ⟨hauto, -⟩ := change_of_one_block_detected (List.replicate 16 0) (List.replicate 12 0)
    (by decide) hhash
  have hdetects := hauto (.inl (by decide))
  obtain ⟨body, tag, hencrypt, htag⟩ :=
    hdetects.exists_body_tag (List.replicate 17 0x61) (by decide)
  have hlength : (body ++ tag).length = 17 + 16 := by
    rw [encrypt_eq_encryptWith (v := .aes128) (by decide)] at hencrypt
    exact (lengths_of_encryptWith hencrypt).2
  rw [List.length_append, htag] at hlength
  -- the seventeenth byte is a block of its own.
  obtain ⟨front, x, rfl⟩ : ∃ front x, body = front ++ [x] :=
    List.eq_nil_or_concat' body |>.resolve_left (by rintro rfl; cases hlength)
  have hfront : front.length = 16 := by simpa [Gcm.tagLength] using hlength
  have hne : [x] ≠ [x ^^^ 1] := by
    simp only [ne_eq, List.cons.injEq, and_true]
    intro hx
    have hone : x ^^^ (x ^^^ 1) = x ^^^ x := by rw [← hx]
    rw [← UInt8.xor_assoc, UInt8.xor_self, UInt8.zero_xor] at hone
    cases hone
  have hdiffer : Gcm.DifferInOneBlock (front ++ ([x] ++ [])) (front ++ ([x ^^^ 1] ++ [])) :=
    Gcm.differInOneBlock_of_parts (k := 1) hfront rfl hne (.inr ⟨Nat.le_of_ble_eq_true rfl, rfl⟩)
  exact ⟨hhash, front, x, tag, hencrypt, hfront, htag,
    hdetects.decrypt_eq _ _ _ _ hencrypt htag hdiffer⟩

end Aead

end Keyring
