import Keyring.Hash.Sha2
import Keyring.Proofs.Bytes
/-!
# Lengths of digests

A digest is as long as the eight words of the state, whatever the message: a block changes the
words and not their number. Paddings are laid out by this length.
-/

namespace Keyring.Hash

namespace Sha2

variable {w : ℕ} (v : Variant w)

theorem length_compress {words : List (BitVec w)} (block : List (BitVec w))
    (h : words.length = 8) : (compress v words block).length = 8 := by
  show (List.zipWith _ words (State.toList _)).length = 8
  rw [List.length_zipWith, h]
  rfl

theorem length_foldl_compress {words : List (BitVec w)} (blocks : List (List (BitVec w)))
    (h : words.length = 8) : (blocks.foldl (compress v) words).length = 8 := by
  induction blocks generalizing words with
  | nil => exact h
  | cons block blocks ih => exact ih (length_compress v block h)

theorem length_digest (h : v.start.length = 8) (message : Bytes) :
    (digest v message).length = 8 * (w / 8) := by
  have hstate := length_foldl_compress v ((chunks (2 * w) (pad w message)).map (words w)) h
  unfold digest
  rw [List.length_flatMap, List.map_congr_left fun x _ => Bytes.length_ofNat (w / 8) x.toNat,
    List.map_const', List.sum_replicate, hstate, smul_eq_mul]

end Sha2

@[simp] theorem length_sha256 (message : Bytes) : (sha256 message).length = 32 :=
  Sha2.length_digest Sha2.sha256 (List.length_map _) message

end Keyring.Hash
