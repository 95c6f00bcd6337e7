import Keyring.Bytes
/-!
# The SHA-2 hash functions

SHA-256 and SHA-512 are one algorithm at two word sizes. A `Variant` records what differs: the
number of rounds, the rotation amounts and the width of the length field. The constants of both are
binary digits of roots of the first primes, and are computed as such.
-/

namespace Keyring.Hash

/-- The primes whose roots give the constants. -/
def primes : List Nat :=
  [2, 3, 5, 7, 11, 13, 17, 19, 23, 29, 31, 37, 41, 43, 47, 53, 59, 61, 67, 71, 73, 79, 83, 89, 97,
   101, 103, 107, 109, 113, 127, 131, 137, 139, 149, 151, 157, 163, 167, 173, 179, 181, 191, 193,
   197, 199, 211, 223, 227, 229, 233, 239, 241, 251, 257, 263, 269, 271, 277, 281, 283, 293, 307,
   311, 313, 317, 331, 337, 347, 349, 353, 359, 367, 373, 379, 383, 389, 397, 401, 409]

/-- The number with one more binary digit, if its `k`-th power is then still at most `n`. -/
def raiseRoot (k n r i : Nat) : Nat :=
  if (r + 1 <<< i).pow k ≤ n then r + 1 <<< i else r

/-- The greatest number of so many bits whose `k`-th power is at most `n`: its digits are found from
the highest to the lowest. -/
def floorRoot (k bits n : Nat) : Nat :=
  (List.range bits).reverse.foldl (raiseRoot k n) 0

/-- The first `w` binary digits after the point of the `k`-th root of `n`. -/
def rootFraction (k w n : Nat) : BitVec w :=
  BitVec.ofNat w (floorRoot k (w + 5) (n <<< (k * w)))

/-- What tells the members of the family apart, at words of `w` bits. -/
structure Sha2.Variant (w : Nat) where
  /-- The number of rounds of the compression function. -/
  rounds : Nat
  /-- The rotations that mix the first word of the state. -/
  upper₀ : Nat × Nat × Nat
  /-- The rotations that mix the fifth word of the state. -/
  upper₁ : Nat × Nat × Nat
  /-- Two rotations and a shift, applied to the fifteenth last word of the schedule. -/
  lower₀ : Nat × Nat × Nat
  /-- Two rotations and a shift, applied to the second last word of the schedule. -/
  lower₁ : Nat × Nat × Nat
  /-- The round constants. -/
  constants : List (BitVec w)
  /-- The words of the state before the first block. -/
  start : List (BitVec w)

namespace Sha2

/-- The round constants and the first state, which all variants take from the same roots. -/
def Variant.ofRotations (w rounds : Nat) (upper₀ upper₁ lower₀ lower₁ : Nat × Nat × Nat) :
    Variant w where
  rounds
  upper₀
  upper₁
  lower₀
  lower₁
  constants := (primes.take rounds).map (rootFraction 3 w)
  start := (primes.take 8).map (rootFraction 2 w)

/-- The variant of SHA-256. -/
def sha256 : Variant 32 :=
  .ofRotations 32 64 (2, 13, 22) (6, 11, 25) (7, 18, 3) (17, 19, 10)

/-- The variant of SHA-512. -/
def sha512 : Variant 64 :=
  .ofRotations 64 80 (28, 34, 39) (14, 18, 41) (1, 8, 7) (19, 61, 6)

variable {w : Nat}

/-- The exclusive or of three rotations of a word. -/
def rotations (r : Nat × Nat × Nat) (x : BitVec w) : BitVec w :=
  x.rotateRight r.1 ^^^ x.rotateRight r.2.1 ^^^ x.rotateRight r.2.2

/-- The exclusive or of two rotations and a shift of a word. -/
def rotationsShift (r : Nat × Nat × Nat) (x : BitVec w) : BitVec w :=
  x.rotateRight r.1 ^^^ x.rotateRight r.2.1 ^^^ (x >>> r.2.2)

/-- The schedule with one more word. The latest word comes first. -/
def extend (v : Variant w) (words : List (BitVec w)) : List (BitVec w) :=
  (rotationsShift v.lower₁ (words.getD 1 0) + words.getD 6 0
    + rotationsShift v.lower₀ (words.getD 14 0) + words.getD 15 0) :: words

/-- The words that the rounds consume: those of the block, then the ones computed from the sixteen
before. -/
def schedule (v : Variant w) (block : List (BitVec w)) : List (BitVec w) :=
  (Nat.repeat (extend v) (v.rounds - 16) block.reverse).reverse

/-- The state of the compression function. -/
structure State (w : Nat) where
  (a b c d e f g h : BitVec w)

/-- One round, on the sum of a schedule word and a round constant. -/
def State.round (v : Variant w) (s : State w) (x : BitVec w) : State w :=
  let t₁ := s.h + rotations v.upper₁ s.e + ((s.e &&& s.f) ^^^ (~~~ s.e &&& s.g)) + x
  let t₂ := rotations v.upper₀ s.a + ((s.a &&& s.b) ^^^ (s.a &&& s.c) ^^^ (s.b &&& s.c))
  ⟨t₁ + t₂, s.a, s.b, s.c, s.d + t₁, s.e, s.f, s.g⟩

/-- The state as the list of its words. -/
def State.toList (s : State w) : List (BitVec w) :=
  [s.a, s.b, s.c, s.d, s.e, s.f, s.g, s.h]

/-- The state with the given words; a word that is missing is zero. -/
def State.ofList (words : List (BitVec w)) : State w :=
  ⟨words.getD 0 0, words.getD 1 0, words.getD 2 0, words.getD 3 0,
   words.getD 4 0, words.getD 5 0, words.getD 6 0, words.getD 7 0⟩

/-- The words of the state after one block of the message. -/
def compress (v : Variant w) (words block : List (BitVec w)) : List (BitVec w) :=
  let inputs := List.zipWith (· + ·) (schedule v block) v.constants
  List.zipWith (· + ·) words (inputs.foldl (State.round v) (State.ofList words)).toList

/-- The message with its padding: a bit one, zeros, and the length in bits at the end of the last
block of sixteen words. -/
def pad (w : Nat) (message : Bytes) : Bytes :=
  let block := 2 * w
  let field := w / 4
  let used := (message.length + 1 + field) % block
  message ++ 0x80 :: List.replicate ((block - used) % block) 0
    ++ Bytes.ofNat field (8 * message.length)

/-- The words of a block of bytes. -/
def words (w : Nat) (block : Bytes) : List (BitVec w) :=
  (chunks (w / 8) block).map fun b => BitVec.ofNat w (Bytes.toNat b)

/-- The digest of a message: the words of the last state, as bytes. -/
def digest (v : Variant w) (message : Bytes) : Bytes :=
  let blocks := (chunks (2 * w) (pad w message)).map (words w)
  (blocks.foldl (compress v) v.start).flatMap fun x => Bytes.ofNat (w / 8) x.toNat

end Sha2

/-- The SHA-256 digest, of 32 bytes. -/
def sha256 (message : Bytes) : Bytes :=
  Sha2.digest Sha2.sha256 message

/-- The SHA-512 digest, of 64 bytes. -/
def sha512 (message : Bytes) : Bytes :=
  Sha2.digest Sha2.sha512 message

end Keyring.Hash
