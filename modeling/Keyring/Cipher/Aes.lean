import Keyring.Arith.Multiple
import Keyring.Cipher.Block
/-!
# The AES block cipher

Encryption of one block under a key of 16 or 32 bytes. The state is a square of four by four bytes,
stored column by column. The substitution table is computed from its definition: inversion in the
field of 256 elements, then an affine map on the bits.
-/

namespace Keyring.Cipher.Aes

/-! ### The field of 256 elements -/

/-- Multiplication by the indeterminate, modulo `x ^ 8 + x ^ 4 + x ^ 3 + x + 1`. -/
def double (a : UInt8) : UInt8 :=
  if a &&& 0x80 = 0 then a <<< 1 else (a <<< 1) ^^^ 0x1b

/-- Multiplication in the field: the bits of `b` are taken from the most significant one. -/
def fieldMul (a b : UInt8) : UInt8 :=
  (List.range 8).foldr
    (fun i acc => if b.toNat.testBit i then double acc ^^^ a else double acc) 0

/-- The inverse in the field, and zero for zero. Every other element has an order that divides 255,
so its power 254 is its inverse. -/
def fieldInv (a : UInt8) : UInt8 :=
  Arith.multiple fieldMul 1 254 a

/-- The byte with its bits moved `k` places to the left, around the end. -/
def rotate (k : UInt8) (a : UInt8) : UInt8 :=
  (a <<< k) ||| (a >>> (8 - k))

/-- The substitution table. -/
def substitution : Vector UInt8 256 :=
  Vector.ofFn fun i =>
    let a := fieldInv (UInt8.ofNat i)
    a ^^^ rotate 1 a ^^^ rotate 2 a ^^^ rotate 3 a ^^^ rotate 4 a ^^^ 0x63

/-- The byte that replaces `a`. -/
def substitute (a : UInt8) : UInt8 :=
  substitution[a.toFin]

/-! ### The key schedule -/

/-- The words of the key schedule with one more word, when the key has `n` words and `i` words are
there. The latest word comes first. -/
def extend (n i : Nat) (words : List Bytes) : List Bytes :=
  let last := words.getD 0 []
  let mixed :=
    if i % n = 0 then
      let rotated := (last.drop 1 ++ last.take 1).map substitute
      Bytes.xor rotated [Nat.repeat double (i / n - 1) 1, 0, 0, 0]
    else if 6 < n ∧ i % n = 4 then last.map substitute
    else last
  Bytes.xor (words.getD (n - 1) []) mixed :: words

/-- The number of rounds under a key of `n` words. -/
def rounds (n : Nat) : Nat := n + 6

/-- The state of a cipher run, and likewise the key of a round. -/
abbrev State := Vector UInt8 16

/-- The state with the given bytes. -/
def State.ofBytes (b : Bytes) : State :=
  Vector.ofFn fun i => b.getD i 0

/-- The keys of all rounds, one more than there are rounds. -/
def roundKeys (key : Bytes) : List State :=
  let n := key.length / 4
  let first := (chunks 4 key).reverse
  let total := 4 * (rounds n + 1)
  let words := (List.range' n (total - n)).foldl (fun words i => extend n i words) first
  (chunks 16 words.reverse.flatten).map State.ofBytes

/-! ### The rounds -/

/-- Bytewise exclusive or. -/
def State.add (s t : State) : State :=
  Vector.zipWith (· ^^^ ·) s t

/-- Substitutes every byte and moves row `r` by `r` places to the left: position `4 c + r` takes the
byte of column `c + r`, which stands five places further for each column. -/
def State.substituteShift (s : State) : State :=
  Vector.ofFn fun i => substitute s[5 * i.val % 16]

/-- Multiplies every column by the fixed matrix with the rows `2 3 1 1`, `1 2 3 1`, and so on. -/
def State.mixColumns (s : State) : State :=
  Vector.ofFn fun i =>
    let cell (k : Nat) : UInt8 := s[(4 * (i.val / 4) + (i.val + k) % 4) % 16]
    double (cell 0) ^^^ double (cell 1) ^^^ cell 1 ^^^ cell 2 ^^^ cell 3

/-- The state after the rounds whose keys are given; the last round does not mix the columns. -/
def run : List State → State → State
  | [], s => s
  | [k], s => s.substituteShift.add k
  | k :: keys, s => run keys (s.substituteShift.mixColumns.add k)

/-- The encryption of a block under the given round keys. -/
def encryptWith (keys : List State) (x : Block) : Block :=
  match keys with
  | [] => x
  | k :: keys => Block.ofBytes (run keys ((State.ofBytes x.toBytes).add k)).toList

end Aes

/-- The AES block cipher under a key of 16 or 32 bytes. -/
def aes (key : Bytes) : Block → Block :=
  let keys := Aes.roundKeys key
  fun x => Aes.encryptWith keys x

end Keyring.Cipher
