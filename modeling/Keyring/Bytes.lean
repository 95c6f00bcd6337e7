/-!
# Byte strings

Byte strings are lists, so that every codec is a function by recursion on its data. This module
holds the two readings of a byte string as a number, the writings of a number at a fixed width, and
the few list operations that all codecs share.
-/

namespace Keyring

/-- The first `n` runs of `k` elements; the last of them may be shorter. -/
def runs {α : Type} (k : Nat) : Nat → List α → List (List α)
  | 0, _ => []
  | n + 1, l => l.take k :: runs k n (l.drop k)

/-- The list cut into runs of `k` elements, the last of which may be shorter. -/
def chunks {α : Type} (k : Nat) (l : List α) : List (List α) :=
  runs k ((l.length + k - 1) / k) l

/-- A byte string. -/
abbrev Bytes := List UInt8

namespace Bytes

/-- The number a byte string stands for, most significant byte first. -/
def toNat (b : Bytes) : Nat :=
  b.foldl (fun n x => 256 * n + x.toNat) 0

/-- The number a byte string stands for, least significant byte first. -/
def toNatLE : Bytes → Nat
  | [] => 0
  | x :: r => x.toNat + 256 * toNatLE r

/-- The `k` low-order bytes of `n`, least significant first. -/
def ofNatLE : Nat → Nat → Bytes
  | 0, _ => []
  | k + 1, n => UInt8.ofNat n :: ofNatLE k (n / 256)

/-- The `k` low-order bytes of `n`, most significant first. -/
def ofNat (k n : Nat) : Bytes :=
  (ofNatLE k n).reverse

@[simp] theorem length_ofNatLE (k n : Nat) : (ofNatLE k n).length = k := by
  induction k generalizing n with
  | zero => rfl
  | succ k ih => simp [ofNatLE, ih]

@[simp] theorem length_ofNat (k n : Nat) : (ofNat k n).length = k := by
  simp [ofNat]

/-- The number of bytes that `n` needs; zero needs none. -/
def width (n : Nat) : Nat :=
  if n = 0 then 0 else n.log2 / 8 + 1

/-- The shortest byte string that stands for `n`, most significant byte first. -/
def ofNatMin (n : Nat) : Bytes :=
  ofNat (width n) n

/-- The byte string without its leading zero bytes. -/
def stripZeros (b : Bytes) : Bytes :=
  b.dropWhile (· == 0)

/-- The byte string with zeros in front, so that it has `n` bytes, if it does not have more. -/
def padLeft? (n : Nat) (b : Bytes) : Option Bytes :=
  if b.length ≤ n then some (List.replicate (n - b.length) 0 ++ b) else none

/-- Bytewise exclusive or, as long as the shorter of the two. -/
def xor (a b : Bytes) : Bytes :=
  List.zipWith (· ^^^ ·) a b

/-- A byte string of exactly `n` bytes. -/
abbrev Sized (n : Nat) := { b : Bytes // b.length = n }

/-- The byte string, if it has exactly `n` bytes. -/
def sized? (n : Nat) (b : Bytes) : Option (Sized n) :=
  if h : b.length = n then some ⟨b, h⟩ else none

end Bytes

end Keyring
