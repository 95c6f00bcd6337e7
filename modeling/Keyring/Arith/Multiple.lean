/-!
# Multiples by doubling

One loop serves every power and every multiple of the library: modular powers and multiples of a
curve point are both `n` copies of an element combined by an associative operation, and the binary
digits of `n` give them in a number of steps that grows with the length of `n` alone.
-/

namespace Keyring.Arith

/-- The number of binary digits of `n`; zero has none. -/
def bitLength (n : Nat) : Nat :=
  if n = 0 then 0 else n.log2 + 1

/-- The binary digits of `n`, most significant first; zero is the empty list. -/
def binary (n : Nat) : List Bool :=
  (List.range (bitLength n)).reverse.map n.testBit

/-- `n` copies of `x` combined by `op`, starting from `unit`: each digit of `n` doubles what has
been gathered so far, and a digit one adds a copy of `x`. -/
def multiple {α : Type} (op : α → α → α) (unit : α) (n : Nat) (x : α) : α :=
  (binary n).foldl (fun acc digit => if digit then op (op acc acc) x else op acc acc) unit

end Keyring.Arith
