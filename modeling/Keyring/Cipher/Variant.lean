/-!
# Variants of the cipher

The two key sizes of the authenticated cipher, and their names.
-/

namespace Keyring

/-- The variant of the authenticated cipher, told apart by its key size. -/
inductive CipherVariant where
  | aes128
  | aes256
deriving DecidableEq, Repr

namespace CipherVariant

/-- The number of bytes of a key. -/
def keyLength : CipherVariant → Nat
  | .aes128 => 16
  | .aes256 => 32

/-- The variant whose keys have `n` bytes. -/
def ofKeyLength? (n : Nat) : Option CipherVariant :=
  if n = keyLength .aes128 then some .aes128
  else if n = keyLength .aes256 then some .aes256
  else none

/-- The name of the cipher, as it stands in events. -/
def name : CipherVariant → String
  | .aes128 => "aes-128-gcm"
  | .aes256 => "aes-256-gcm"

/-- The name of the variant in descriptions for debugging. -/
def debugName : CipherVariant → String
  | .aes128 => "Aes128"
  | .aes256 => "Aes256"

theorem ofKeyLength?_eq_some_iff {n : Nat} {v : CipherVariant} :
    ofKeyLength? n = some v ↔ n = v.keyLength := by
  by_cases h₁ : n = 16 <;> by_cases h₂ : n = 32 <;> cases v <;>
    simp_all [ofKeyLength?, keyLength]

end CipherVariant

end Keyring
