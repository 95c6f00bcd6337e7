import Keyring.Cipher.Aes
import Keyring.Cipher.Gcm
import Keyring.Cipher.Variant
import Keyring.Error
/-!
# Authenticated encryption

AES-GCM with checked arguments. The lengths are checked in a fixed order, key, nonce, ciphertext,
and the first that is wrong gives the error. A ciphertext is the masked text followed by the tag.
-/

namespace Keyring.Aead

open Cipher

/-- Fails unless the argument has the expected number of bytes. -/
def checkLength (param : Parameter) (expected actual : Nat) : Except Error Unit :=
  if expected = actual then .ok () else .error (.invalidArgument param expected actual)

/-- The variant whose keys are as long as the given key. -/
def variantOf (key : Bytes) : Except Error CipherVariant :=
  match CipherVariant.ofKeyLength? key.length with
  | some v => .ok v
  | none => .error (.invalidArgument .key (CipherVariant.keyLength .aes256) key.length)

/-- The block cipher of a variant under a key. It takes no key of another length. -/
def blockCipher (v : CipherVariant) (key : Bytes) : Except Error (Block → Block) :=
  if key.length = v.keyLength then .ok (aes key) else .error .cryptoFailure

/-- Encrypts a text with the given variant. -/
def encryptWith (v : CipherVariant) (key nonce text : Bytes) : Except Error Bytes := do
  checkLength .key v.keyLength key.length
  checkLength .nonce Gcm.nonceLength nonce.length
  let cipher ← blockCipher v key
  if Gcm.maxLength < text.length then throw .cryptoFailure
  return Gcm.encrypt cipher nonce text

/-- Decrypts a ciphertext with the given variant. Nothing of the text is returned unless the tag
fits. -/
def decryptWith (v : CipherVariant) (key nonce ciphertext : Bytes) : Except Error Bytes := do
  checkLength .key v.keyLength key.length
  checkLength .nonce Gcm.nonceLength nonce.length
  if ciphertext.length < Gcm.tagLength then
    throw (.invalidArgument .ciphertext Gcm.tagLength ciphertext.length)
  let cipher ← blockCipher v key
  let bodyLength := ciphertext.length - Gcm.tagLength
  if Gcm.maxLength + Gcm.tagLength < bodyLength then throw .verifyFailure
  match Gcm.decrypt? cipher nonce (ciphertext.take bodyLength) (ciphertext.drop bodyLength) with
  | some text => return text
  | none => throw .verifyFailure

/-- Encrypts a text with the variant that the length of the key selects. -/
def encrypt (key nonce text : Bytes) : Except Error Bytes := do
  encryptWith (← variantOf key) key nonce text

/-- Decrypts a ciphertext with the variant that the length of the key selects. -/
def decrypt (key nonce ciphertext : Bytes) : Except Error Bytes := do
  decryptWith (← variantOf key) key nonce ciphertext

end Keyring.Aead
