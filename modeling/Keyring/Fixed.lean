import Keyring.Aead
import Keyring.Key.Signature
import Keyring.Key.Text
/-!
# Operations under fixed names

The operations of the library with the scheme or the variant fixed by the name, so that each can be
registered on its own with an environment that embeds the library.
-/

namespace Keyring.Fixed

/-- A new Ed25519 key. -/
def generateEd25519 (draw : Draw) : Except Error Key := Key.generate draw

/-- The private key that a text holds. -/
def importPrivatePem (text : String) : Except Error Key := Key.importPrivate text

/-- The public key that a text holds. -/
def importPublicPem (text : String) : Except Error Key := Key.importPublic text

/-- Signs with Ed25519. -/
def ed25519Sign (key : Key) (draw : Draw) (message : Bytes) : Except Error Bytes :=
  key.sign .ed25519 draw message

/-- Verifies an Ed25519 signature. -/
def ed25519Verify (key : Key) (message signature : Bytes) : Except Error Verdict :=
  key.verify .ed25519 message signature

/-- Signs with RSA and the padding that has no salt. -/
def rsaPkcs1Sha256Sign (key : Key) (draw : Draw) (message : Bytes) : Except Error Bytes :=
  key.sign .rsaPkcs1Sha256 draw message

/-- Verifies an RSA signature whose padding has no salt. -/
def rsaPkcs1Sha256Verify (key : Key) (message signature : Bytes) : Except Error Verdict :=
  key.verify .rsaPkcs1Sha256 message signature

/-- Signs with RSA and a salt. -/
def rsaPssSha256Sign (key : Key) (draw : Draw) (message : Bytes) : Except Error Bytes :=
  key.sign .rsaPssSha256 draw message

/-- Verifies an RSA signature with a salt. -/
def rsaPssSha256Verify (key : Key) (message signature : Bytes) : Except Error Verdict :=
  key.verify .rsaPssSha256 message signature

/-- Signs with ECDSA on P-256. -/
def ecdsaSha256Sign (key : Key) (draw : Draw) (message : Bytes) : Except Error Bytes :=
  key.sign .ecdsaP256Sha256 draw message

/-- Verifies an ECDSA signature on P-256. -/
def ecdsaSha256Verify (key : Key) (message signature : Bytes) : Except Error Verdict :=
  key.verify .ecdsaP256Sha256 message signature

/-- Encrypts under a key of 16 bytes. -/
def aes128GcmEncrypt (key nonce text : Bytes) : Except Error Bytes :=
  Aead.encryptWith .aes128 key nonce text

/-- Encrypts under a key of 32 bytes. -/
def aes256GcmEncrypt (key nonce text : Bytes) : Except Error Bytes :=
  Aead.encryptWith .aes256 key nonce text

/-- Decrypts under a key of 16 bytes. -/
def aes128GcmDecrypt (key nonce ciphertext : Bytes) : Except Error Bytes :=
  Aead.decryptWith .aes128 key nonce ciphertext

/-- Decrypts under a key of 32 bytes. -/
def aes256GcmDecrypt (key nonce ciphertext : Bytes) : Except Error Bytes :=
  Aead.decryptWith .aes256 key nonce ciphertext

/-- Reads an encoded ECDSA signature. -/
def parseEcdsaSignature (der : Bytes) : Except Error EcdsaSignature :=
  EcdsaSignature.parse der

/-- Encodes the two integers of an ECDSA signature. -/
def buildEcdsaSignature (r s : Bytes) : Bytes :=
  EcdsaSignature.toDer ⟨r, s⟩

end Keyring.Fixed
