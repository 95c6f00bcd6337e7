import Keyring.Fixed
import Keyring.Session.Run
import Keyring.Proofs.EcdsaSignature
import Keyring.Proofs.Aead
import Keyring.Proofs.Ecdsa
import Keyring.Proofs.Ed25519
import Keyring.Proofs.Key.PrivateText
import Keyring.Proofs.Key.PublicText
import Keyring.Proofs.Hash.Sha2
import Keyring.Proofs.Rsa.Pkcs1v15
import Keyring.Proofs.Rsa.Pss
import Keyring.Proofs.Key.Identity
import Keyring.Proofs.Key.Publication
import Keyring.Proofs.Key.NamedCurve
import Keyring.Proofs.Key.RsaSignature
import Keyring.Proofs.Key.SaltLength
import Keyring.Proofs.Key.BitFlip
import Keyring.Proofs.Key.EcdsaSignature
import Keyring.Proofs.Key.SamePublic
import Keyring.Proofs.Key.RoundTrip
import Keyring.Proofs.Key.ErrorLaw
import Keyring.Proofs.Key.Container
import Keyring.Proofs.Session.Ledger
import Keyring.Proofs.Session.Provenance
import Keyring.Proofs.Session.Secrecy
import Keyring.Proofs.Key.Representative
import Keyring.Proofs.Key.SignatureShape
import Keyring.Proofs.Aead.Arguments
import Keyring.Proofs.Aead.BlockChange
import Keyring.Proofs.Key.DocumentKind
import Keyring.Proofs.Key.Identifier
import Keyring.Proofs.Key.Ed25519Signature
import Keyring.Proofs.Key.TextChange
import Keyring.Proofs.Key.EmbeddedKey
