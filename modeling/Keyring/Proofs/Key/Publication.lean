import Keyring.Proofs.Key.Identity
/-!
# Publishing the public half of a private key

Every private key that is read has a public half that can be written. It is read back with one
exception: a private RSA key may have a modulus of any length, and a public one may not. So the
holder of a longer key can sign with it and cannot hand out its public half as text.
-/

namespace Keyring

open Document Der Text

/-- The numbers of an RSA key whose modulus is too long are written but not read. -/
theorem PublicKey.ofSpki?_toSpkiDer_of_lt {k : Rsa.PublicKey}
    (hlen : (PublicKey.rsa k).toSpkiDer.length ≤ maxLength) (hbits : maxModulusBits < k.bits) :
    ofSpki? (PublicKey.rsa k).toSpkiDer = none := by
  have hder : SubjectPublicKeyInfo.ofDer? (PublicKey.rsa k).toSpkiDer
      = some (PublicKey.rsa k).toSpki := SubjectPublicKeyInfo.ofDer?_eq_some_iff.2 ⟨rfl, hlen⟩
  have hnumbers : RsaPublicNumbers.ofDer? (RsaPublicNumbers.toElement ⟨k.n, k.e⟩).encode
      = some ⟨k.n, k.e⟩ :=
    RsaPublicNumbers.ofDer?_eq_some_iff.2
      ⟨rfl, ((PublicKey.rsa k).toSpki.length_key_le).trans hlen⟩
  rw [ofSpki?, hder, Option.bind_eq_bind, Option.bind_some]
  simp only [toSpki, ofPkcs1?, hnumbers, k.ofNumbers?_numbers, Option.bind_eq_bind,
    Option.bind_some, if_neg (Nat.not_le.2 hbits)]

namespace Key

/-- The text of a public half whose modulus is too long is a parse failure. -/
theorem importPublic_of_not_fitsModulus {key : Key} {text : String}
    (htext : key.exportPublic = .ok text) (h : ¬ key.publicKey.FitsModulus) :
    importPublic text = .error .parseFailure := by
  obtain ⟨hlen, rfl⟩ := exportPublic_eq_ok_iff.1 htext
  obtain ⟨k, hk, hbits⟩ : ∃ k, key.publicKey = .rsa k ∧ PublicKey.maxModulusBits < k.bits := by
    simpa [PublicKey.FitsModulus] using h
  rw [hk] at hlen
  have hdecode := decode?_armour .publicKey (PublicKey.rsa k).toSpki.toElement.encode_ne_nil
  have hread := PublicKey.ofSpki?_toSpkiDer_of_lt hlen hbits
  unfold PublicKey.toSpkiDer at hread
  simp only [importPublic, PublicKey.ofPem?, hk, PublicKey.toSpkiDer, hdecode, hread,
    Option.bind_eq_bind, Option.bind_some]

/-- The public half of a private key that is read is always exported. Its text is read back as this
half, unless the modulus has more than 4096 bits; then it is a parse failure. -/
theorem importPublic_publicPem_of_importPrivate {text : String} {key : Key}
    (h : importPrivate text = .ok key) :
    ∃ published, key.exportPublic = .ok published ∧
      (key.publicKey.FitsModulus → importPublic published = .ok key.toPublic) ∧
      (¬ key.publicKey.FitsModulus → importPublic published = .error .parseFailure) := by
  have hexport := exportPublic_of_length_le (length_toSpkiDer_le_of_importPrivate h)
  have hsound := (Obtainable.importPrivate h).isSound
  exact ⟨_, hexport, importPublic_armour_toSpkiDer hsound, importPublic_of_not_fitsModulus hexport⟩

/-! ### A key that cannot be published -/

/-- A key with a modulus of 4121 bits. -/
def wideKey : Rsa.PrivateKey where
  n := (3541 * 2 ^ 2048 + 1) * (5341 * 2 ^ 2048 + 1)
  e := 3
  d := (3541 * 5341 * 2 ^ 2049 + 1) / 3
  p := 3541 * 2 ^ 2048 + 1
  q := 5341 * 2 ^ 2048 + 1
  n_odd := by decide +kernel
  e_odd := by decide
  three_le_e := by decide
  e_le := by decide
  e_lt_n := by decide +kernel
  one_lt_p := by decide +kernel
  one_lt_q := by decide +kernel
  p_mul_q := rfl
  inverse_p := by decide +kernel
  inverse_q := by decide +kernel

theorem exists_importPrivate_wideKey :
    ∃ text, importPrivate text = .ok (.ofPrivate (.rsa wideKey)) := by
  have hcoprime : Nat.Coprime wideKey.q wideKey.p := by decide +kernel
  have hlen : PrivateKey.FitsDer (.rsa wideKey) := PrivateKey.fitsDer_of_all (by decide +kernel)
  obtain ⟨text, -, hread⟩ := exists_privatePem hlen (PrivateKey.hasDocument_rsa hcoprime)
  exact ⟨text, hread⟩

theorem not_fitsModulus_wideKey : ¬ (ofPrivate (.rsa wideKey)).publicKey.FitsModulus := by
  intro h
  have hbits : wideKey.bits ≤ 4096 := h wideKey.toPublicKey rfl
  have hn : wideKey.n < 2 ^ 4096 := Arith.bitLength_le_iff.1 hbits
  exact absurd hn (by decide +kernel)

/-- The public half of a key with a seed of zeros is exported and read back, and that of the long
key is exported and not read. -/
theorem importPublic_publicPem_zero_wideKey :
    (∃ text published,
      importPrivate text = .ok (.ofPrivate (.ed25519 ⟨List.replicate 32 0, rfl⟩)) ∧
      (ofPrivate (.ed25519 ⟨List.replicate 32 0, rfl⟩)).exportPublic = .ok published ∧
      importPublic published = .ok (ofPrivate (.ed25519 ⟨List.replicate 32 0, rfl⟩)).toPublic) ∧
    ∃ text published, importPrivate text = .ok (.ofPrivate (.rsa wideKey)) ∧
      (ofPrivate (.rsa wideKey)).exportPublic = .ok published ∧
      importPublic published = .error .parseFailure := by
  have hlen : PrivateKey.FitsDer (.ed25519 ⟨List.replicate 32 0, rfl⟩) :=
    PrivateKey.fitsDer_of_ne_rsa (by decide)
  obtain ⟨text, -, hread⟩ := exists_privatePem hlen nofun
  obtain ⟨published, hexport, hfits, -⟩ := importPublic_publicPem_of_importPrivate hread
  obtain ⟨wide, hwide⟩ := exists_importPrivate_wideKey
  obtain ⟨widePublished, hwideExport, -, hrefused⟩ := importPublic_publicPem_of_importPrivate hwide
  exact ⟨⟨text, published, hread, hexport, hfits nofun⟩,
    wide, widePublished, hwide, hwideExport, hrefused not_fitsModulus_wideKey⟩

/-- The long key is read as a private one, signs and exports its public half, but the exported text
is a parse failure. -/
theorem wideKey_not_published :
    ∃ text signature published, importPrivate text = .ok (.ofPrivate (.rsa wideKey)) ∧
      (ofPrivate (.rsa wideKey)).sign .rsaPkcs1Sha256 (drawOfMask 1) [] = .ok signature ∧
      (ofPrivate (.rsa wideKey)).exportPublic = .ok published ∧
      importPublic published = .error .parseFailure := by
  obtain ⟨text, hread⟩ := exists_importPrivate_wideKey
  have hexport := exportPublic_of_length_le (length_toSpkiDer_le_of_importPrivate hread)
  have hsign : (Rsa.Pkcs1v15.sign? wideKey 1 []).isSome = true := by decide +kernel
  obtain ⟨signature, hsignature⟩ := Option.isSome_iff_exists.1 hsign
  refine ⟨text, signature, _, hread, ?_, hexport,
    importPublic_of_not_fitsModulus hexport not_fitsModulus_wideKey⟩
  rw [sign_rsaPkcs1Sha256, drawOfMask, hsignature, primitive]

end Key

end Keyring
