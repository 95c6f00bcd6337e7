import Keyring.Document.Pkcs1
import Keyring.Document.Pkcs8
import Keyring.Document.Sec1
import Keyring.Document.Spki
import Keyring.Proofs.Der.Element
/-!
# Documents and their bytes

Documents that hold numbers, and public keys, have one encoding each: a byte string is read as such
a document if and only if it is its encoding. Private keys may come with attributes and extensions
that are skipped, so for them one direction holds: what was written is read back.
-/

namespace Keyring

open Bytes Der

/-! ### Algorithm identifiers -/

namespace AlgorithmIdentifier

variable {id : AlgorithmIdentifier} {a : Algorithm}

/-- An identifier is read from no element but its own. -/
theorem eq_toElement_of_ofElement? {e : Element} (h : ofElement? e = some id) :
    e = id.toElement := by
  simp only [ofElement?, Option.bind_eq_bind, Option.bind_eq_some_iff,
    Element.parts?_eq_some_iff] at h
  obtain ⟨es, ⟨rfl, -⟩, h⟩ := h
  split at h <;> simp only [Option.ite_none_right_eq_some, Option.some.injEq, reduceCtorEq] at h
  all_goals
    obtain ⟨-, rfl⟩ := h
    rfl

/-- The object identifier and the parameters that go with an algorithm are those of its
identifier. -/
theorem toElement_of_detect? (hdetect : id.detect? = some a)
    (hparameters : id.parameters = a.parameters) : id.toElement = a.identifier := by
  obtain ⟨oid, parameters⟩ := id
  subst hparameters
  simp only [detect?] at hdetect
  split_ifs at hdetect with hoid hoid hoid
  all_goals
    obtain rfl := Option.some.inj hdetect
    obtain rfl : oid = _ := hoid
    rfl

end AlgorithmIdentifier

/-- The one identifier of an algorithm is the one that is read as it. -/
theorem Algorithm.ofIdentifier?_eq_some_iff {e : Element} {a : Algorithm} :
    ofIdentifier? e = some a ↔ e = a.identifier := by
  constructor
  · intro h
    simp only [ofIdentifier?, Option.bind_eq_bind, Option.bind_eq_some_iff,
      Option.ite_none_right_eq_some, Option.some.injEq] at h
    obtain ⟨id, hread, b, hdetect, hparameters, rfl⟩ := h
    rw [AlgorithmIdentifier.eq_toElement_of_ofElement? hread,
      AlgorithmIdentifier.toElement_of_detect? hdetect hparameters]
  · rintro rfl
    cases a <;> decide

/-- The identifier tells the algorithm. -/
theorem Algorithm.identifier_injective : Function.Injective Algorithm.identifier := by
  intro a b
  cases a <;> cases b <;> decide

theorem Algorithm.length_identifier_le (a : Algorithm) : a.identifier.encode.length ≤ 21 := by
  cases a <;> decide

namespace Document

/-! ### RSA keys as numbers -/

/-- The numbers of a public RSA key are read from their one encoding. -/
theorem RsaPublicNumbers.ofDer?_eq_some_iff {der : Bytes} {k : RsaPublicNumbers} :
    ofDer? der = some k ↔ der = k.toElement.encode ∧ der.length ≤ maxLength := by
  simp only [ofDer?, Option.bind_eq_bind, Option.bind_eq_some_iff,
    Element.sequenceOfBytes?_eq_some_iff]
  constructor
  · rintro ⟨es, ⟨rfl, hmax⟩, h⟩
    -- the sequence has to have exactly two elements.
    split at h
    · next e₁ e₂ =>
      simp only [Option.bind_eq_some_iff, Element.nat?_eq_some_iff, Option.some.injEq] at h
      obtain ⟨n, rfl, e, rfl, rfl⟩ := h
      exact ⟨rfl, hmax⟩
    · simp at h
  · rintro ⟨rfl, hmax⟩
    refine ⟨_, ⟨rfl, hmax⟩, ?_⟩
    simp [Element.nat?_eq_some_iff.2 rfl]

/-- A row of elements is a row of natural numbers if and only if it is their writing. -/
theorem mapM_nat?_eq_some_iff {es : List Element} {ns : List Nat} :
    es.mapM Element.nat? = some ns ↔ es = ns.map Element.nat := by
  -- element by element, with the list of numbers split in step.
  induction es generalizing ns with
  | nil => cases ns <;> simp
  | cons e es ih =>
    simp only [List.mapM_cons, Option.bind_eq_bind, Option.bind_eq_some_iff,
      Element.nat?_eq_some_iff, ih, Option.pure_def, Option.some.injEq]
    cases ns with
    | nil => simp
    | cons n ns =>
      simp only [List.map_cons, List.cons.injEq]
      constructor
      · rintro ⟨m, rfl, ms, rfl, rfl, rfl⟩
        exact ⟨rfl, rfl⟩
      · rintro ⟨rfl, rfl⟩
        exact ⟨n, rfl, ns, rfl, rfl, rfl⟩

/-- The numbers of a private RSA key are read from their one encoding. -/
theorem RsaPrivateNumbers.ofDer?_eq_some_iff {der : Bytes} {k : RsaPrivateNumbers} :
    ofDer? der = some k ↔ der = k.toElement.encode ∧ der.length ≤ maxLength := by
  simp only [ofDer?, Option.bind_eq_bind, Option.bind_eq_some_iff,
    Element.sequenceOfBytes?_eq_some_iff, mapM_nat?_eq_some_iff]
  constructor
  · rintro ⟨es, ⟨rfl, hmax⟩, ns, rfl, h⟩
    split at h
    · obtain rfl := Option.some.inj h
      exact ⟨rfl, hmax⟩
    · simp at h
  · rintro ⟨rfl, hmax⟩
    exact ⟨_, ⟨rfl, hmax⟩, _, rfl, rfl⟩

/-! ### Keys of any algorithm -/

/-- A public document is read from its one encoding. -/
theorem SubjectPublicKeyInfo.ofDer?_eq_some_iff {der : Bytes} {info : SubjectPublicKeyInfo} :
    ofDer? der = some info ↔ der = info.toElement.encode ∧ der.length ≤ maxLength := by
  simp only [ofDer?, Option.bind_eq_bind, Option.bind_eq_some_iff,
    Element.sequenceOfBytes?_eq_some_iff]
  constructor
  · rintro ⟨es, ⟨rfl, hmax⟩, h⟩
    -- the sequence has to have exactly two elements.
    split at h
    · next e₁ e₂ =>
      simp only [Option.bind_eq_some_iff, Algorithm.ofIdentifier?_eq_some_iff,
        Element.bits?_eq_some_iff, Option.some.injEq] at h
      obtain ⟨a, rfl, b, rfl, rfl⟩ := h
      exact ⟨rfl, hmax⟩
    · simp at h
  · rintro ⟨rfl, hmax⟩
    refine ⟨_, ⟨rfl, hmax⟩, ?_⟩
    simp [Algorithm.ofIdentifier?_eq_some_iff.2 rfl, Element.bits?_eq_some_iff.2 rfl]

/-! ### Private keys -/

/-- A field for the public key that stands alone is read. -/
theorem readPublicKey?_singleton {read : Element → Option Bytes} {field : Element} {b : Bytes}
    (hskip : isMarked attributesNumber field = false)
    (hmark : isMarked publicKeyNumber field = true) (hread : read field = some b) :
    readPublicKey? read [field] = some (some b, []) := by
  unfold readPublicKey?
  rw [List.dropWhile_cons_of_neg (by rw [hskip]; decide)]
  simp only [hmark, hread, if_true, Option.map_some]

/-- A private document is read back from its encoding. -/
theorem PrivateKeyInfo.ofDer?_encode {info : PrivateKeyInfo}
    (h : info.toElement.encode.length ≤ maxLength) :
    ofDer? info.toElement.encode = some info := by
  have hsequence := Element.sequenceOfBytes?_eq_some_iff.2 ⟨rfl, h⟩
  have hidentifier := Algorithm.ofIdentifier?_eq_some_iff.2 (rfl : info.algorithm.identifier = _)
  have hfield : readPublicKey? publicKey? (info.publicKey.map publicKeyField).toList
      = some (info.publicKey, []) := by
    cases info.publicKey with
    | none => rfl
    | some b => exact readPublicKey?_singleton rfl rfl rfl
  rw [ofDer?, toElement, hsequence]
  -- the version that was written is the one that the fields ask for, and nothing is left behind.
  simp only [Option.bind_eq_bind, Option.bind_some, List.cons_append, List.nil_append, ofElements?,
    hidentifier, hfield]
  rw [if_pos]
  · rfl
  · exact ⟨rfl, rfl, rfl⟩

/-- The field for the public point holds one bit string. -/
theorem EcPrivateKey.publicKey?_field {b : Bytes} (h : (Element.bits b).body.length ≤ maxLength) :
    publicKey? (.constructed (.explicit publicKeyNumber) [.bits b]) = some b := by
  have hparts : (Element.constructed (.explicit publicKeyNumber) [.bits b]).parts?
      (.explicit publicKeyNumber) = some [.bits b] :=
    Element.parts?_eq_some_iff.2 ⟨rfl, by simpa using h⟩
  simp only [publicKey?, content?, hparts, Option.bind_eq_bind, Option.bind_some,
    Element.bits?_eq_some_iff]

/-- The public key is read back from its field, and so is its absence. -/
theorem EcPrivateKey.readPublicKey?_field {publicKey : Option Bytes}
    (h : ∀ b, publicKey = some b → (Element.bits b).body.length ≤ maxLength) :
    readPublicKey? publicKey? (publicKey.map fun b =>
      Element.constructed (.explicit publicKeyNumber) [.bits b]).toList = some (publicKey, []) := by
  cases publicKey with
  | none => rfl
  | some b => exact readPublicKey?_singleton rfl rfl (publicKey?_field (h b rfl))

/-- A SEC1 document is read back from its encoding. -/
theorem EcPrivateKey.ofDer?_encode {info : EcPrivateKey}
    (h : info.toElement.encode.length ≤ maxLength) :
    ofDer? info.toElement.encode = some info := by
  have hsequence := Element.sequenceOfBytes?_eq_some_iff.2 ⟨rfl, h⟩
  obtain ⟨key, publicKey⟩ := info
  -- the bit string is three levels down, and no part is longer than the document.
  have hbody : ∀ b, publicKey = some b → (Element.bits b).body.length ≤ maxLength := by
    rintro b rfl
    let field := Element.constructed (.explicit publicKeyNumber) [.bits b]
    calc (Element.bits b).body.length ≤ field.encode.length :=
          Element.length_body_le_constructed (List.mem_singleton_self _)
      _ ≤ (Element.sequence [.nat 1, .octets key, field]).encode.length :=
          Element.length_encode_le_constructed (by simp)
      _ ≤ maxLength := h
  have hcurve : hasValidCurve (publicKey.map fun b =>
      Element.constructed (.explicit publicKeyNumber) [.bits b]).toList = true := by
    cases publicKey <;> rfl
  rw [ofDer?, toElement, hsequence]
  simp only [Option.bind_eq_bind, Option.bind_some, List.cons_append, List.nil_append, ofElements?,
    readPublicKey?_field hbody]
  rw [if_pos]
  · rfl
  · exact ⟨trivial, rfl, hcurve, rfl⟩

/-! ### Bounds of lengths -/

/-- The encoding of a number adds at most seven bytes to its width. -/
theorem length_nat_encode_le {n k : ℕ} (hk : k < maxLength) (h : width n ≤ k) :
    (Element.nat n).encode.length ≤ k + 7 :=
  Element.length_encode_le_of_body hk ((Element.length_nat_body_le n).trans (Nat.succ_le_succ h))

/-- A private key whose content is short has a short document. -/
theorem PrivateKeyInfo.length_encode_le {info : PrivateKeyInfo} {k : ℕ} (hk : k ≤ 1000)
    (hkey : info.key.length ≤ k) (hpublic : ∀ b, info.publicKey = some b → b.length ≤ 32) :
    info.toElement.encode.length ≤ k + 80 := by
  -- one bound for each of the four parts, added up at the end.
  have hversion : (Element.nat info.version).encode.length ≤ 8 := by
    refine length_nat_encode_le (k := 1) (by decide) ?_
    unfold version
    split <;> decide
  have hidentifier := info.algorithm.length_identifier_le
  have hoctets : (Element.octets info.key).encode.length ≤ k + 6 :=
    Element.length_encode_le_of_body (hk.trans (by decide)) hkey
  have hfield : (Element.encodeAll (info.publicKey.map publicKeyField).toList).length ≤ 39 := by
    cases h : info.publicKey with
    | none => simp
    | some b =>
      have hbody : (publicKeyField b).body.length ≤ 33 := Nat.succ_le_succ (hpublic b h)
      simpa using Element.length_encode_le_of_body (by decide) hbody
  have hbody : info.toElement.body.length ≤ k + 74 := by
    show (Element.encodeAll ([_, _, _] ++ _)).length ≤ _
    simp only [List.cons_append, List.nil_append, Element.encodeAll_cons, List.length_append]
    omega
  exact Element.length_encode_le_of_body ((Nat.add_le_add_right hk 74).trans (by decide)) hbody

theorem EcPrivateKey.length_field_le {publicKey : Option Bytes}
    (h : ∀ b, publicKey = some b → b.length ≤ 65) :
    (Element.encodeAll (publicKey.map fun b =>
      Element.constructed (.explicit publicKeyNumber) [.bits b]).toList).length ≤ 78 := by
  cases publicKey with
  | none => simp
  | some b =>
    have hbits : (Element.bits b).encode.length ≤ 72 :=
      Element.length_encode_le_of_body (k := 66) (by decide) (Nat.succ_le_succ (h b rfl))
    have hbody : (Element.constructed (.explicit publicKeyNumber) [.bits b]).body.length ≤ 72 := by
      show (Element.encodeAll [.bits b]).length ≤ 72
      simpa using hbits
    simpa using Element.length_encode_le_of_body (by decide) hbody

/-- A SEC1 document of a key on P-256 is short. -/
theorem EcPrivateKey.length_encode_le {info : EcPrivateKey} (hkey : info.key.length ≤ 32)
    (hpublic : ∀ b, info.publicKey = some b → b.length ≤ 65) :
    info.toElement.encode.length ≤ 130 := by
  have hversion : (Element.nat 1).encode.length ≤ 8 :=
    length_nat_encode_le (k := 1) (by decide) (by decide)
  have hoctets : (Element.octets info.key).encode.length ≤ 38 :=
    Element.length_encode_le_of_body (by decide) hkey
  have hfield := length_field_le hpublic
  have hbody : info.toElement.body.length ≤ 124 := by
    show (Element.encodeAll ([_, _] ++ _)).length ≤ _
    simp only [List.cons_append, List.nil_append, Element.encodeAll_cons, List.length_append]
    omega
  exact Element.length_encode_le_of_body (by decide) hbody

/-- A public document adds at most 34 bytes to its key. -/
theorem SubjectPublicKeyInfo.length_encode_le {info : SubjectPublicKeyInfo} {k : ℕ}
    (hk : k + 34 ≤ maxLength) (hkey : info.key.length ≤ k) :
    info.toElement.encode.length ≤ k + 34 := by
  have hidentifier := info.algorithm.length_identifier_le
  have hbits : (Element.bits info.key).encode.length ≤ k + 1 + 6 :=
    Element.length_encode_le_of_body (by omega) (Nat.succ_le_succ hkey)
  have hbody : info.toElement.body.length ≤ k + 28 := by
    show (Element.encodeAll [_, _]).length ≤ _
    simp only [Element.encodeAll_cons, Element.encodeAll_nil, List.length_append, List.length_nil]
    omega
  exact Element.length_encode_le_of_body (by omega) hbody

/-- A public document is no shorter than its key. -/
theorem SubjectPublicKeyInfo.length_key_le (info : SubjectPublicKeyInfo) :
    info.key.length ≤ info.toElement.encode.length := by
  calc info.key.length ≤ (Element.bits info.key).body.length := Nat.le_succ _
    _ ≤ info.toElement.encode.length := Element.length_body_le_constructed (by simp)

/-- The document of a public RSA key is not much longer than its two numbers. -/
theorem RsaPublicNumbers.length_encode_le_of_numbers {k : RsaPublicNumbers} {m : ℕ}
    (hm : m ≤ maxLength)
    (h : (Element.nat k.n).encode.length + (Element.nat k.e).encode.length ≤ m) :
    k.toElement.encode.length ≤ m + 6 := by
  refine Element.length_encode_le_of_body hm ?_
  show (Element.encodeAll [_, _]).length ≤ _
  simpa only [Element.encodeAll_cons, Element.encodeAll_nil, List.length_append, List.length_nil]

/-- The numbers of a public key that passes the size limits are short. -/
theorem RsaPublicNumbers.length_encode_le {k : RsaPublicNumbers} (hn : width k.n ≤ 512)
    (he : width k.e ≤ 5) : k.toElement.encode.length ≤ 537 := by
  have hn' := length_nat_encode_le (by decide) hn
  have he' := length_nat_encode_le (by decide) he
  exact length_encode_le_of_numbers (by decide) (Nat.add_le_add hn' he')

theorem width_le_length_nat_encode (n : ℕ) : width n ≤ (Element.nat n).encode.length := by
  have hstrip := Element.length_stripZeros_le (ofNatMin n)
  rw [stripZeros_ofNatMin, length_ofNatMin] at hstrip
  exact hstrip.trans (Element.nat n).length_body_le

/-- The document of a private RSA key has room for the numbers of the public one, and beside them
for the two factors. -/
theorem RsaPrivateNumbers.length_numbers_le (k : RsaPrivateNumbers) :
    (Element.nat k.n).encode.length + (Element.nat k.e).encode.length
      + (width k.p + width k.q) ≤ k.toElement.encode.length := by
  have hp := width_le_length_nat_encode k.p
  have hq := width_le_length_nat_encode k.q
  have hbody := k.toElement.length_body_le
  have hnumbers : (Element.nat k.n).encode.length + (Element.nat k.e).encode.length
      + ((Element.nat k.p).encode.length + (Element.nat k.q).encode.length)
        ≤ k.toElement.body.length := by
    -- the other five elements only make the document longer.
    show _ ≤ (Element.encodeAll [.nat 0, .nat k.n, .nat k.e, .nat k.d, .nat k.p, .nat k.q, _, _,
      _]).length
    simp only [Element.encodeAll_cons, List.length_append]
    omega
  omega

end Document

end Keyring
