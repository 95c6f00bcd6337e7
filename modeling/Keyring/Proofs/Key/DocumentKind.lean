import Keyring.Proofs.Document.Elements
import Keyring.Proofs.Key.Container
import Keyring.Proofs.Text.Label
/-!
# No document passes for another kind

All four kinds of documents are sequences. They are told apart by their first two elements: a
public key starts with the identifier of its algorithm, which is a sequence, and the private keys
start with a version and go on with an identifier, a number or a byte string. So a document is
imported under one label at most, under other labels no document is, and no text is imported both
ways.
-/

namespace Keyring

open Document Der Text

/-! ### The first two elements -/

/-- The tags of the first two elements in each kind of documents. -/
def Text.Pem.Label.firstTags : Pem.Label → Tag × Tag
  | .privateKey => (.integer, .sequence)
  | .rsaPrivateKey => (.integer, .integer)
  | .ecPrivateKey => (.integer, .octetString)
  | .publicKey => (.sequence, .bitString)

theorem Text.Pem.Label.firstTags_injective : Function.Injective Pem.Label.firstTags := by
  intro label label'
  cases label <;> cases label' <;> decide

/-- Whether a document is a sequence whose first two elements have the given tags. -/
def HasFirstTags (der : Bytes) (tags : Tag × Tag) : Prop :=
  ∃ first second rest, Element.sequenceOfBytes? der = some (first :: second :: rest) ∧
    tags = (first.tag, second.tag)

/-- A document has one pair of first tags. -/
theorem HasFirstTags.unique {der : Bytes} {tags tags' : Tag × Tag} (h : HasFirstTags der tags)
    (h' : HasFirstTags der tags') : tags = tags' := by
  obtain ⟨first, second, rest, hes, rfl⟩ := h
  obtain ⟨first', second', rest', hes', rfl⟩ := h'
  obtain ⟨rfl, hrest⟩ := List.cons.inj (Option.some.inj (hes.symm.trans hes'))
  obtain ⟨rfl, -⟩ := List.cons.inj hrest
  rfl

theorem tag_identifier (a : Algorithm) : a.identifier.tag = .sequence := by
  cases a <;> rfl

/-- A private document that is read has the first tags of its label. -/
theorem PrivateKey.hasFirstTags_of_ofDocument? {label : Pem.Label} {der : Bytes} {key : PrivateKey}
    (h : ofDocument? label der = some key) : HasFirstTags der label.firstTags := by
  -- each decoder has compared the first two elements with those of its own grammar.
  cases label with
  | privateKey =>
    simp only [ofDocument?, ofPkcs8?, Option.bind_eq_bind, Option.bind_eq_some_iff] at h
    obtain ⟨info, hread, -⟩ := h
    obtain ⟨rest, -, hes, -⟩ := PrivateKeyInfo.exists_elements_of_ofDer? hread
    exact ⟨_, _, _, hes, by rw [tag_identifier]; rfl⟩
  | rsaPrivateKey =>
    obtain ⟨k, numbers, -, hread, -⟩ := ofPkcs1?_eq_some_iff.1 h
    exact ⟨_, _, _, Element.sequenceOfBytes?_eq_some_iff.2
      (RsaPrivateNumbers.ofDer?_eq_some_iff.1 hread), rfl⟩
  | ecPrivateKey =>
    simp only [ofDocument?, ofSec1?, Option.bind_eq_bind, Option.bind_eq_some_iff] at h
    obtain ⟨info, hread, -⟩ := h
    obtain ⟨rest, hes, -⟩ := EcPrivateKey.exists_elements_of_ofDer? hread
    exact ⟨_, _, _, hes, rfl⟩
  | publicKey => cases h

/-- A public document that is read has the first tags of its label. -/
theorem PublicKey.hasFirstTags_of_ofSpki? {der : Bytes} {key : PublicKey}
    (h : ofSpki? der = some key) : HasFirstTags der Pem.Label.publicKey.firstTags := by
  simp only [ofSpki?, Option.bind_eq_bind, Option.bind_eq_some_iff] at h
  obtain ⟨info, hread, -⟩ := h
  exact ⟨_, _, _, Element.sequenceOfBytes?_eq_some_iff.2
    (SubjectPublicKeyInfo.ofDer?_eq_some_iff.1 hread), by rw [tag_identifier]; rfl⟩

namespace Key

/-! ### Texts that are imported -/

/-- Whether a text is imported, as a private key or as a public one. -/
def IsImported (text : String) : Prop :=
  (∃ key, importPrivate text = .ok key) ∨ ∃ key, importPublic text = .ok key

/-- Whether a text is refused both ways, which it is for one reason only. -/
def IsRefused (text : String) : Prop :=
  importPrivate text = .error .parseFailure ∧ importPublic text = .error .parseFailure

/-- A text without a document is refused. -/
theorem isRefused_of_decode?_eq_none {text : String} (h : Pem.decode? text.toList = none) :
    IsRefused text := by
  constructor
  · rw [importPrivate, PrivateKey.ofPem?_eq_bind, h]
    rfl
  · rw [importPublic, PublicKey.ofPem?, h]
    rfl

/-- A text that is imported holds one document, of the kind that its label says. -/
theorem IsImported.exists_decode? {text : String} (h : IsImported text) :
    ∃ label der, Pem.decode? text.toList = some (label, der) ∧
      HasFirstTags der label.firstTags := by
  rcases h with ⟨key, h⟩ | ⟨key, h⟩
  · obtain ⟨label, der, k, hdecode, hread, -⟩ := importPrivate_eq_ok_iff.1 h
    exact ⟨label, der, hdecode, PrivateKey.hasFirstTags_of_ofDocument? hread⟩
  · obtain ⟨der, k, hdecode, hread, -⟩ := importPublic_eq_ok_iff.1 h
    exact ⟨.publicKey, der, hdecode, PublicKey.hasFirstTags_of_ofSpki? hread⟩

/-- A text that is imported has the first tags of its label. -/
theorem IsImported.hasFirstTags {label : Pem.Label} {der : Bytes} {text : String}
    (h : IsImported text) (htext : IsArmoured label der text) :
    HasFirstTags der label.firstTags := by
  obtain ⟨label', der', hdecode, htags⟩ := h.exists_decode?
  obtain ⟨rfl, rfl⟩ := Prod.mk.inj (htext.eq_of_decode? hdecode)
  exact htags

/-- No document passes for another kind. It is imported under one label at most, whichever way;
under a label that is none of the four nothing is imported, however the label differs from them; and
no text is imported both as a private and as a public key. -/
theorem document_has_one_kind :
    (∀ der label label' text text', IsArmoured label der text → IsArmoured label' der text' →
      IsImported text → IsImported text' → label = label') ∧
    (∀ name : List Char, (∀ label : Pem.Label, name ≠ label.name.toList) →
      (∀ der, IsRefused (String.ofList (Pem.encode name der))) ∧
      ∀ text : String, Pem.IsLabelled name text.toList → IsRefused text) ∧
    ∀ text key key', importPrivate text = .ok key → importPublic text ≠ .ok key' := by
  refine ⟨?_, ?_, ?_⟩
  · intro der label label' text text' htext htext' h h'
    exact Pem.Label.firstTags_injective
      ((h.hasFirstTags htext).unique (h'.hasFirstTags htext'))
  -- a text with another name between its dashes has no document.
  · intro name hname
    have hlabelled : ∀ text : String, Pem.IsLabelled name text.toList → IsRefused text := by
      intro text h
      refine isRefused_of_decode?_eq_none (Option.eq_none_iff_forall_ne_some.2 ?_)
      rintro ⟨label, der⟩ hdecode
      exact hname label (h.eq_of_decode? hdecode)
    refine ⟨fun der => hlabelled _ ?_, hlabelled⟩
    rw [String.toList_ofList]
    exact Pem.isLabelled_encode name der
  · intro text key key' h h'
    -- one text has one label, and the private importer has no decoder for the public one.
    obtain ⟨label, der, k, hdecode, hread, -⟩ := importPrivate_eq_ok_iff.1 h
    obtain ⟨der', k', hdecode', -⟩ := importPublic_eq_ok_iff.1 h'
    obtain ⟨rfl, rfl⟩ := Prod.mk.inj (Option.some.inj (hdecode.symm.trans hdecode'))
    cases hread

/-- The document of a seed of zeros is imported under its own label, and neither under the three
others nor under labels that only look like one of them. -/
theorem document_has_one_kind_zero : ∃ der,
    IsImported (armour .privateKey der) ∧
    (∀ label, label ≠ .privateKey → ¬ IsImported (armour label der)) ∧
    (∀ name ∈ ["ENCRYPTED PRIVATE KEY", "RSA PUBLIC KEY", "private key", "PRIVATE KEY ",
      "PRIVATE  KEY"], IsRefused (String.ofList (Pem.encode name.toList der))) ∧
    ∀ key, importPublic (armour .privateKey der) ≠ .ok key := by
  obtain ⟨hkind, hother, hboth⟩ := document_has_one_kind
  obtain ⟨der, himport⟩ := exists_importPrivate_ed25519 ⟨List.replicate 32 0, rfl⟩
  refine ⟨der, .inl ⟨_, himport⟩, fun label hlabel h => ?_, fun name hname => ?_,
    fun key => hboth _ _ key himport⟩
  · exact hlabel (hkind _ _ _ _ _ (.inl rfl) (.inl rfl) h (.inl ⟨_, himport⟩))
  · refine (hother name.toList fun label => ?_).1 _
    revert name
    cases label <;> decide

end Key

end Keyring
