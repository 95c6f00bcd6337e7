import Keyring.Proofs.Document
import Keyring.Text.Pem
/-!
# The elements of private documents

Private keys may come with fields that are skipped, but what stands in front of these fields is
determined by what is read. The tags of the first two elements already tell the kind of a document.
Among the fields, those for a public key are not skipped in silence: the first of them is read.
-/

namespace Keyring.Document

open Der

/-! ### Fields for the public key -/

theorem isMarked_iff {number : Fin 31} {e : Element} :
    isMarked number e = true ↔ ∃ c, e.tag = .numbered .context c number := by
  unfold isMarked
  split
  · next c k htag => simp [htag]
  · next htag =>
    simp only [Bool.false_eq_true, false_iff, not_exists]
    exact fun c => htag c number

/-- An element is marked with one number only. -/
theorem eq_of_isMarked {number number' : Fin 31} {e : Element} (h : isMarked number e = true)
    (h' : isMarked number' e = true) : number = number' := by
  obtain ⟨c, htag⟩ := isMarked_iff.1 h
  obtain ⟨c', htag'⟩ := isMarked_iff.1 h'
  exact (Tag.numbered.inj (htag.symm.trans htag')).2.2

/-- A field for the public key is the one that is read, or stands behind it. -/
theorem exists_of_readPublicKey? {read : Element → Option Bytes} {es behind : List Element}
    {value : Option Bytes} {e : Element} (h : readPublicKey? read es = some (value, behind))
    (he : e ∈ es) (hmark : isMarked publicKeyNumber e = true) :
    (∃ b, value = some b ∧ read e = some b) ∨ e ∈ behind := by
  -- the attributes in front carry another number, so the element is not among them.
  have hleft : e ∈ es.dropWhile (isMarked attributesNumber) := by
    rw [← List.takeWhile_append_dropWhile (p := isMarked attributesNumber) (l := es),
      List.mem_append] at he
    refine he.resolve_left fun htaken => ?_
    exact absurd (eq_of_isMarked hmark (List.mem_takeWhile_imp htaken)) (by decide)
  unfold readPublicKey? at h
  split at h
  · next hnil =>
    rw [hnil] at hleft
    cases hleft
  · next first rest hcons =>
    rw [hcons, List.mem_cons] at hleft
    split_ifs at h with hfirst
    · obtain ⟨b, hb, heq⟩ := Option.map_eq_some_iff.1 h
      obtain ⟨rfl, rfl⟩ := Prod.mk.inj heq
      rcases hleft with rfl | hleft
      · exact .inl ⟨b, rfl, hb⟩
      · exact .inr hleft
    · obtain ⟨-, rfl⟩ := Prod.mk.inj (Option.some.inj h)
      exact .inr (List.mem_cons.2 hleft)

theorem PrivateKeyInfo.eq_publicKeyField_of_publicKey? {e : Element} {b : Bytes}
    (h : publicKey? e = some b) : e = publicKeyField b := by
  simp only [publicKey?, Option.ite_none_right_eq_some, Element.bitBytes?_eq_some_iff] at h
  obtain ⟨htag, hbody⟩ := h
  rw [publicKeyField, ← htag, Element.bits, ← hbody]

/-- The field for the public point in the document of a scalar. -/
def EcPrivateKey.publicKeyField (b : Bytes) : Element :=
  .constructed (.explicit publicKeyNumber) [.bits b]

theorem EcPrivateKey.eq_publicKeyField_of_publicKey? {e : Element} {b : Bytes}
    (h : publicKey? e = some b) : e = publicKeyField b := by
  simp only [publicKey?, content?, Option.bind_eq_bind, Option.bind_eq_some_iff,
    Element.parts?_eq_some_iff, Element.bits?_eq_some_iff] at h
  obtain ⟨_, ⟨es, ⟨rfl, -⟩, hone⟩, rfl⟩ := h
  split at hone
  · obtain rfl := Option.some.inj hone
    rfl
  · cases hone

/-! ### Documents -/

theorem PrivateKeyInfo.exists_elements_of_ofDer? {der : Bytes} {info : PrivateKeyInfo}
    (h : ofDer? der = some info) :
    ∃ rest behind, Element.sequenceOfBytes? der = some
        (.nat info.version :: info.algorithm.identifier :: .octets info.key :: rest) ∧
      readPublicKey? publicKey? rest = some (info.publicKey, behind) ∧
      ∀ e ∈ behind, isExtension e = true := by
  simp only [ofDer?, Option.bind_eq_bind, Option.bind_eq_some_iff] at h
  obtain ⟨es, hes, h⟩ := h
  unfold ofElements? at h
  split at h
  · next version identifier key rest =>
    simp only [Option.bind_eq_bind, Option.bind_eq_some_iff, Algorithm.ofIdentifier?_eq_some_iff,
      Option.ite_none_right_eq_some, Option.some.injEq, Prod.exists] at h
    obtain ⟨a, rfl, publicKey, behind, hread, ⟨htag, rfl, hbehind⟩, rfl⟩ := h
    -- the tag was compared, so the element is the octet string of its content.
    have hkey : key = .octets key.body := by rw [Element.octets, ← htag]
    exact ⟨rest, behind, by rw [hes, ← hkey], hread, List.all_eq_true.1 hbehind⟩
  · cases h

theorem EcPrivateKey.exists_elements_of_ofDer? {der : Bytes} {info : EcPrivateKey}
    (h : ofDer? der = some info) :
    ∃ rest, Element.sequenceOfBytes? der = some (.nat 1 :: .octets info.key :: rest) ∧
      readPublicKey? publicKey? rest = some (info.publicKey, []) := by
  simp only [ofDer?, Option.bind_eq_bind, Option.bind_eq_some_iff] at h
  obtain ⟨es, hes, h⟩ := h
  unfold ofElements? at h
  split at h
  · next version key rest =>
    simp only [Option.bind_eq_bind, Option.bind_eq_some_iff, Option.ite_none_right_eq_some,
      Option.some.injEq, Prod.exists] at h
    obtain ⟨publicKey, behind, hread, ⟨rfl, htag, -, hbehind⟩, rfl⟩ := h
    -- the tag was compared, so the element is the octet string of its content.
    have hkey : key = .octets key.body := by rw [Element.octets, ← htag]
    obtain rfl := List.isEmpty_iff.1 hbehind
    exact ⟨rest, by rw [hes, ← hkey], hread⟩
  · cases h

end Keyring.Document
