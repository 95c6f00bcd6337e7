import Keyring.Proofs.Key.Capability
import Keyring.Proofs.Key.Identity
/-!
# Comparing keys by their public halves

For keys that can come about the comparison of documents is the comparison of public halves. The
document is always there to be compared, it has no second reading, and the published text has the
same one inside; so keys pass for the same exactly if they publish the same text. Such keys cannot
be told apart by verifying either.
-/

namespace Keyring

open Der Text

/-- Whether two public keys have the same numbers: the same bytes, the same modulus and exponent, or
the same point. -/
def PublicKey.HasSameValue : PublicKey → PublicKey → Prop
  | .ed25519 a, .ed25519 b => a.val = b.val
  | .rsa a, .rsa b => a.n = b.n ∧ a.e = b.e
  | .ecdsaP256 P, .ecdsaP256 Q => P = Q
  | _, _ => False

theorem PublicKey.hasSameValue_iff {a b : PublicKey} : a.HasSameValue b ↔ a = b := by
  constructor
  · intro h
    cases a with
    | ed25519 a =>
      cases b with
      | ed25519 b => exact congrArg PublicKey.ed25519 (Subtype.ext h)
      | _ => cases h
    | rsa a =>
      cases b with
      | rsa b => exact congrArg PublicKey.rsa (Rsa.PublicKey.ext_numbers h.1 h.2)
      | _ => cases h
    | ecdsaP256 P =>
      cases b with
      | ecdsaP256 Q => exact congrArg PublicKey.ecdsaP256 h
      | _ => cases h
  · rintro rfl
    cases a with
    | ed25519 a => rfl
    | rsa a => exact ⟨rfl, rfl⟩
    | ecdsaP256 P => rfl

/-- A document is determined by its text. -/
theorem armour_inj {label : Pem.Label} {a b : Bytes} (ha : a ≠ []) (hb : b ≠ []) :
    armour label a = armour label b ↔ a = b := by
  refine ⟨fun h => ?_, congrArg _⟩
  have hread := decode?_armour label ha
  rw [h, decode?_armour label hb] at hread
  exact (Prod.mk.inj (Option.some.inj hread)).2.symm

namespace Key

variable {a b : Key}

/-- The public half of a key that can come about can be published. -/
theorem Obtainable.exportPublic_eq (h : Obtainable a) :
    a.exportPublic = .ok (armour .publicKey a.publicKey.toSpkiDer) :=
  exportPublic_of_length_le h.length_toSpkiDer_le

/-- Keys publish the same text exactly if they have the same public half. -/
theorem Obtainable.exportPublic_eq_iff (ha : Obtainable a) (hb : Obtainable b) :
    a.exportPublic = b.exportPublic ↔ a.publicKey = b.publicKey := by
  have hne : ∀ key : Key, key.publicKey.toSpkiDer ≠ [] := fun _ => Element.encode_ne_nil _
  rw [ha.exportPublic_eq, hb.exportPublic_eq, Except.ok.injEq,
    armour_inj (hne a) (hne b), PublicKey.toSpkiDer_eq_iff ha.length_toSpkiDer_le]

/-- Keys that can come about pass for the same exactly if they publish the same text, and exactly if
they are of one algorithm and have the same public value. Publishing never fails for them, passing
for the same is an equivalence, and such keys give the same answer to every question of
verifying. -/
theorem samePublic_identifies {a b c : Key} (ha : Obtainable a) (hb : Obtainable b)
    (hc : Obtainable c) :
    (∃ text, a.exportPublic = .ok text) ∧
    (a.samePublic b = true ↔ a.exportPublic = b.exportPublic) ∧
    (a.samePublic b = true ↔
      a.algorithm = b.algorithm ∧ a.publicKey.HasSameValue b.publicKey) ∧
    a.samePublic a = true ∧ a.samePublic b = b.samePublic a ∧
    (a.samePublic b = true → b.samePublic c = true → a.samePublic c = true) ∧
    (a.samePublic b = true → ∀ scheme message signature,
      a.verify scheme message signature = b.verify scheme message signature) := by
  refine ⟨⟨_, ha.exportPublic_eq⟩, ?_, ?_, ?_, ?_, ?_, ?_⟩
  · rw [hb.samePublic_iff, ha.exportPublic_eq_iff hb]
  · rw [hb.samePublic_iff, PublicKey.hasSameValue_iff, ← algorithm_publicKey a,
      ← algorithm_publicKey b]
    exact ⟨fun h => ⟨congrArg _ h, h⟩, And.right⟩
  · exact (ha.samePublic_iff a).2 rfl
  · rw [Bool.eq_iff_iff, hb.samePublic_iff, ha.samePublic_iff, eq_comm]
  · rw [hb.samePublic_iff, hc.samePublic_iff, hc.samePublic_iff]
    exact Eq.trans
  · rw [hb.samePublic_iff]
    exact verify_congr

/-- A new key passes for its public half and verifies like it. -/
theorem samePublic_identifies_generate :
    ∃ a b : Key, Obtainable a ∧ a.isPrivate = true ∧ Obtainable b ∧ b.isPrivate = false ∧
      a.samePublic b = true ∧ ∀ scheme message signature,
        a.verify scheme message signature = b.verify scheme message signature := by
  have hgenerate : generate (drawOfMask 1) = .ok (.ofPrivate (.ed25519 (drawOfMask 1).seed)) := rfl
  have ha := Obtainable.generate hgenerate
  have hb := Obtainable.toPublic ha
  obtain ⟨-, -, hvalue, -, -, -, hverify⟩ := samePublic_identifies ha hb ha
  have hsame := hvalue.2 ⟨(algorithm_toPublic _).symm, PublicKey.hasSameValue_iff.2 rfl⟩
  exact ⟨_, _, ha, rfl, hb, rfl, hsame, hverify hsame⟩

end Key

end Keyring
