import Keyring.Der.Element
import Keyring.Proofs.Bytes
/-!
# Elements and their bytes

Reading and writing undo each other at every level: tags, lengths, single elements, rows of elements
and whole documents. Each level has one equivalence, *reading gives this result if and only if the
bytes are the writing of it and within the limit*, so that later proofs neither run the reader nor
take its input apart.
-/

namespace Keyring.Der

open Bytes

/-! ### Tags -/

/-- Every tag is read back from its byte. -/
@[simp] theorem Tag.ofByte?_toByte (t : Tag) : Tag.ofByte? t.toByte = some t := by
  have numbered : ∀ (cls : TagClass) (constructed : Bool) (number : Fin 31),
      Tag.ofByte? (Tag.numbered cls constructed number).toByte
        = some (.numbered cls constructed number) := by
    intro cls
    cases cls <;> decide
  cases t with
  | numbered cls constructed number => exact numbered cls constructed number
  | _ => rfl

/-- Each byte stands for at most one tag, and that tag is written as this byte. -/
theorem Tag.toByte_of_ofByte? {b : UInt8} {t : Tag} (h : Tag.ofByte? b = some t) :
    t.toByte = b := by
  have all : ∀ i : Fin 256, ∀ t ∈ Tag.ofByte? (UInt8.ofFin i), t.toByte = UInt8.ofFin i := by
    decide +kernel
  exact all b.toFin t h

/-! ### Lengths -/

/-- No length within the limit needs more than four bytes. -/
theorem width_le_four {n : Nat} (h : n ≤ maxLength) : width n ≤ 4 :=
  width_le_iff.2 (lt_of_le_of_lt h (by decide))

/-- A greater length is not written in fewer bytes. -/
theorem length_encodeLength_mono {m n : Nat} (h : m ≤ n) :
    (encodeLength m).length ≤ (encodeLength n).length := by
  unfold encodeLength
  split
  · split
    · exact le_rfl
    · simp
  · rw [if_neg (by omega)]
    simpa using width_mono h

/-- A length within the limit is read back, in front of anything. -/
theorem readLength?_encodeLength {n : Nat} (h : n ≤ maxLength) (rest : Bytes) :
    readLength? (encodeLength n ++ rest) = some (n, rest) := by
  unfold encodeLength
  split
  · next hshort =>
    have hbyte : (UInt8.ofNat n).toNat = n := toNat_byte (by omega)
    have hlt : UInt8.ofNat n < 0x80 := by rw [UInt8.lt_iff_toNat_lt, hbyte]; exact hshort
    simp [readLength?, hlt, hbyte]
  · next hlong =>
    have hw : width n ≤ 4 := width_le_four h
    have hbyte : (UInt8.ofNat (0x80 + width n)).toNat = 0x80 + width n := toNat_byte (by omega)
    have hge : ¬ UInt8.ofNat (0x80 + width n) < 0x80 := by
      rw [UInt8.lt_iff_toNat_lt, hbyte]
      simp
    have htake : (ofNatMin n ++ rest).take (width n) = ofNatMin n :=
      List.take_left' (length_ofNatMin n)
    have hdrop : (ofNatMin n ++ rest).drop (width n) = rest :=
      List.drop_left' (length_ofNatMin n)
    -- the first byte gives back the number of the digits, so they are taken off exactly.
    -- the first byte gives back the number of the digits, so they are taken off exactly.
    rw [List.cons_append, readLength?, if_neg hge, hbyte, Nat.add_sub_cancel_left]
    have hn : 0x80 ≤ n := by omega
    simp [htake, hdrop, hn, h]

/-- Every length that can be read is written as it was read. -/
theorem encodeLength_of_readLength? {b rest : Bytes} {n : Nat}
    (h : readLength? b = some (n, rest)) : b = encodeLength n ++ rest ∧ n ≤ maxLength := by
  cases b with
  | nil => simp [readLength?] at h
  | cons x r =>
    rw [readLength?] at h
    split at h
    · next hshort =>
      obtain ⟨rfl, rfl⟩ : x.toNat = n ∧ r = rest := by simpa using h
      have hlt : x.toNat < 0x80 := UInt8.lt_iff_toNat_lt.1 hshort
      have hmax : x.toNat ≤ maxLength := by rw [maxLength]; omega
      simp [encodeLength, hlt, hmax]
    · next hlong =>
      simp only [Option.ite_none_right_eq_some, Option.some.injEq, Prod.mk.injEq] at h
      obtain ⟨⟨hlen, hmin, hwidth, hmax⟩, rfl, rfl⟩ := h
      have hge : 0x80 ≤ x.toNat := Nat.le_of_not_lt fun hlt => hlong (UInt8.lt_iff_toNat_lt.2 hlt)
      have hbyte : UInt8.ofNat (0x80 + (x.toNat - 0x80)) = x := by
        rw [Nat.add_sub_cancel' hge, UInt8.ofNat_toNat]
      -- the reader compared the width, so the digits have no leading zero and are written again.
      -- the reader compared the width, so the digits have no leading zero and are written again.
      have hdigits : ofNatMin (toNat (r.take (x.toNat - 0x80))) = r.take (x.toNat - 0x80) :=
        ofNatMin_toNat (isMinimal_iff_width.2 (hwidth.trans hlen.symm))
      refine ⟨?_, hmax⟩
      rw [encodeLength, if_neg (by omega), hwidth, hbyte, hdigits, List.cons_append,
        List.take_append_drop]

/-! ### Elements -/

namespace Element

/-- An element whose body is within the limit is read back, in front of anything. -/
theorem read?_encode {e : Element} (h : e.body.length ≤ maxLength) (rest : Bytes) :
    read? (e.encode ++ rest) = some (e, rest) := by
  have hlength := readLength?_encodeLength h (e.body ++ rest)
  simp [read?, encode, hlength]

/-- An element that is read is written as it was read. -/
theorem encode_of_read? {b rest : Bytes} {e : Element} (h : read? b = some (e, rest)) :
    b = e.encode ++ rest ∧ e.body.length ≤ maxLength := by
  cases b with
  | nil => simp [read?] at h
  | cons x r =>
    simp only [read?, Option.bind_eq_bind, Option.bind_eq_some_iff, Prod.exists,
      Option.ite_none_right_eq_some, Option.some.injEq, Prod.mk.injEq] at h
    obtain ⟨tag, htag, n, r', hn, hlen, rfl, rfl⟩ := h
    obtain ⟨rfl, hmax⟩ := encodeLength_of_readLength? hn
    refine ⟨?_, hlen.symm ▸ hmax⟩
    simp only [encode]
    rw [Tag.toByte_of_ofByte? htag, hlen, List.cons_append, List.cons_append, List.append_assoc,
      List.take_append_drop]

/-- How long an element is follows from how long its body is. -/
theorem length_encode (e : Element) : e.encode.length = framedLength e.body.length := by
  simp only [encode, framedLength, List.length_append, List.cons_append, List.length_cons]
  omega

/-- The body is part of the encoding, and not all of it. -/
theorem length_body_lt (e : Element) : e.body.length < e.encode.length := by
  rw [length_encode, framedLength]
  omega

/-- An element is no shorter than its content. -/
theorem length_body_le (e : Element) : e.body.length ≤ e.encode.length :=
  e.length_body_lt.le

theorem encode_ne_nil (e : Element) : e.encode ≠ [] := by
  simp [encode]

/-- A byte string is a document if and only if it is the encoding of an element and not too
long. -/
theorem ofBytes?_eq_some_iff {b : Bytes} {e : Element} :
    ofBytes? b = some e ↔ b = e.encode ∧ b.length ≤ maxLength := by
  constructor
  · intro h
    simp only [ofBytes?, Option.bind_eq_bind, Option.bind_eq_some_iff, Prod.exists,
      Option.ite_none_right_eq_some, Option.some.injEq] at h
    obtain ⟨e', rest, hread, ⟨hempty, hmax⟩, rfl⟩ := h
    obtain rfl := List.isEmpty_iff.1 hempty
    exact ⟨by simpa using (encode_of_read? hread).1, hmax⟩
  · rintro ⟨rfl, hmax⟩
    have hread := read?_encode (e.length_body_le.trans hmax) []
    rw [List.append_nil] at hread
    simp [ofBytes?, hread, hmax]

/-- An element within the limit is determined by its encoding, since reading is a function. -/
theorem encode_inj {e e' : Element} (h : e.encode = e'.encode)
    (hlen : e.encode.length ≤ maxLength) : e = e' := by
  have hread := ofBytes?_eq_some_iff.2 ⟨rfl, hlen⟩
  rw [ofBytes?_eq_some_iff.2 ⟨h, hlen⟩] at hread
  exact (Option.some.inj hread).symm

/-! ### Rows of elements -/

@[simp] theorem encodeAll_nil : encodeAll [] = [] := rfl

@[simp] theorem encodeAll_cons (e : Element) (es : List Element) :
    encodeAll (e :: es) = e.encode ++ encodeAll es := rfl

/-- Each element of a row is part of its encoding. -/
theorem length_encode_le {e : Element} {es : List Element} (h : e ∈ es) :
    e.encode.length ≤ (encodeAll es).length := by
  induction es with
  | nil => cases h
  | cons x es ih =>
    rw [encodeAll_cons, List.length_append]
    rcases List.mem_cons.1 h with rfl | h
    · omega
    · have := ih h
      omega

/-- A part of an element is not longer than the element. -/
theorem length_encode_le_constructed {t : Tag} {e : Element} {es : List Element} (h : e ∈ es) :
    e.encode.length ≤ (constructed t es).encode.length :=
  (length_encode_le h).trans (constructed t es).length_body_le

/-- A part is no longer than the whole. -/
theorem length_body_le_constructed {t : Tag} {e : Element} {es : List Element} (h : e ∈ es) :
    e.body.length ≤ (constructed t es).encode.length :=
  e.length_body_le.trans (length_encode_le_constructed h)

/-- A row has at most as many elements as bytes. -/
theorem length_le_length_encodeAll (es : List Element) : es.length ≤ (encodeAll es).length := by
  induction es with
  | nil => simp
  | cons e es ih =>
    have := List.length_pos_of_ne_nil e.encode_ne_nil
    rw [encodeAll_cons, List.length_append, List.length_cons]
    omega

/-- A row of elements is read back, if the reader may read that many. -/
theorem readAll?_encodeAll {es : List Element} {n : Nat} (hn : es.length ≤ n)
    (h : ∀ e ∈ es, e.body.length ≤ maxLength) : readAll? n (encodeAll es) = some es := by
  induction es generalizing n with
  | nil => cases n <;> rfl
  | cons e es ih =>
    obtain ⟨n, rfl⟩ : ∃ m, n = m + 1 := ⟨n - 1, by rw [List.length_cons] at hn; omega⟩
    have hread := read?_encode (h e List.mem_cons_self) (encodeAll es)
    have hrest := ih (Nat.le_of_succ_le_succ hn) fun e' he' => h e' (List.mem_cons_of_mem _ he')
    rw [encodeAll_cons]
    -- an element is never empty, which rules out the first clause of the reader.
    obtain ⟨x, r, hb⟩ : ∃ x r, e.encode ++ encodeAll es = x :: r := ⟨_, _, rfl⟩
    rw [hb] at hread ⊢
    simp [readAll?, hread, hrest]

/-- A row that is read is written as it was read. -/
theorem encodeAll_of_readAll? {n : Nat} {b : Bytes} {es : List Element}
    (h : readAll? n b = some es) :
    b = encodeAll es ∧ ∀ e ∈ es, e.body.length ≤ maxLength := by
  -- induction on the fuel, of which each element takes one.
  -- induction on the fuel, of which each element takes one.
  induction n generalizing b es with
  | zero =>
    cases b with
    | nil =>
      obtain rfl : [] = es := by simpa [readAll?] using h
      simp
    | cons x r => simp [readAll?] at h
  | succ n ih =>
    cases b with
    | nil =>
      obtain rfl : [] = es := by simpa [readAll?] using h
      simp
    | cons x r =>
      simp only [readAll?, Option.bind_eq_bind, Option.bind_eq_some_iff, Prod.exists,
        Option.some.injEq] at h
      obtain ⟨e, rest, hread, es', hrest, rfl⟩ := h
      obtain ⟨hb, hmax⟩ := encode_of_read? hread
      obtain ⟨rfl, hall⟩ := ih hrest
      exact ⟨hb, List.forall_mem_cons.2 ⟨hmax, hall⟩⟩

/-- A byte string is a row of elements if and only if it is the encoding of one whose bodies are
not too long. -/
theorem listOfBytes?_eq_some_iff {b : Bytes} {es : List Element} :
    listOfBytes? b = some es ↔ b = encodeAll es ∧ ∀ e ∈ es, e.body.length ≤ maxLength := by
  refine ⟨encodeAll_of_readAll?, ?_⟩
  rintro ⟨rfl, h⟩
  exact readAll?_encodeAll (length_le_length_encodeAll es) h

/-- The parts of an element are read off if and only if it is made of them. -/
theorem parts?_eq_some_iff {t : Tag} {e : Element} {es : List Element} :
    e.parts? t = some es ↔
      e = constructed t es ∧ ∀ e' ∈ es, e'.body.length ≤ maxLength := by
  cases e with
  | mk tag body =>
    simp only [parts?, constructed, Option.ite_none_right_eq_some, listOfBytes?_eq_some_iff,
      Element.mk.injEq, and_assoc]

/-- A document is a sequence of elements if and only if it is the encoding of that sequence and not
too long. -/
theorem sequenceOfBytes?_eq_some_iff {b : Bytes} {es : List Element} :
    sequenceOfBytes? b = some es ↔ b = (sequence es).encode ∧ b.length ≤ maxLength := by
  simp only [sequenceOfBytes?, Option.bind_eq_bind, Option.bind_eq_some_iff, ofBytes?_eq_some_iff,
    parts?_eq_some_iff]
  constructor
  · rintro ⟨e, ⟨rfl, hmax⟩, rfl, -⟩
    exact ⟨rfl, hmax⟩
  · rintro ⟨rfl, hmax⟩
    exact ⟨_, ⟨rfl, hmax⟩, rfl, fun e he => (length_body_le_constructed he).trans hmax⟩

/-- A sequence within the limit is determined by its encoding, down to its parts. -/
theorem sequence_encode_inj {es es' : List Element}
    (h : (sequence es).encode = (sequence es').encode)
    (hlen : (sequence es).encode.length ≤ maxLength) : es = es' := by
  have hread := sequenceOfBytes?_eq_some_iff.2 ⟨rfl, hlen⟩
  rw [sequenceOfBytes?_eq_some_iff.2 ⟨h, hlen⟩] at hread
  exact (Option.some.inj hread).symm

/-! ### Primitive elements -/

/-- Only bit strings of whole bytes are read. -/
theorem bitBytes?_eq_some_iff {body b : Bytes} : bitBytes? body = some b ↔ body = 0 :: b := by
  unfold bitBytes?
  split <;> simp_all

/-- The bytes of a bit string are read off if and only if it is made of them. -/
theorem bits?_eq_some_iff {e : Element} {b : Bytes} : e.bits? = some b ↔ e = bits b := by
  cases e with
  | mk tag body =>
    simp only [bits?, bits, Option.ite_none_right_eq_some, Element.mk.injEq, bitBytes?_eq_some_iff]

/-- The body of an integer holds its bytes but for leading zeros. -/
@[simp] theorem stripZeros_unsignedBody (b : Bytes) :
    stripZeros (unsignedBody b) = stripZeros b := by
  unfold unsignedBody
  have hmin := isMinimal_stripZeros b
  split
  · next h => rw [h]; rfl
  · next x r h =>
    rw [h] at hmin ⊢
    split
    · exact stripZeros_eq_self_iff.2 hmin
    · rw [stripZeros_zero_cons]
      exact stripZeros_eq_self_iff.2 hmin

/-- The body of an integer has the value of the bytes it is made of. -/
theorem toNat_unsignedBody (b : Bytes) : toNat (unsignedBody b) = toNat b := by
  rw [← toNat_stripZeros, stripZeros_unsignedBody, toNat_stripZeros]

/-- The body of an integer has room for its bytes without leading zeros. -/
theorem length_stripZeros_le (b : Bytes) : (stripZeros b).length ≤ (unsignedBody b).length := by
  unfold unsignedBody
  split
  · next h => simp [h]
  · next x r h =>
    rw [h]
    split <;> simp

/-- Even zero takes a byte. -/
theorem unsignedBody_ne_nil (b : Bytes) : unsignedBody b ≠ [] := by
  unfold unsignedBody
  split
  · simp
  · split <;> simp

/-- The body depends on the value alone. -/
theorem unsignedBody_congr {a b : Bytes} (h : stripZeros a = stripZeros b) :
    unsignedBody a = unsignedBody b := by
  rw [unsignedBody, h, ← unsignedBody]

@[simp] theorem unsignedBody_stripZeros (b : Bytes) :
    unsignedBody (stripZeros b) = unsignedBody b :=
  unsignedBody_congr (stripZeros_stripZeros b)

/-- The bytes of a non-negative integer are those without leading zeros whose integer it is. -/
theorem unsigned?_eq_some_iff {e : Element} {b : Bytes} :
    e.unsigned? = some b ↔ e = unsigned b ∧ IsMinimal b := by
  simp only [unsigned?, Option.ite_none_right_eq_some, Option.some.injEq]
  constructor
  · rintro ⟨he, rfl⟩
    refine ⟨?_, isMinimal_stripZeros _⟩
    rw [unsigned, unsignedBody_stripZeros]
    exact he
  · rintro ⟨rfl, hmin⟩
    refine ⟨?_, ?_⟩
    · rw [unsigned, unsigned, unsignedBody_congr (stripZeros_unsignedBody b)]
    · rw [unsigned, stripZeros_unsignedBody, stripZeros_eq_self_iff.2 hmin]

theorem unsigned_stripZeros (b : Bytes) : unsigned (stripZeros b) = unsigned b := by
  rw [unsigned, unsignedBody_stripZeros, unsigned]

/-- A natural number is read off if and only if the element is its writing. -/
theorem nat?_eq_some_iff {e : Element} {n : Nat} : e.nat? = some n ↔ e = nat n := by
  simp only [nat?, Option.map_eq_some_iff, unsigned?_eq_some_iff]
  constructor
  · rintro ⟨b, ⟨rfl, hmin⟩, rfl⟩
    rw [nat, ofNatMin_toNat hmin]
  · rintro rfl
    exact ⟨ofNatMin n, ⟨rfl, isMinimal_ofNatMin n⟩, toNat_ofNatMin n⟩

/-! ### Bounds of lengths -/

/-- A short body is preceded by two bytes. -/
theorem length_encode_of_lt {e : Element} (h : e.body.length < 0x80) :
    e.encode.length = e.body.length + 2 := by
  simp [encode, encodeLength, h]

/-- Apart from its body an element takes at most six bytes, if the body is within the limit. -/
theorem length_encode_le_of_body {e : Element} {k : Nat} (hk : k ≤ maxLength)
    (h : e.body.length ≤ k) : e.encode.length ≤ k + 6 := by
  have hlength : (encodeLength e.body.length).length ≤ 5 := by
    unfold encodeLength
    split
    · simp
    · have := width_le_four (h.trans hk)
      simp
      omega
  rw [length_encode, framedLength]
  omega

theorem length_nat_body_pos (n : Nat) : 0 < (nat n).body.length :=
  List.length_pos_of_ne_nil (unsignedBody_ne_nil _)

/-- An integer takes one byte more than its value, for the sign. -/
theorem length_nat_body_le (n : Nat) : (nat n).body.length ≤ width n + 1 := by
  show (unsignedBody (ofNatMin n)).length ≤ width n + 1
  -- nothing is stripped off a shortest writing; only the sign byte may come on top.
  -- nothing is stripped off a shortest writing; only the sign byte may come on top.
  have hstrip : (stripZeros (ofNatMin n)).length = width n := by
    rw [stripZeros_ofNatMin, length_ofNatMin]
  unfold unsignedBody
  split
  · simp
  · next x r h =>
    rw [h, List.length_cons] at hstrip
    split
    · simp only [List.length_cons]
      omega
    · simp only [List.length_cons]
      omega

end Element

end Keyring.Der
